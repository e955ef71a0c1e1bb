import QStorage.Infra.Task
import QStorage.Lib.Fifo
import QStorage.Lib.Tally
import Mathlib.Data.List.Perm.Basic
import Mathlib.Data.List.TakeDrop
import Mathlib.Data.Int.Notation

/-!
# The request loop (`infra/io_uring.h`, `infra/io_uring.cc`)

Coroutines put requests into a bounded queue, and one thread moves them to the submission
ring, waits for the kernel and posts the batons. The thread's steps interleave with the
submissions and with the kernel, which consumes entries and completes them in any order.

## Main results

* `CoIoUring.Inv` — where the requests are, and what the ring counters say about it.
* `CoIoUring.delivered_once` — every request is in one place, goes into one SQE and is posted
  at most once, with the result of its own CQE.
* `CoIoUring.queueRefines` — the loop and its callers use the queue as a bounded FIFO channel.
-/

namespace QStorage.Infra

open QStorage.Lib

inductive OpCode where
  | READ
  | WRITE
  deriving DecidableEq, Repr

/-- What the caller sets; the baton and `res_` belong to the state of the loop. -/
structure IoRequest where
  op_code_ : OpCode
  fd_ : ℤ
  addr_ : ℕ
  size_ : ℕ
  offset_ : ℕ
  deriving DecidableEq, Repr

/-! ## liburing -/

/-- `io_uring_sqe`; `user_data` is `none` for a null pointer. -/
structure Sqe where
  opcode : OpCode
  fd : ℤ
  addr : ℕ
  len : BitVec 32
  off : ℕ
  user_data : Option ℕ
  deriving DecidableEq, Repr

structure Cqe where
  user_data : Option ℕ
  res : ℤ
  deriving DecidableEq, Repr

/-- `struct io_uring` and the kernel behind it. `sqes` are the entries from `khead` up to
`sqe_tail`, `inflight` those the kernel has consumed, `cqes` those ready for the application. -/
structure IoUring where
  ring_entries : BitVec 32
  khead : BitVec 32
  ktail : BitVec 32
  sqe_tail : BitVec 32
  sqes : List Sqe := []
  inflight : List Sqe := []
  cqes : List Cqe := []

/-- The next free entry, which `put` fills, or `none` when the ring is full. -/
def io_uring_get_sqe (ring : IoUring) : Option IoUring :=
  if ring.sqe_tail - ring.khead ≥ ring.ring_entries then none
  else some { ring with sqe_tail := ring.sqe_tail + 1 }

def IoUring.put (ring : IoUring) (sqe : Sqe) : IoUring := { ring with sqes := ring.sqes ++ [sqe] }

/-- The length parameter of `io_uring_prep_rw` is an `unsigned`. -/
def io_uring_prep_rw (op : OpCode) (fd : ℤ) (addr : ℕ) (len : BitVec 32) (offset : ℕ) : Sqe :=
  { opcode := op, fd := fd, addr := addr, len := len, off := offset, user_data := none }

def io_uring_sqe_set_data (sqe : Sqe) (data : ℕ) : Sqe := { sqe with user_data := some data }

/-- Publishes the prepared entries and returns how many there are. -/
def io_uring_submit (ring : IoUring) : ℕ × IoUring :=
  ((ring.sqe_tail - ring.ktail).toNat, { ring with ktail := ring.sqe_tail })

def io_uring_cq_ready (ring : IoUring) : ℕ := ring.cqes.length

def io_uring_cq_advance (ring : IoUring) (count : ℕ) : IoUring :=
  { ring with cqes := ring.cqes.drop count }

/-! ## `CoIoUring` -/

def SqSpace (ring : IoUring) : BitVec 32 := ring.ring_entries - (ring.ktail - ring.khead)

def CqReadyCount (ring : IoUring) : ℕ := io_uring_cq_ready ring

/-- The entry that `runLoop` prepares for the request `io` points to. -/
def IoRequest.toSqe (req : IoRequest) (io : ℕ) : Sqe :=
  io_uring_sqe_set_data
    (io_uring_prep_rw req.op_code_ req.fd_ req.addr_ (BitVec.ofNat 32 req.size_) req.offset_) io

/-- Where `runLoop` stands, with its locals. -/
inductive CoIoUring.Pc where
  | top
  /-- `queue_.size()` was read. -/
  | sized (ioc : ℕ)
  /-- About to read `SqSpace`. -/
  | space (ioc : ℕ)
  | fill (len i : ℕ)
  | forEachCqe (count : ℕ)
  | advance (count : ℕ)
  /-- `io_uring_get_sqe` returned null. -/
  | nullSqe
  | assertFailed

/-- The object with its thread. A pointer to a request is the number of the request object,
and every `submit` brings a new object; `res_` is the result field of each, unset before its
completion. The histories list the requests that were enqueued, the entries that were prepared,
the completions the kernel produced and the posts. -/
structure CoIoUring where
  queue_ : List ℕ := []
  ring_ : IoUring
  pc : CoIoUring.Pc := .top
  res_ : ℕ → Option ℤ := fun _ => none
  submitted : List ℕ := []
  sqeLog : List Sqe := []
  cqeLog : List Cqe := []
  posts : List (ℕ × ℤ) := []

namespace CoIoUring

def max_submits_ : ℕ := 5

inductive Label where
  | submit (req : ℕ)
  | runLoop
  | consume
  | complete (k : ℕ) (res : ℤ)

variable (s : CoIoUring)

/-- `co_await queue_.co_enqueue(req)`, which waits while the queue is full. -/
def submit (capacity req : ℕ) : Option CoIoUring :=
  if req ∈ s.submitted ∨ capacity ≤ s.queue_.length then none
  else some { s with queue_ := s.queue_ ++ [req], submitted := s.submitted ++ [req] }

/-- What a call of `submit` returns. -/
def submitTask (capacity req : ℕ) : Task CoIoUring := ⟨fun s => s.submit capacity req⟩

/-- One round of the `for` loop. Nothing but the loop reads `io` or the entry before the
submit, so that the round is one step. -/
def take (reqs : ℕ → IoRequest) (len i : ℕ) : Option CoIoUring :=
  match s.queue_, io_uring_get_sqe s.ring_ with
  | [], _ => none
  | _ :: queue, none => some { s with queue_ := queue, pc := .nullSqe }
  | io :: queue, some ring =>
    some { s with
      queue_ := queue
      ring_ := ring.put ((reqs io).toSqe io)
      pc := .fill len (i + 1)
      sqeLog := s.sqeLog ++ [(reqs io).toSqe io] }

/-- `io_uring_submit` and the assertion on its result. -/
def flush (len : ℕ) : CoIoUring :=
  let r := io_uring_submit s.ring_
  { s with ring_ := r.2, pc := if r.1 = len then .forEachCqe 0 else .assertFailed }

def processComplete (req : Option ℕ) (res : ℤ) (pc : Pc) : CoIoUring :=
  match req with
  | none => { s with pc := .assertFailed }
  | some io =>
    { s with
      pc := pc
      res_ := Function.update s.res_ io (some res)
      posts := s.posts ++ [(io, res)] }

/-- `io_uring_for_each_cqe` looks for a further entry after `count` of them. -/
def visit (count : ℕ) : CoIoUring :=
  match s.ring_.cqes[count]? with
  | some cqe => s.processComplete cqe.user_data cqe.res (.forEachCqe (count + 1))
  | none => { s with pc := .advance count }

def runLoop (reqs : ℕ → IoRequest) : Option CoIoUring :=
  match s.pc with
  | .top => some { s with pc := .sized s.queue_.length }
  | .sized ioc =>
    let cqc := CqReadyCount s.ring_
    some { s with
      pc := if ioc = 0 ∧ cqc = 0 then .top else if ioc > 0 then .space ioc else .forEachCqe 0 }
  | .space ioc =>
    let sq_space := (SqSpace s.ring_).toNat
    some { s with pc := .fill (min (min ioc sq_space) max_submits_) 0 }
  | .fill len i => if i < len then s.take reqs len i else some (s.flush len)
  | .forEachCqe count => some (s.visit count)
  | .advance count => some { s with ring_ := io_uring_cq_advance s.ring_ count, pc := .top }
  | .nullSqe | .assertFailed => none

/-- The kernel takes the oldest published entry. -/
def consume : Option CoIoUring :=
  match s.ring_.sqes with
  | [] => none
  | sqe :: sqes =>
    if s.ring_.khead = s.ring_.ktail then none
    else some { s with ring_ := { s.ring_ with
      khead := s.ring_.khead + 1
      sqes := sqes
      inflight := s.ring_.inflight ++ [sqe] } }

/-- The kernel completes any entry it has consumed. -/
def complete (k : ℕ) (res : ℤ) : Option CoIoUring :=
  match s.ring_.inflight[k]? with
  | none => none
  | some sqe =>
    let cqe : Cqe := { user_data := sqe.user_data, res := res }
    some { s with
      ring_ := { s.ring_ with
        inflight := s.ring_.inflight.eraseIdx k
        cqes := s.ring_.cqes ++ [cqe] }
      cqeLog := s.cqeLog ++ [cqe] }

/-- The queue holds `capacity` requests, `io` points to `reqs io`, and the counters of the
empty ring may start anywhere. -/
def machine (capacity : ℕ) (reqs : ℕ → IoRequest) : Machine CoIoUring Label where
  start s := ∃ entries count, s =
    { ring_ := { ring_entries := entries, khead := count, ktail := count, sqe_tail := count } }
  step s
    | .submit req => s.submit capacity req
    | .runLoop => s.runLoop reqs
    | .consume => s.consume
    | .complete k res => s.complete k res

/-! ## The invariant -/

/-- Entries that are prepared and not yet published. -/
def Pc.prepared : Pc → ℕ
  | .fill _ i => i
  | _ => 0

/-- Entries of the completion queue that were visited and not yet given back. -/
def Pc.count : Pc → ℕ
  | .forEachCqe count | .advance count => count
  | _ => 0

/-- What the locals of `runLoop` promise. -/
def PcOk : Prop :=
  match s.pc with
  | .sized ioc | .space ioc => ioc ≤ s.queue_.length
  | .fill len i => i ≤ len ∧ len ≤ i + s.queue_.length ∧
      s.ring_.sqes.length + (len - i) ≤ s.ring_.ring_entries.toNat
  | .forEachCqe count | .advance count => count ≤ s.ring_.cqes.length
  | .nullSqe | .assertFailed => False
  | .top => True

structure Inv (reqs : ℕ → IoRequest) (s : CoIoUring) : Prop where
  nodup : s.submitted.Nodup
  /-- Requests are prepared in the order in which they were enqueued. -/
  fifo : s.submitted.map some = s.sqeLog.map Sqe.user_data ++ s.queue_.map some
  built : ∀ sqe ∈ s.sqeLog, ∃ io, sqe = (reqs io).toSqe io
  /-- No entry is lost or doubled between the preparation and the completion. -/
  kept : ((s.ring_.sqes ++ s.ring_.inflight).map Sqe.user_data ++
    s.cqeLog.map Cqe.user_data).Perm (s.sqeLog.map Sqe.user_data)
  /-- The posts are the completions that were visited, in order. -/
  posted : s.cqeLog = s.posts.map (fun p => ⟨some p.1, p.2⟩) ++ s.ring_.cqes.drop s.pc.count
  res : Logs id s.res_ s.posts
  occupied : (s.ring_.sqe_tail - s.ring_.khead).toNat = s.ring_.sqes.length
  visible : (s.ring_.ktail - s.ring_.khead).toNat + s.pc.prepared = s.ring_.sqes.length
  fits : s.ring_.sqes.length ≤ s.ring_.ring_entries.toNat
  pcOk : s.PcOk

variable {capacity : ℕ} {reqs : ℕ → IoRequest} {s t : CoIoUring}

theorem inv_start (h : (machine capacity reqs).start s) : Inv reqs s := by
  obtain ⟨entries, count, rfl⟩ := h
  refine ⟨.nil, rfl, by simp, .rfl, rfl, ⟨.nil, by simp⟩, ?_, ?_, ?_, trivial⟩ <;>
    simp [Pc.prepared]

theorem Inv.submit (h : Inv reqs s) {req : ℕ} (hst : s.submit capacity req = some t) :
    Inv reqs t := by
  simp only [CoIoUring.submit, Option.ite_none_left_eq_some, not_or, Option.some.injEq] at hst
  obtain ⟨⟨hfresh, -⟩, rfl⟩ := hst
  refine { h with nodup := ?_, fifo := ?_, pcOk := ?_ }
  · exact List.nodup_append.mpr ⟨h.nodup, by simp, by grind⟩
  · simp [h.fifo]
  · have hpc := h.pcOk
    unfold PcOk at hpc ⊢
    grind

/-- The unpublished entries fit, so that `io_uring_get_sqe` finds a free one. -/
theorem Inv.get_sqe (h : Inv reqs s) {len i : ℕ} (hpc : s.pc = .fill len i) (hi : i < len) :
    io_uring_get_sqe s.ring_ = some { s.ring_ with sqe_tail := s.ring_.sqe_tail + 1 } := by
  have hfill := h.pcOk
  simp only [PcOk, hpc] at hfill
  have hocc := h.occupied
  have hroom : ¬ s.ring_.sqe_tail - s.ring_.khead ≥ s.ring_.ring_entries := by
    intro hfull
    have : s.ring_.ring_entries.toNat ≤ (s.ring_.sqe_tail - s.ring_.khead).toNat := hfull
    omega
  rw [io_uring_get_sqe, if_neg hroom]

theorem Inv.take (h : Inv reqs s) {len i : ℕ} (hpc : s.pc = .fill len i) (hi : i < len)
    (hst : s.take reqs len i = some t) : Inv reqs t := by
  have hfill := h.pcOk
  simp only [PcOk, hpc] at hfill
  cases hqueue : s.queue_ with
  | nil => simp [CoIoUring.take, hqueue] at hst
  | cons io queue =>
    simp only [CoIoUring.take, hqueue, h.get_sqe hpc hi, Option.some.injEq] at hst
    subst hst
    have hocc := h.occupied
    have hvis := h.visible
    simp only [hpc, Pc.prepared] at hvis
    refine ⟨h.nodup, ?_, ?_, ?_, ?_, h.res, ?_, ?_, ?_, ?_⟩
    · simp [h.fifo, hqueue, IoRequest.toSqe, io_uring_sqe_set_data]
    · intro sqe hsqe
      rcases List.mem_append.mp hsqe with hold | hnew
      · exact h.built sqe hold
      · exact ⟨io, by simpa using hnew⟩
    · have hkept := h.kept
      simp only [List.perm_iff_count, List.map_append, List.count_append, IoUring.put,
        List.map_cons, List.map_nil] at hkept ⊢
      intro a
      have := hkept a
      omega
    · simp [h.posted, hpc, Pc.count, IoUring.put]
    · simp only [IoUring.put, List.length_append, List.length_singleton]
      have := (BitVec.toNat_lt_twoPow_of_le (Nat.le_refl 32) : s.ring_.ring_entries.toNat < 2 ^ 32)
      bv_omega
    · simp only [IoUring.put, Pc.prepared, List.length_append, List.length_singleton]
      omega
    · simp only [IoUring.put, List.length_append, List.length_singleton]
      omega
    · simp only [PcOk, IoUring.put, List.length_append, List.length_cons, List.length_nil,
        hqueue] at hfill ⊢
      omega

theorem Inv.flush (h : Inv reqs s) {len i : ℕ} (hpc : s.pc = .fill len i) (hi : ¬ i < len) :
    Inv reqs (s.flush len) := by
  have hfill := h.pcOk
  simp only [PcOk, hpc] at hfill
  have hocc := h.occupied
  have hvis := h.visible
  simp only [hpc, Pc.prepared] at hvis
  have hret : (io_uring_submit s.ring_).1 = len := by
    simp only [io_uring_submit]
    bv_omega
  have hposted := h.posted
  simp only [hpc, Pc.count] at hposted
  refine { h with posted := ?_, visible := ?_, pcOk := ?_ } <;>
    simp only [CoIoUring.flush, hret, if_true]
  · exact hposted
  · exact hocc
  · exact Nat.zero_le _

/-- A step of `runLoop` that moves on and does nothing else. -/
theorem Inv.goto (h : Inv reqs s) {pc : Pc} (hprep : pc.prepared = s.pc.prepared)
    (hcount : pc.count = s.pc.count) (hok : ({ s with pc := pc } : CoIoUring).PcOk) :
    Inv reqs { s with pc := pc } :=
  { h with
    posted := by simpa [hcount] using h.posted
    visible := by simpa [hprep] using h.visible
    pcOk := hok }

theorem Inv.sqe_nodup (h : Inv reqs s) : (s.sqeLog.map Sqe.user_data).Nodup := by
  have hall : (s.submitted.map some).Nodup := h.nodup.map fun _ _ heq => Option.some.inj heq
  rw [h.fifo] at hall
  exact hall.of_append_left

/-- The kernel completes every entry once. -/
theorem Inv.cqe_nodup (h : Inv reqs s) : (s.cqeLog.map Cqe.user_data).Nodup :=
  (h.kept.nodup_iff.mpr h.sqe_nodup).of_append_right

/-- A completion names the request of an entry. -/
theorem Inv.cqe_user_data (h : Inv reqs s) {cqe : Cqe} (hcqe : cqe ∈ s.cqeLog) :
    ∃ io, cqe.user_data = some io := by
  have hmem : cqe.user_data ∈ s.sqeLog.map Sqe.user_data :=
    h.kept.subset (List.mem_append_right _ (List.mem_map_of_mem hcqe))
  obtain ⟨sqe, hsqe, heq⟩ := List.mem_map.mp hmem
  obtain ⟨io, rfl⟩ := h.built sqe hsqe
  exact ⟨io, heq.symm⟩

theorem Inv.visit (h : Inv reqs s) {count : ℕ} (hpc : s.pc = .forEachCqe count) :
    Inv reqs (s.visit count) := by
  have hposted := h.posted
  have hvis := h.visible
  have hcount := h.pcOk
  simp only [hpc, Pc.count, Pc.prepared, PcOk] at hposted hvis hcount
  cases hcqe : s.ring_.cqes[count]? with
  | none =>
    simp only [CoIoUring.visit, hcqe]
    exact h.goto (by rw [hpc]; rfl) (by rw [hpc]; rfl) hcount
  | some cqe =>
    obtain ⟨hlt, hget⟩ := List.getElem?_eq_some_iff.mp hcqe
    rw [List.drop_eq_getElem_cons hlt, hget] at hposted
    have hcqeLog : cqe ∈ s.cqeLog := by simp [hposted]
    obtain ⟨io, hio⟩ := h.cqe_user_data hcqeLog
    -- the completion was not visited before, since `io` has only this one
    have hfresh : s.res_ io = none := by
      by_contra hres
      obtain ⟨res, hres⟩ := Option.ne_none_iff_exists'.mp hres
      have hmem : (io, res) ∈ s.posts := (h.res.mem_iff io res).mpr hres
      have hnd := h.cqe_nodup
      rw [hposted] at hnd
      simp only [List.map_append, List.map_map, List.map_cons, hio] at hnd
      exact List.disjoint_of_nodup_append hnd (List.mem_map_of_mem hmem) (by simp)
    simp only [CoIoUring.visit, hcqe, processComplete, hio]
    refine { h with posted := ?_, res := ?_, visible := ?_, pcOk := hlt }
    · simp [hposted, Pc.count, ← hio]
    · exact h.res.append hfresh rfl
    · simpa [Pc.prepared] using hvis

theorem Inv.advance (h : Inv reqs s) {count : ℕ} (hpc : s.pc = .advance count) :
    Inv reqs { s with ring_ := io_uring_cq_advance s.ring_ count, pc := .top } := by
  have hposted := h.posted
  have hvis := h.visible
  simp only [hpc, Pc.count, Pc.prepared] at hposted hvis
  exact { h with posted := hposted, visible := hvis, pcOk := trivial }

theorem Inv.runLoop (h : Inv reqs s) (hst : s.runLoop reqs = some t) : Inv reqs t := by
  simp only [CoIoUring.runLoop] at hst
  have hpcOk := h.pcOk
  cases hpc : s.pc with
  | top =>
    simp only [hpc, Option.some.injEq] at hst
    subst hst
    exact h.goto (by rw [hpc]; rfl) (by rw [hpc]; rfl) (Nat.le_refl _)
  | sized ioc =>
    simp only [hpc, Option.some.injEq] at hst
    subst hst
    simp only [PcOk, hpc] at hpcOk
    by_cases hidle : ioc = 0 ∧ CqReadyCount s.ring_ = 0
    · simp only [hidle, and_self, if_true]
      exact h.goto (by rw [hpc]; rfl) (by rw [hpc]; rfl) trivial
    · simp only [hidle, if_false]
      by_cases hioc : ioc > 0
      · simp only [hioc, if_true]
        exact h.goto (by rw [hpc]; rfl) (by rw [hpc]; rfl) hpcOk
      · simp only [hioc, if_false]
        exact h.goto (by rw [hpc]; rfl) (by rw [hpc]; rfl) (Nat.zero_le _)
  | space ioc =>
    simp only [hpc, Option.some.injEq] at hst
    subst hst
    simp only [PcOk, hpc] at hpcOk
    refine h.goto (by rw [hpc]; rfl) (by rw [hpc]; rfl) ?_
    have hvis := h.visible
    have hfits := h.fits
    simp only [hpc, Pc.prepared] at hvis
    simp only [PcOk, SqSpace]
    have hspace : (s.ring_.ring_entries - (s.ring_.ktail - s.ring_.khead)).toNat =
        s.ring_.ring_entries.toNat - s.ring_.sqes.length := by
      bv_omega
    omega
  | fill len i =>
    simp only [hpc] at hst
    by_cases hi : i < len
    · exact h.take hpc hi (by simpa [hi] using hst)
    · obtain rfl : s.flush len = t := by simpa [hi] using hst
      exact h.flush hpc hi
  | forEachCqe count =>
    simp only [hpc, Option.some.injEq] at hst
    subst hst
    exact h.visit hpc
  | advance count =>
    simp only [hpc, Option.some.injEq] at hst
    subst hst
    exact h.advance hpc
  | nullSqe | assertFailed => simp [hpc] at hst

theorem Inv.consume (h : Inv reqs s) (hst : s.consume = some t) : Inv reqs t := by
  cases hsqes : s.ring_.sqes with
  | nil => simp [CoIoUring.consume, hsqes] at hst
  | cons sqe sqes =>
    simp only [CoIoUring.consume, hsqes, Option.ite_none_left_eq_some, Option.some.injEq] at hst
    obtain ⟨hne, rfl⟩ := hst
    have hocc := h.occupied
    have hvis := h.visible
    have hfits := h.fits
    have hkept := h.kept
    simp only [hsqes, List.length_cons] at hocc hvis hfits
    refine { h with kept := ?_, occupied := ?_, visible := ?_, fits := ?_, pcOk := ?_ }
    · refine .trans ?_ hkept
      simp only [hsqes, List.perm_iff_count, List.map_append, List.map_cons, List.map_nil,
        List.count_append, List.cons_append, List.count_cons, List.count_nil]
      intro a
      omega
    · simp only
      bv_omega
    · have : s.ring_.khead.toNat ≠ s.ring_.ktail.toNat := fun heq => hne (BitVec.eq_of_toNat_eq heq)
      simp only
      bv_omega
    · simp only
      omega
    · have hpcOk := h.pcOk
      unfold PcOk at hpcOk ⊢
      grind

theorem Inv.complete (h : Inv reqs s) {k : ℕ} {res : ℤ} (hst : s.complete k res = some t) :
    Inv reqs t := by
  cases hsqe : s.ring_.inflight[k]? with
  | none => simp [CoIoUring.complete, hsqe] at hst
  | some sqe =>
    simp only [CoIoUring.complete, hsqe, Option.some.injEq] at hst
    subst hst
    obtain ⟨hlt, rfl⟩ := List.getElem?_eq_some_iff.mp hsqe
    have hpcOk := h.pcOk
    have hcount : s.pc.count ≤ s.ring_.cqes.length := by
      unfold PcOk at hpcOk
      unfold Pc.count
      grind
    refine { h with kept := ?_, posted := ?_, pcOk := ?_ }
    · have herase := (List.getElem_cons_eraseIdx_perm hlt).map Sqe.user_data
      refine .trans ?_ h.kept
      simp only [List.perm_iff_count, List.map_append, List.map_cons, List.map_nil,
        List.count_append, List.count_cons, List.count_nil] at herase ⊢
      intro a
      have := herase a
      omega
    · simp [h.posted, List.drop_append_of_le_length hcount]
    · unfold PcOk at hpcOk ⊢
      grind

theorem inv_step {l : Label} (h : Inv reqs s) (hst : (machine capacity reqs).step s l = some t) :
    Inv reqs t := by
  cases l with
  | submit req => exact h.submit hst
  | runLoop => exact h.runLoop hst
  | consume => exact h.consume hst
  | complete k res => exact h.complete hst

theorem inv_of_reachable (h : (machine capacity reqs).Reachable s) : Inv reqs s := by
  induction h using Machine.Reachable.induction with
  | init s hs => exact inv_start hs
  | next s l t _ hst ih => exact inv_step ih hst

/-! ## Delivery -/

/-- Requests whose entry is prepared, published, or with the kernel. -/
def inRing (s : CoIoUring) : List (Option ℕ) :=
  (s.ring_.sqes ++ s.ring_.inflight).map Sqe.user_data

/-- Requests whose completion `runLoop` has not visited yet. -/
def inCq (s : CoIoUring) : List (Option ℕ) := (s.ring_.cqes.drop s.pc.count).map Cqe.user_data

/-- Requests whose baton was posted. -/
def completed (s : CoIoUring) : List (Option ℕ) := s.posts.map fun p => some p.1

/-- The four places hold the requests that were enqueued, each once. -/
theorem Inv.located (h : Inv reqs s) :
    (s.queue_.map some ++ s.inRing ++ s.inCq ++ s.completed).Perm (s.submitted.map some) := by
  have hkept := h.kept
  rw [h.fifo, inRing, inCq, completed]
  simp only [h.posted, List.map_append, List.map_map, List.perm_iff_count,
    List.count_append, Function.comp_def] at hkept ⊢
  intro a
  have := hkept a
  omega

/-- A request is in one of the places exactly if it was enqueued. -/
theorem Inv.mem_located (h : Inv reqs s) {req : ℕ} :
    some req ∈ s.queue_.map some ++ s.inRing ++ s.inCq ++ s.completed ↔ req ∈ s.submitted := by
  rw [h.located.mem_iff]
  simp

/-- The batch never exceeds the free entries and the queue, so that no dequeue blocks, no
entry is null and no assertion fails; each request is in exactly one of the four places, has
one entry with its own data once it has left the queue, and is posted at most once, with the
result of the only completion of that entry. -/
theorem delivered_once (h : (machine capacity reqs).Reachable s) :
    (∀ len i, s.pc = .fill len i →
      (s.ring_.sqe_tail - s.ring_.khead).toNat + (len - i) ≤ s.ring_.ring_entries.toNat ∧
      len - i ≤ s.queue_.length ∧ (i < len → (io_uring_get_sqe s.ring_).isSome)) ∧
    s.pc ≠ .nullSqe ∧ s.pc ≠ .assertFailed ∧
    (s.queue_.map some ++ s.inRing ++ s.inCq ++ s.completed).Perm (s.submitted.map some) ∧
    s.submitted.Nodup ∧
    s.submitted.map some = s.sqeLog.map Sqe.user_data ++ s.queue_.map some ∧
    (∀ sqe ∈ s.sqeLog, ∃ io, sqe = (reqs io).toSqe io) ∧
    (s.cqeLog.map Cqe.user_data).Nodup ∧ (s.posts.map Prod.fst).Nodup ∧
    ∀ io res, (io, res) ∈ s.posts → ⟨some io, res⟩ ∈ s.cqeLog ∧ s.res_ io = some res := by
  have hinv := inv_of_reachable h
  have hpcOk := hinv.pcOk
  refine ⟨fun len i hpc => ?_, fun hpc => ?_, fun hpc => ?_, hinv.located, hinv.nodup, hinv.fifo,
    hinv.built, hinv.cqe_nodup, hinv.res.nodup, fun io res hpost => ⟨?_, ?_⟩⟩
  · simp only [PcOk, hpc] at hpcOk
    rw [hinv.occupied]
    refine ⟨by omega, by omega, fun hi => ?_⟩
    rw [hinv.get_sqe hpc hi]
    rfl
  · simp [PcOk, hpc] at hpcOk
  · simp [PcOk, hpc] at hpcOk
  · rw [hinv.posted]
    exact List.mem_append_left _ (List.mem_map_of_mem hpost)
  · exact (hinv.res.mem_iff io res).mp hpost

/-- Two requests of different kinds; the counters wrap between the two entries, and the
completions come in the opposite order. -/
def twoRequests (io : ℕ) : IoRequest :=
  { op_code_ := if io = 1 then .READ else .WRITE, fd_ := 3, addr_ := 4096, size_ := 512,
    offset_ := 512 * io }

def wrapRound : List Label :=
  [.submit 1, .submit 2, .runLoop, .runLoop, .runLoop, .runLoop, .runLoop, .runLoop,
    .consume, .consume, .complete 1 512, .complete 0 (-5), .runLoop, .runLoop, .runLoop, .runLoop]

theorem delivered_once_wrap : ∃ s, (machine 8 twoRequests).run
      { ring_ := { ring_entries := 4, khead := -1, ktail := -1, sqe_tail := -1 } } wrapRound =
        some s ∧
    s.ring_.khead = 1 ∧ s.posts = [(2, 512), (1, -5)] ∧
    (s.queue_.map some ++ s.inRing ++ s.inCq ++ s.completed).Perm (s.submitted.map some) := by
  refine ⟨_, rfl, rfl, rfl, ?_⟩
  have hrun : (machine 8 twoRequests).run
      { ring_ := { ring_entries := 4, khead := -1, ktail := -1, sqe_tail := -1 } } wrapRound =
        some _ := rfl
  exact (delivered_once (.of_run ⟨4, -1, rfl⟩ hrun)).2.2.2.1

/-- `runLoop` enqueues nothing, and leaves the queue alone or takes its first request. -/
theorem runLoop_queue (hst : s.runLoop reqs = some t) :
    t.submitted = s.submitted ∧ (t.queue_ = s.queue_ ∨ ∃ io, s.queue_ = io :: t.queue_) := by
  simp only [CoIoUring.runLoop] at hst
  cases hpc : s.pc with
  | fill len i =>
    simp only [hpc] at hst
    by_cases hi : i < len
    · simp only [hi, if_true, CoIoUring.take] at hst
      grind
    · obtain rfl : s.flush len = t := by simpa [hi] using hst
      exact ⟨rfl, .inl rfl⟩
  | forEachCqe count =>
    obtain rfl : s.visit count = t := by simpa [hpc] using hst
    simp only [CoIoUring.visit, processComplete]
    grind
  | top | sized | space | advance | nullSqe | assertFailed => grind

/-- Only `submit` enqueues a request. -/
theorem step_submitted {l : Label} (hst : (machine capacity reqs).step s l = some t) :
    t.submitted = s.submitted ∨
      ∃ req, l = .submit req ∧ t.submitted = s.submitted ++ [req] := by
  cases l with
  | submit req =>
    simp only [machine, CoIoUring.submit, Option.ite_none_left_eq_some, Option.some.injEq] at hst
    obtain ⟨-, rfl⟩ := hst
    exact .inr ⟨req, rfl, rfl⟩
  | runLoop => exact .inl (runLoop_queue hst).1
  | consume =>
    simp only [machine, CoIoUring.consume] at hst
    grind
  | complete k res =>
    simp only [machine, CoIoUring.complete] at hst
    grind

/-- The loop and its callers use `queue_` as a bounded FIFO channel, which is what
`BoundedQueue` implements. -/
def queueRefines (capacity : ℕ) (reqs : ℕ → IoRequest) :
    Machine.Refinement (machine capacity reqs) (Fifo.machine ℕ capacity) where
  abs s := s.queue_
  start s hs := by
    obtain ⟨entries, count, rfl⟩ := hs
    rfl
  step s l t _ hst := by
    cases l with
    | submit req =>
      simp only [machine, CoIoUring.submit, Option.ite_none_left_eq_some, not_or, Nat.not_le,
        Option.some.injEq] at hst
      obtain ⟨⟨-, hroom⟩, rfl⟩ := hst
      exact .inr ⟨.put req, by simp [Fifo.machine, hroom]⟩
    | runLoop =>
      rcases (runLoop_queue hst).2 with hsame | ⟨io, hio⟩
      · exact .inl hsame
      · exact .inr ⟨.get, by simp [Fifo.machine, hio]⟩
    | consume =>
      simp only [machine, CoIoUring.consume] at hst
      grind
    | complete k res =>
      simp only [machine, CoIoUring.complete] at hst
      grind

/-- No more requests are enqueued than the queue holds. -/
theorem queue_length_le (h : (machine capacity reqs).Reachable s) : s.queue_.length ≤ capacity :=
  Fifo.length_le ((queueRefines capacity reqs).reachable h)

end CoIoUring

end QStorage.Infra
