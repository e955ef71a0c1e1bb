import QStorage.Db.LogWriter.Invariant
import QStorage.Infra.IoUring

/-!
# The hand-over of a write (`WriteTask::commit`)

`commit` builds a request, calls `CoIoUring::submit` with it and waits for its baton. `submit` is
a coroutine, and `commit` drops the `Task` that the call returns. The log writer and the request
loop run side by side here, and they meet in `commit` and in the baton of the request.

## Main results

* `LogWriter.Commit.onItsWay_iff` — in which runs the write of every suspended leader is on its way.
* `LogWriter.Commit.onItsWay_of_co_await` — what awaiting the `Task` would have done.
* `LogWriter.Commit.log_hangs` — a leader that has entered `commit` never leaves it, and no group
  ends any more.
* `LogWriter.Commit.logRefines`, `LogWriter.Commit.ioRefines` — each of the two is a run of its own
  machine.
-/

namespace QStorage.Db.LogWriter

open QStorage.Lib QStorage.Infra

/-- The steps of the log writer that have no part in `commit`. -/
def Label.own : Label → Bool
  | .leave _ | .ioComplete _ _ => false
  | _ => true

/-- Suspended on the baton of its request, or just released from it. -/
def Pc.inCommit : Pc → Bool
  | .commit _ => true
  | _ => false

section Own

variable {host : Endian} {s t : State}

theorem inCommit_update {i : ℕ} {c : Coro} (hcoros : t.coros = Function.update s.coros i c)
    (hbefore : (s.coros i).pc.inCommit = false) (hafter : c.pc.inCommit = false) (j : ℕ)
    (hj : (s.coros j).pc.inCommit = true ∨ (t.coros j).pc.inCommit = true) :
    (t.coros j).pc = (s.coros j).pc := by
  by_cases hji : j = i
  · subst hji
    rw [hcoros, Function.update_self, hbefore, hafter] at hj
    rcases hj with hj | hj <;> cases hj
  · rw [hcoros, Function.update_of_ne hji]

/-- As long as no baton was posted, nobody enters or leaves `commit` and no group ends. -/
theorem Inv.own_keeps (h : Inv s) {l : Label} (hown : l.own = true)
    (hst : (machine host).step s l = some t) (hwaiting : ∀ i, (s.coros i).pc ≠ .commit true) :
    (∀ j, (s.coros j).pc.inCommit = true ∨ (t.coros j).pc.inCommit = true →
      (t.coros j).pc = (s.coros j).pc) ∧ t.finished = s.finished := by
  cases h.steps hst with
  | call hpc | grant hpc | copy hpc | leaderWait hpc | followerResume hpc =>
    exact ⟨inCommit_update rfl (by rw [hpc]; rfl) rfl, rfl⟩
  | refuse hpc =>
    refine ⟨inCommit_update rfl ?_ rfl, rfl⟩
    rcases hpc with ⟨-, hpc⟩ | ⟨-, hpc⟩ <;> rw [hpc] <;> rfl
  | lead hpc =>
    refine ⟨inCommit_update rfl ?_ rfl, rfl⟩
    rcases hpc with ⟨-, hpc⟩ | ⟨-, hpc⟩ <;> rw [hpc] <;> rfl
  | followerComplete hpc =>
    refine ⟨inCommit_update rfl (by rw [hpc]; rfl) ?_, rfl⟩
    show (if _ then _ else _ : Pc).inCommit = false
    split_ifs <;> rfl
  | finish hpc => exact absurd hpc (hwaiting _)
  | leave | ioComplete => cases hown

end Own

/-- The log writer and the loop. `built` lists the leaders that have entered `commit`, each with
the request object that is its local `req`. -/
structure Commit where
  log : State
  io : CoIoUring
  built : List (ℕ × ℕ) := []

namespace Commit

inductive Label where
  | log (l : LogWriter.Label)
  /-- Leader `i` runs `commit` up to `co_await baton`, with `r` as its request. -/
  | commit (i r : ℕ)
  /-- The loop, the kernel, or another caller of `submit`. -/
  | io (l : CoIoUring.Label)
  /-- The post of the baton in request `r` reaches leader `i`. -/
  | baton (i r : ℕ) (res : ℤ)

variable (u : Commit)

/-- `r` is a new object, which the constructor of `IoRequest` has filled. -/
def Fresh (reqs : ℕ → IoRequest) (i r : ℕ) : Prop :=
  r ∉ u.io.submitted ∧ r ∉ u.built.map Prod.snd ∧
    reqs r = u.log.groupReq (u.log.coros i).task.addr_ (u.log.bank i).len

/-- Nobody but its leader knows the request of a `commit`. -/
def Foreign : CoIoUring.Label → Prop
  | .submit req => req ∉ u.built.map Prod.snd
  | _ => True

instance (reqs : ℕ → IoRequest) (i r : ℕ) : Decidable (u.Fresh reqs i r) := by
  unfold Fresh
  infer_instance

instance (l : CoIoUring.Label) : Decidable (u.Foreign l) := by
  cases l <;> unfold Foreign <;> infer_instance

/-- From the end of the spin to `co_await baton`. The call `io_uring.submit(&req)` is a statement
of its own, so that its `Task` is dropped. -/
def enter (host : Endian) (capacity i r : ℕ) : Option Commit :=
  (LogWriter.step host u.log (.leave i)).map fun log =>
    { log := log
      io := (CoIoUring.submitTask capacity r).discard u.io
      built := u.built ++ [(i, r)] }

def withLog (log : State) : Commit := { u with log := log }

def step (host : Endian) (capacity : ℕ) (reqs : ℕ → IoRequest) (u : Commit) :
    Label → Option Commit
  | .log l => if l.own then (LogWriter.step host u.log l).map u.withLog else none
  | .commit i r => if u.Fresh reqs i r then u.enter host capacity i r else none
  | .io l =>
    if u.Foreign l then
      ((CoIoUring.machine capacity reqs).step u.io l).map fun io => { u with io := io }
    else none
  | .baton i r res =>
    if (i, r) ∈ u.built ∧ (r, res) ∈ u.io.posts then
      (LogWriter.step host u.log (.ioComplete i res)).map u.withLog
    else none

def machine (host : Endian) (capacity : ℕ) (reqs : ℕ → IoRequest) : Machine Commit Label where
  start u := (LogWriter.machine host).start u.log ∧ (CoIoUring.machine capacity reqs).start u.io ∧
    u.built = []
  step := step host capacity reqs

/-- The request of every leader that is suspended on its baton is in the queue, in the ring, with
the kernel, or completed. -/
def OnItsWay : Prop :=
  ∀ i, (u.log.coros i).pc = .commit false → ∃ r, (i, r) ∈ u.built ∧
    some r ∈ u.io.queue_.map some ++ u.io.inRing ++ u.io.inCq ++ u.io.completed

variable {host : Endian} {capacity : ℕ} {reqs : ℕ → IoRequest} {u v : Commit} {l : Label}

/-! ## The two components -/

/-- What each step does to the two components; the `Task` has no effect. -/
inductive Steps (host : Endian) (capacity : ℕ) (reqs : ℕ → IoRequest) (u : Commit) :
    Label → Commit → Prop
  | log {k : LogWriter.Label} {log : State} : k.own = true →
      (LogWriter.machine host).step u.log k = some log →
      Steps host capacity reqs u (.log k) { u with log := log }
  | commit {i r : ℕ} {log : State} : u.Fresh reqs i r →
      (LogWriter.machine host).step u.log (.leave i) = some log →
      Steps host capacity reqs u (.commit i r) { u with log := log, built := u.built ++ [(i, r)] }
  | io {k : CoIoUring.Label} {io : CoIoUring} : u.Foreign k →
      (CoIoUring.machine capacity reqs).step u.io k = some io →
      Steps host capacity reqs u (.io k) { u with io := io }
  | baton {i r : ℕ} {res : ℤ} {log : State} : (i, r) ∈ u.built → (r, res) ∈ u.io.posts →
      (LogWriter.machine host).step u.log (.ioComplete i res) = some log →
      Steps host capacity reqs u (.baton i r res) { u with log := log }

theorem steps (hst : (machine host capacity reqs).step u l = some v) :
    Steps host capacity reqs u l v := by
  cases l with
  | log k =>
    obtain ⟨hown, hst⟩ := Option.ite_none_right_eq_some.mp hst
    obtain ⟨log, hlog, rfl⟩ := Option.map_eq_some_iff.mp hst
    exact .log hown hlog
  | commit i r =>
    obtain ⟨hfresh, hst⟩ := Option.ite_none_right_eq_some.mp hst
    obtain ⟨log, hlog, rfl⟩ := Option.map_eq_some_iff.mp hst
    exact .commit hfresh hlog
  | io k =>
    obtain ⟨hforeign, hst⟩ := Option.ite_none_right_eq_some.mp hst
    obtain ⟨io, hio, rfl⟩ := Option.map_eq_some_iff.mp hst
    exact .io hforeign hio
  | baton i r res =>
    obtain ⟨⟨hbuilt, hpost⟩, hst⟩ := Option.ite_none_right_eq_some.mp hst
    obtain ⟨log, hlog, rfl⟩ := Option.map_eq_some_iff.mp hst
    exact .baton hbuilt hpost hlog

/-- The log writer keeps to its own machine. -/
def logRefines (host : Endian) (capacity : ℕ) (reqs : ℕ → IoRequest) :
    Machine.Refinement (machine host capacity reqs) (LogWriter.machine host) where
  abs := log
  start _ hs := hs.1
  step u l v _ hst := by
    cases steps hst with
    | log _ hlog => exact .inr ⟨_, hlog⟩
    | commit _ hlog => exact .inr ⟨_, hlog⟩
    | io _ _ => exact .inl rfl
    | baton _ _ hlog => exact .inr ⟨_, hlog⟩

/-- So does the loop. -/
def ioRefines (host : Endian) (capacity : ℕ) (reqs : ℕ → IoRequest) :
    Machine.Refinement (machine host capacity reqs) (CoIoUring.machine capacity reqs) where
  abs := io
  start _ hs := hs.2.1
  step u l v _ hst := by
    cases steps hst with
    | io _ hio => exact .inr ⟨_, hio⟩
    | log | commit | baton => exact .inl rfl

/-! ## The invariant -/

structure Inv (reqs : ℕ → IoRequest) (u : Commit) : Prop where
  log : LogWriter.Inv u.log
  io : CoIoUring.Inv reqs u.io
  /-- Nobody enqueues the request of a `commit`. -/
  unsent : ∀ i r, (i, r) ∈ u.built → r ∉ u.io.submitted
  /-- So nobody posts its baton. -/
  waiting : ∀ i, (u.log.coros i).pc ≠ .commit true

theorem inv_start (hs : (machine host capacity reqs).start u) : Inv reqs u := by
  obtain ⟨⟨raw_space, fd, mem, file, -, hlog⟩, hio, hbuilt⟩ := hs
  refine ⟨hlog ▸ inv_initial raw_space fd mem file, CoIoUring.inv_start hio, ?_, ?_⟩
  · simp [hbuilt]
  · simp [hlog, initial]

theorem Inv.not_posted (h : Inv reqs u) {i r : ℕ} {res : ℤ} (hbuilt : (i, r) ∈ u.built) :
    (r, res) ∉ u.io.posts := by
  intro hpost
  refine h.unsent i r hbuilt (h.io.mem_located.mp (List.mem_append_right _ ?_))
  exact List.mem_map_of_mem hpost

theorem leave_coros {s t : State} {i : ℕ}
    (hst : (LogWriter.machine host).step s (.leave i) = some t) :
    (s.coros i).pc = .spin ∧ t.finished = s.finished ∧ ∃ c : Coro, c.pc = .commit false ∧
      t.coros = Function.update s.coros i c := by
  obtain ⟨⟨hpc, -⟩, rfl⟩ := step_leave hst
  exact ⟨hpc, rfl, _, rfl, rfl⟩

theorem inv_step (h : Inv reqs u) (hst : (machine host capacity reqs).step u l = some v) :
    Inv reqs v := by
  cases steps hst with
  | log hown hlog =>
    refine { h with log := LogWriter.inv_step h.log hlog, waiting := ?_ }
    intro i hi
    rw [(h.log.own_keeps hown hlog h.waiting).1 i (.inr (by rw [hi]; rfl))] at hi
    exact h.waiting i hi
  | @commit i r log hfresh hlog =>
    obtain ⟨-, -, c, hc, hcoros⟩ := leave_coros hlog
    refine ⟨LogWriter.inv_step h.log hlog, h.io, ?_, ?_⟩
    · intro j q hq
      rcases List.mem_append.mp hq with hold | hnew
      · exact h.unsent j q hold
      · obtain ⟨rfl, rfl⟩ : j = i ∧ q = r := by simpa using hnew
        exact hfresh.1
    · intro j hj
      exact h.waiting j (pc_of_update hcoros (by rw [hc]; simp) hj)
  | @io k io hforeign hio =>
    refine ⟨h.log, CoIoUring.inv_step h.io hio, ?_, h.waiting⟩
    intro i r hr hsubmitted
    rcases CoIoUring.step_submitted hio with hsame | ⟨req, rfl, hnew⟩
    · exact h.unsent i r hr (hsame ▸ hsubmitted)
    · rw [hnew, List.mem_append, List.mem_singleton] at hsubmitted
      rcases hsubmitted with hold | rfl
      · exact h.unsent i r hr hold
      · exact hforeign (List.mem_map_of_mem hr)
  | baton hbuilt hpost => exact absurd hpost (h.not_posted hbuilt)

theorem inv_of_reachable (h : (machine host capacity reqs).Reachable u) : Inv reqs u := by
  induction h using Machine.Reachable.induction with
  | init u hu => exact inv_start hu
  | next u l v _ hst ih => exact inv_step ih hst

/-! ## The write of a leader -/

theorem Inv.onItsWay_iff_nobody (h : Inv reqs u) :
    u.OnItsWay ↔ ∀ i, (u.log.coros i).pc ≠ .commit false := by
  constructor
  · intro hway i hi
    obtain ⟨r, hr, hplace⟩ := hway i hi
    exact h.unsent i r hr (h.io.mem_located.mp hplace)
  · intro hnone i hi
    exact absurd hi (hnone i)

/-- The steps that are not the entry of a leader into `commit`. -/
def Label.notCommit : Label → Bool
  | .commit _ _ => false
  | _ => true

theorem Inv.nobody (h : Inv reqs u) (hl : l.notCommit = true)
    (hst : (machine host capacity reqs).step u l = some v)
    (hnone : ∀ i, (u.log.coros i).pc ≠ .commit false) (i : ℕ) :
    (v.log.coros i).pc ≠ .commit false := by
  cases steps hst with
  | log hown hlog =>
    intro hi
    rw [(h.log.own_keeps hown hlog h.waiting).1 i (.inr (by rw [hi]; rfl))] at hi
    exact hnone i hi
  | commit => cases hl
  | io => exact hnone i
  | baton hbuilt hpost => exact absurd hpost (h.not_posted hbuilt)

/-- A leader that enters `commit` waits for a request that is nowhere. -/
theorem Inv.spoil (h : Inv reqs u) (hl : ¬ l.notCommit = true)
    (hst : (machine host capacity reqs).step u l = some v) : ¬ v.OnItsWay := by
  rw [(inv_step h hst).onItsWay_iff_nobody]
  cases steps hst with
  | @commit i r log hfresh hlog =>
    obtain ⟨-, -, c, hc, hcoros⟩ := leave_coros hlog
    intro hnone
    apply hnone i
    rw [hcoros, Function.update_self, hc]
  | log | io | baton => exact absurd rfl hl

/-- In a run, the write of every suspended leader is on its way in every state exactly if no
leader enters `commit`. -/
theorem onItsWay_iff {tr : List (Commit × Label)} (hs : (machine host capacity reqs).start u)
    (htr : (machine host capacity reqs).Trace u tr v) :
    (∀ w ∈ Machine.visited tr v, w.OnItsWay) ↔ ∀ p ∈ tr, p.2.notCommit = true := by
  refine htr.forall_visited_iff
    (I := fun w => Inv reqs w ∧ ∀ i, (w.log.coros i).pc ≠ .commit false)
    (fun w hw => hw.1.onItsWay_iff_nobody.mpr hw.2)
    (fun w l x hw hl hst => ⟨inv_step hw.1 hst, hw.1.nobody hl hst hw.2⟩)
    (fun w l x hw hl hst => hw.1.spoil hl hst) ⟨inv_start hs, ?_⟩
  intro i
  obtain ⟨raw_space, fd, mem, file, -, hlog⟩ := hs.1
  simp [hlog, initial]

/-- A log writer and a loop that have done nothing. -/
def idle : Commit :=
  { log := fresh
    io := { ring_ := { ring_entries := 4, khead := 0, ktail := 0, sqe_tail := 0 } } }

theorem idle_start : (machine host capacity reqs).start idle :=
  ⟨fresh_start, ⟨4, 0, rfl⟩, rfl⟩

/-- The request of a first group of 100 bytes. -/
def firstReq : IoRequest :=
  { op_code_ := .WRITE, fd_ := 3, addr_ := 8192, size_ := 8192, offset_ := 0 }

/-- A single writer fills its region, leads its group and enters `commit`; then `runLoop` finds
its queue empty. -/
def hangRun : List Label :=
  [.log (.call 0 100), .log (.lock 0), .log (.copy 0 fun _ => 1), .log (.leaderComplete 0 1 94),
    .commit 0 7, .io .runLoop, .io .runLoop]

theorem onItsWay_iff_hang : ∃ tr v, (machine .little 8 fun _ => firstReq).Trace idle tr v ∧
    tr.map Prod.snd = hangRun ∧
    ((∀ w ∈ Machine.visited tr v, w.OnItsWay) ↔ ∀ p ∈ tr, p.2.notCommit = true) := by
  obtain ⟨tr, v, htr, hls⟩ := Machine.Trace.of_isSome
    (show ((machine .little 8 fun _ => firstReq).run idle hangRun).isSome = true by decide +kernel)
  exact ⟨tr, v, htr, hls, onItsWay_iff idle_start htr⟩

/-- The leader waits for its baton, and its request was never enqueued. -/
theorem not_onItsWay_hang : ∃ v, (machine .little 8 fun _ => firstReq).run idle hangRun = some v ∧
    (v.log.coros 0).pc = .commit false ∧ v.built = [(0, 7)] ∧ v.io.submitted = [] ∧
    (machine .little 8 fun _ => firstReq).Reachable v ∧ ¬ v.OnItsWay := by
  have hrun : ((machine .little 8 fun _ => firstReq).run idle hangRun).any (fun v =>
      (v.log.coros 0).pc = .commit false ∧ v.built = [(0, 7)] ∧ v.io.submitted = [] ∧
        v.io.queue_.map some ++ v.io.inRing ++ v.io.inCq ++ v.io.completed = []) = true := by
    decide +kernel
  obtain ⟨v, hv, hpc, hbuilt, hsubmitted, hplaces⟩ := Machine.exists_of_run hrun
  refine ⟨v, hv, hpc, hbuilt, hsubmitted, .of_run idle_start hv, ?_⟩
  intro hway
  obtain ⟨r, -, hplace⟩ := hway 0 hpc
  rw [hplaces] at hplace
  cases hplace

/-- With the `Task` awaited, the request of the leader that enters `commit` is on its way. -/
theorem onItsWay_of_co_await {i r : ℕ} {log : State} {io : CoIoUring}
    (hnone : ∀ j, (u.log.coros j).pc ≠ .commit false)
    (hlog : (LogWriter.machine host).step u.log (.leave i) = some log)
    (hio : (CoIoUring.submitTask capacity r).co_await u.io = some io) :
    ({ log := log, io := io, built := u.built ++ [(i, r)] } : Commit).OnItsWay := by
  intro j hj
  obtain ⟨-, -, c, -, hcoros⟩ := leave_coros hlog
  obtain rfl : j = i := by
    by_contra hji
    apply hnone j
    rwa [hcoros, Function.update_of_ne hji] at hj
  refine ⟨r, by simp, ?_⟩
  obtain ⟨-, heq⟩ := Option.ite_none_left_eq_some.mp hio
  obtain rfl := Option.some.inj heq
  simp

/-! ## The hang -/

/-- No step releases a leader from `commit` or ends a group. -/
theorem Inv.stays (h : Inv reqs u) {i : ℕ} (hi : (u.log.coros i).pc = .commit false)
    (hst : (machine host capacity reqs).step u l = some v) :
    (v.log.coros i).pc = .commit false ∧ v.log.finished = u.log.finished := by
  cases steps hst with
  | log hown hlog =>
    obtain ⟨hkeep, hfinished⟩ := h.log.own_keeps hown hlog h.waiting
    exact ⟨(hkeep i (.inl (by rw [hi]; rfl))).trans hi, hfinished⟩
  | commit _ hlog =>
    obtain ⟨hspin, hfinished, c, -, hcoros⟩ := leave_coros hlog
    refine ⟨?_, hfinished⟩
    rw [hcoros, Function.update_of_ne, hi]
    rintro rfl
    rw [hspin] at hi
    cases hi
  | io => exact ⟨hi, rfl⟩
  | baton hbuilt hpost => exact absurd hpost (h.not_posted hbuilt)

/-- Once a leader is suspended in `commit`, it stays there and no further group ends, whatever
the writers, the loop and the kernel do. -/
theorem log_hangs {i : ℕ} {tr : List (Commit × Label)}
    (h : (machine host capacity reqs).Reachable u) (hi : (u.log.coros i).pc = .commit false)
    (htr : (machine host capacity reqs).Trace u tr v) :
    (v.log.coros i).pc = .commit false ∧ v.log.finished = u.log.finished := by
  have hinv := inv_of_reachable h
  suffices hall : Inv reqs v ∧ (v.log.coros i).pc = .commit false ∧
      v.log.finished = u.log.finished from hall.2
  induction htr with
  | nil => exact ⟨hinv, hi, rfl⟩
  | snoc _ hst ih =>
    obtain ⟨hbefore, hpc, hfinished⟩ := ih
    obtain ⟨hstays, hsame⟩ := hbefore.stays hpc hst
    exact ⟨inv_step hbefore hst, hstays, hsame.trans hfinished⟩

end Commit

end QStorage.Db.LogWriter
