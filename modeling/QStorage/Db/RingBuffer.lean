import QStorage.Lib.Counter
import QStorage.Lib.Span
import QStorage.Lib.Threads

/-!
# The ring buffer of many producers (`db/ring_buffer.h`)

`RequestWriteSpace` and `CommitWrite` run in any number of threads; one action of a thread is one
atomic step of its call. The used space is computed the wrong way round, `cur_tail - cur_head`,
so that outstanding bytes count as additional free space.

## Main results

* `RingBuffer.Inv` — whatever is granted, the grants tile the stream up to `head_`.
* `RingBuffer.capacity_kept` — the capacity is kept in runs whose tests of the free space are
  right and whose exchanges are not fooled by a head that has come round; after such a run, any
  wrong test can lead beyond it.
-/

namespace QStorage.Db

open QStorage.Lib

structure Slice where
  start_ : ℕ
  end_ : ℕ
  deriving DecidableEq, Repr

/-- The fields of the class; `buffer_` is the address of the array. -/
structure RingBuffer where
  head_ : BitVec 64 := 0
  tail_ : BitVec 64 := 0
  buffer_ : ℕ

namespace RingBuffer

def kBufferSize : ℕ := 8 * 1024 * 1024

def kBufferSizeMask : ℕ := kBufferSize - 1

theorem kBufferSize_eq : kBufferSize = 2 ^ 23 := rfl

theorem kBufferSizeMask_eq : kBufferSizeMask = 2 ^ 23 - 1 := rfl

/-- A slice that was handed out, with its positions in the stream of granted bytes. -/
structure SliceGrant where
  span : Span
  slice : Slice
  deriving DecidableEq, Repr

/-- The ring with its history: the slices handed out, and how many bytes were released. -/
structure Memory extends RingBuffer where
  grants : List SliceGrant := []
  released : ℕ := 0

/-- Bytes granted so far. -/
def Memory.granted (x : Memory) : ℕ := (x.grants.map (·.span.len)).sum

/-- Where a call stands. `returned none` is the slice of two null pointers, and `committed` the
end of `CommitWrite`. -/
inductive Pc where
  | idle
  /-- Before the load of `tail_`. -/
  | loadTail (cur_head : BitVec 64)
  /-- Before a `compare_exchange_weak` that expects `cur_head`. -/
  | exchange (cur_head : BitVec 64)
  | returned (result : Option Slice)
  | committed
  deriving DecidableEq, Repr

/-- A call with its locals; `tested` is history: the bytes that were granted when it loaded `tail_`
for the test. -/
structure Call where
  pc : Pc := .idle
  size : BitVec 64
  tested : ℕ := 0

inductive Act where
  | loadHead
  | loadTail
  /-- A weak exchange may fail although the values are equal. -/
  | exchange (spurious : Bool)
  /-- `CommitWrite`, which releases no more than is outstanding. -/
  | commit
  deriving DecidableEq, Repr

/-- The free space that `RequestWriteSpace` computes. -/
def freeSpace (cur_head cur_tail : BitVec 64) : BitVec 64 :=
  let used_space := cur_tail - cur_head
  BitVec.ofNat 64 kBufferSizeMask - used_space

/-- The test that decides whether a request goes on to its exchange. -/
def test (cur_head cur_tail size : BitVec 64) : Pc :=
  if freeSpace cur_head cur_tail < size then .returned none else .exchange cur_head

/-- The slice of a request that has moved `head_` away from `cur_head`. -/
def slice (buffer_ : ℕ) (cur_head size : BitVec 64) : Slice where
  start_ := buffer_ + (cur_head &&& BitVec.ofNat 64 kBufferSizeMask).toNat
  end_ := buffer_ + ((cur_head + size) &&& BitVec.ofNat 64 kBufferSizeMask).toNat

/-- The memory after a successful exchange. -/
def Memory.grant (x : Memory) (cur_head size : BitVec 64) : Memory :=
  { x with
    head_ := cur_head + size
    grants := x.grants ++ [⟨⟨x.granted, size.toNat⟩, slice x.buffer_ cur_head size⟩] }

def Memory.CommitWrite (x : Memory) (size : BitVec 64) : Memory :=
  { x with tail_ := x.tail_ + size, released := x.released + size.toNat }

/-- One atomic step of `RequestWriteSpace` or `CommitWrite`. -/
def act (x : Memory) (c : Call) : Act → Option (Memory × Call)
  | .loadHead => if c.pc = .idle then some (x, { c with pc := .loadTail x.head_ }) else none
  | .loadTail =>
    match c.pc with
    | .loadTail cur_head =>
      some (x, { c with pc := test cur_head x.tail_ c.size, tested := x.granted })
    | _ => none
  | .exchange spurious =>
    match c.pc with
    | .exchange cur_head =>
      if x.head_ = cur_head ∧ spurious = false then
        some (x.grant cur_head c.size,
          { c with pc := .returned (some (slice x.buffer_ cur_head c.size)) })
      else some (x, { c with pc := .loadTail x.head_ })
    | _ => none
  | .commit =>
    if c.pc = .idle ∧ x.released + c.size.toNat ≤ x.granted then
      some (x.CommitWrite c.size, { c with pc := .committed })
    else none

/-- Any number of calls, of any sizes, on a fresh ring. -/
def machine : Machine (Threads ℕ Memory Call) (ℕ × Act) :=
  Threads.machine act fun s =>
    (∃ buffer_, s.shared = { buffer_ := buffer_ }) ∧ ∀ i, (s.locals i).pc = .idle

/-! ## The steps -/

section Act

variable {x x' : Memory} {c c' : Call}

theorem loadHead_iff : act x c .loadHead = some (x', c') ↔
    c.pc = .idle ∧ x' = x ∧ c' = { c with pc := .loadTail x.head_ } := by
  simp [act, eq_comm]

theorem loadTail_iff : act x c .loadTail = some (x', c') ↔ ∃ cur_head, c.pc = .loadTail cur_head ∧
    x' = x ∧ c' = { c with pc := test cur_head x.tail_ c.size, tested := x.granted } := by
  cases hpc : c.pc <;> simp [act, hpc, eq_comm]

theorem exchange_iff {spurious : Bool} : act x c (.exchange spurious) = some (x', c') ↔
    ∃ cur_head, c.pc = .exchange cur_head ∧
      ((x.head_ = cur_head ∧ spurious = false ∧ x' = x.grant cur_head c.size ∧
          c' = { c with pc := .returned (some (slice x.buffer_ cur_head c.size)) }) ∨
        (¬ (x.head_ = cur_head ∧ spurious = false) ∧ x' = x ∧
          c' = { c with pc := .loadTail x.head_ })) := by
  cases hpc : c.pc <;> simp [act, hpc]
  split <;> simp_all [eq_comm]

theorem commit_iff : act x c .commit = some (x', c') ↔
    (c.pc = .idle ∧ x.released + c.size.toNat ≤ x.granted) ∧ x' = x.CommitWrite c.size ∧
      c' = { c with pc := .committed } := by
  simp [act, eq_comm]

end Act

/-! ## The stream of granted bytes -/

/-- What holds of the memory in any run, however full the ring is. -/
structure Inv (x : Memory) : Prop where
  head : x.head_ = BitVec.ofNat 64 x.granted
  tail : x.tail_ = BitVec.ofNat 64 x.released
  released_le : x.released ≤ x.granted
  tiles : Tiles 0 (x.grants.map SliceGrant.span) x.granted
  slice : ∀ g ∈ x.grants, g.slice.start_ = x.buffer_ + g.span.start % kBufferSize ∧
    g.slice.end_ = x.buffer_ + g.span.stop % kBufferSize

variable {x : Memory}

theorem Inv.start {buffer_ : ℕ} : Inv { buffer_ := buffer_ } := by
  constructor <;> simp [Memory.granted]

theorem Memory.granted_grant (cur_head size : BitVec 64) :
    (x.grant cur_head size).granted = x.granted + size.toNat := by
  simp [Memory.granted, Memory.grant]

/-- A grant takes the next stretch of the stream. -/
theorem Inv.grant (h : Inv x) (size : BitVec 64) : Inv (x.grant x.head_ size) where
  head := by
    rw [Memory.granted_grant, Memory.grant, h.head, Counter.ofNat_add_word]
  tail := h.tail
  released_le := by
    rw [Memory.granted_grant]
    exact Nat.le_add_right_of_le h.released_le
  tiles := by
    rw [Memory.granted_grant, Memory.grant, List.map_append]
    exact h.tiles.snoc size.toNat
  slice g hg := by
    rcases List.mem_append.mp hg with hold | hnew
    · exact h.slice g hold
    · obtain rfl := List.mem_singleton.mp hnew
      simp only [RingBuffer.slice, h.head, Counter.ofNat_add_word, kBufferSizeMask_eq,
        Counter.toNat_and_mask (show 23 ≤ 64 by decide), kBufferSize_eq, Span.stop_mk]
      exact ⟨rfl, rfl⟩

theorem Inv.commit (h : Inv x) {size : BitVec 64} (hle : x.released + size.toNat ≤ x.granted) :
    Inv (x.CommitWrite size) :=
  ⟨h.head, by rw [Memory.CommitWrite, h.tail, Counter.ofNat_add_word], hle, h.tiles, h.slice⟩

variable {s t u : Threads ℕ Memory Call} {i : ℕ} {ls ks : List (ℕ × Act)} {l : ℕ × Act}

/-- What a step does to the memory: nothing, a grant to the winner of the exchange, or the release
of bytes. -/
theorem step_cases (hst : machine.step s l = some t) :
    t.shared = s.shared ∨
    (l.2 = .exchange false ∧ (s.locals l.1).pc = .exchange s.shared.head_ ∧
      t.shared = s.shared.grant s.shared.head_ (s.locals l.1).size) ∨
    (l.2 = .commit ∧ s.shared.released + (s.locals l.1).size.toNat ≤ s.shared.granted ∧
      t.shared = s.shared.CommitWrite (s.locals l.1).size) := by
  obtain ⟨i, a⟩ := l
  have hact := Threads.step_self hst
  cases a with
  | loadHead => exact .inl (loadHead_iff.mp hact).2.1
  | loadTail =>
    obtain ⟨_, -, hmem, -⟩ := loadTail_iff.mp hact
    exact .inl hmem
  | exchange spurious =>
    obtain ⟨_, hpc, ⟨rfl, rfl, hmem, -⟩ | ⟨-, hmem, -⟩⟩ := exchange_iff.mp hact
    · exact .inr (.inl ⟨rfl, hpc, hmem⟩)
    · exact .inl hmem
  | commit =>
    obtain ⟨⟨-, hle⟩, hmem, -⟩ := commit_iff.mp hact
    exact .inr (.inr ⟨rfl, hle, hmem⟩)

theorem Inv.step (h : Inv s.shared) (hst : machine.step s l = some t) : Inv t.shared := by
  rcases step_cases hst with hsame | ⟨-, -, hgrant⟩ | ⟨-, hle, hcommit⟩
  · rw [hsame]
    exact h
  · rw [hgrant]
    exact h.grant _
  · rw [hcommit]
    exact h.commit hle

theorem Inv.of_run (hs : machine.start s) (h : machine.run s ls = some t) : Inv t.shared := by
  refine Machine.run_induction (I := fun u => Inv u.shared) (fun _ _ _ hu _ hst => hu.step hst) ?_
    (fun _ _ => trivial) h
  obtain ⟨⟨buffer_, hshared⟩, -⟩ := hs
  rw [hshared]
  exact .start

/-! ## Capacity -/

/-- Byte `k` of the slice is granted and not yet released. -/
def Memory.Live (x : Memory) (g : SliceGrant) (k : ℕ) : Prop :=
  k < g.span.len ∧ x.released ≤ g.span.start + k

/-- The index in `buffer_` of byte `k` of the slice. -/
def Memory.index (x : Memory) (g : SliceGrant) (k : ℕ) : ℕ :=
  (g.slice.start_ - x.buffer_ + k) % kBufferSize

/-- The bytes granted and not yet released are what the counters say and fit into the array, and
no byte of it belongs to two slices. -/
structure Bounded (x : Memory) : Prop where
  counters : (x.head_ - x.tail_).toNat = x.granted - x.released
  le : x.granted - x.released ≤ kBufferSize - 1
  disjoint : x.grants.Pairwise fun g g' =>
    ∀ k k', x.Live g k → x.Live g' k' → x.index g k ≠ x.index g' k'

/-- The call is over or has not begun. -/
def Pc.quiescent : Pc → Bool
  | .idle | .returned _ | .committed => true
  | _ => false

/-- A request that runs alone is refused exactly if it is larger than the free space. -/
def SoloOk (s : Threads ℕ Memory Call) (ls : List (ℕ × Act)) : Prop :=
  ∀ before during i u t, ls = before ++ during → machine.run s before = some u →
    (∀ j, (u.locals j).pc.quiescent = true) → (u.locals i).pc = .idle →
    (∀ l ∈ during, l.1 = i) → machine.run u during = some t →
    ∀ result, (t.locals i).pc = .returned result →
      (result = none ↔
        kBufferSize - 1 - (u.shared.head_ - u.shared.tail_).toNat < (u.locals i).size.toNat)

/-- After every step of the run the ring is within its capacity, and calls that ran alone were
refused for it. -/
def Correct (s : Threads ℕ Memory Call) (ls : List (ℕ × Act)) : Prop :=
  ∀ ks t, ks <+: ls → machine.run s ks = some t → Bounded t.shared ∧ SoloOk s ks

/-- A test of the free space with the current `head_` refuses the request, or finds it no larger
than what is free. -/
def TestOk (s : Threads ℕ Memory Call) (l : ℕ × Act) : Prop :=
  l.2 = .loadTail → (s.locals l.1).pc = .loadTail s.shared.head_ →
    test s.shared.head_ s.shared.tail_ (s.locals l.1).size = .returned none ∨
      (s.locals l.1).size.toNat ≤
        kBufferSize - 1 - (s.shared.head_ - s.shared.tail_).toNat

/-- An exchange that succeeds finds `head_` where it was at the test, not come round to it. -/
def HeadStayed (s : Threads ℕ Memory Call) (l : ℕ × Act) : Prop :=
  l.2 = .exchange false → (s.locals l.1).pc = .exchange s.shared.head_ →
    (s.locals l.1).tested = s.shared.granted

def StepOk (s : Threads ℕ Memory Call) (l : ℕ × Act) : Prop := TestOk s l ∧ HeadStayed s l

instance (s : Threads ℕ Memory Call) (l : ℕ × Act) : Decidable (StepOk s l) := by
  unfold StepOk TestOk HeadStayed
  infer_instance

/-- A ring within its capacity has its outstanding bytes in different cells. -/
theorem Inv.bounded (h : Inv x) (hle : x.granted ≤ x.released + (kBufferSize - 1)) : Bounded x where
  counters := by
    rw [h.head, h.tail]
    exact Counter.toNat_sub h.released_le (by rw [kBufferSize_eq] at hle; omega)
  le := by omega
  disjoint := by
    let window : Window kBufferSize := ⟨x.released, x.granted, h.released_le, by omega⟩
    have hmem {g : SliceGrant} (hg : g ∈ x.grants) {k : ℕ} (hk : x.Live g k) :
        g.span.start + k ∈ Set.Ico window.tail window.head := by
      have hstop := (h.tiles.mem_bounds (List.mem_map_of_mem hg)).2
      have hlt := hk.1
      simp only [Span.stop] at hstop
      exact ⟨hk.2, by simp only [window]; omega⟩
    have hindex {g : SliceGrant} (hg : g ∈ x.grants) (k : ℕ) :
        x.index g k = (g.span.start + k) % kBufferSize := by
      rw [Memory.index, (h.slice g hg).1, Nat.add_sub_cancel_left, Nat.mod_add_mod]
    refine (List.pairwise_map.mp h.tiles.pairwise).imp_of_mem ?_
    intro g g' hg hg' hlt k k' hk hk' heq
    rw [hindex hg, hindex hg'] at heq
    have hsame := window.cell_injOn (hmem hg hk) (hmem hg' hk') heq
    have hlen := hk.1
    simp only [Span.stop] at hlt
    omega

/-- The free space that a call computes when no other call interferes: the outstanding bytes are
added to it. -/
theorem Inv.freeSpace_eq (h : Inv x) (hle : x.granted ≤ x.released + (kBufferSize - 1)) :
    (freeSpace x.head_ x.tail_).toNat = kBufferSize - 1 + (x.granted - x.released) := by
  have hused := (h.bounded hle).counters
  have hle := (h.bounded hle).le
  simp only [freeSpace, kBufferSizeMask_eq, kBufferSize_eq] at hle ⊢
  rw [BitVec.toNat_sub] at hused
  rw [BitVec.toNat_sub, BitVec.toNat_sub, BitVec.toNat_ofNat]
  omega

/-- Where a request that runs alone from the memory `x` on can get: it is refused if even the
free space as computed is too small, and otherwise granted. -/
def Alone (x : Memory) (size : BitVec 64) (y : Memory) (c : Call) : Prop :=
  c.size = size ∧
    ((y = x ∧ (c.pc = .idle ∨ c.pc = .loadTail x.head_ ∨ c.pc = .exchange x.head_ ∨
        (c.pc = .returned none ∧ freeSpace x.head_ x.tail_ < size))) ∨
      (y.granted = x.granted + size.toNat ∧ y.released = x.released ∧
        ∃ slice, c.pc = .returned (some slice)) ∨
      c.pc = .committed)

theorem Alone.step {y y' : Memory} {c c' : Call} {size : BitVec 64} {a : Act}
    (h : Alone x size y c) (hact : act y c a = some (y', c')) : Alone x size y' c' := by
  obtain ⟨rfl, hcase⟩ := h
  cases a with
  | loadHead =>
    obtain ⟨hpc, rfl, rfl⟩ := loadHead_iff.mp hact
    rcases hcase with ⟨rfl, -⟩ | ⟨-, -, slice, hend⟩ | hend
    · exact ⟨rfl, .inl ⟨rfl, .inr (.inl rfl)⟩⟩
    · rw [hpc] at hend
      cases hend
    · rw [hpc] at hend
      cases hend
  | loadTail =>
    obtain ⟨cur_head, hpc, rfl, rfl⟩ := loadTail_iff.mp hact
    refine ⟨rfl, .inl ?_⟩
    simp only [hpc, reduceCtorEq, false_or, or_false, false_and, exists_false, and_false,
      Pc.loadTail.injEq] at hcase
    obtain ⟨rfl, rfl⟩ := hcase
    refine ⟨rfl, ?_⟩
    rw [test]
    split
    · next hrefused => exact .inr (.inr (.inr ⟨rfl, hrefused⟩))
    · exact .inr (.inr (.inl rfl))
  | exchange spurious =>
    obtain ⟨cur_head, hpc, hend⟩ := exchange_iff.mp hact
    simp only [hpc, reduceCtorEq, false_or, or_false, false_and, exists_false, and_false,
      Pc.exchange.injEq] at hcase
    obtain ⟨rfl, rfl⟩ := hcase
    rcases hend with ⟨-, -, rfl, rfl⟩ | ⟨-, rfl, rfl⟩
    · exact ⟨rfl, .inr (.inl ⟨Memory.granted_grant _ _, rfl, _, rfl⟩)⟩
    · exact ⟨rfl, .inl ⟨rfl, .inr (.inl rfl)⟩⟩
  | commit =>
    obtain ⟨-, -, rfl⟩ := commit_iff.mp hact
    exact ⟨rfl, .inr (.inr rfl)⟩

/-- A request that runs alone between two states within the capacity is refused exactly if it is
larger than the free space. -/
theorem Inv.refused_iff (h : Inv x) (hle : x.granted ≤ x.released + (kBufferSize - 1))
    {y : Memory} {c : Call} {size : BitVec 64} (halone : Alone x size y c)
    (hley : y.granted ≤ y.released + (kBufferSize - 1)) {result : Option Slice}
    (hend : c.pc = .returned result) :
    result = none ↔ kBufferSize - 1 - (x.head_ - x.tail_).toNat < size.toNat := by
  have hfree := h.freeSpace_eq hle
  have hreleased_le := h.released_le
  rw [(h.bounded hle).counters]
  obtain ⟨-, hcase⟩ := halone
  simp only [hend, reduceCtorEq, false_or, or_false, Pc.returned.injEq] at hcase
  rcases hcase with ⟨-, rfl, hrefused⟩ | ⟨hgranted, hreleased, slice, rfl⟩
  · rw [BitVec.lt_def, hfree] at hrefused
    simp only [true_iff]
    omega
  · simp only [reduceCtorEq, false_iff]
    omega

/-- The invariant of runs whose steps are in order: the ring is within its capacity, and a request
that was tested with the head it expects fits behind what was granted by then. -/
structure Kept (s : Threads ℕ Memory Call) : Prop extends Inv s.shared where
  le : s.shared.granted ≤ s.shared.released + (kBufferSize - 1)
  fits : ∀ i, (s.locals i).pc = .exchange (BitVec.ofNat 64 (s.locals i).tested) →
    (s.locals i).tested + (s.locals i).size.toNat ≤ s.shared.released + (kBufferSize - 1)

theorem Kept.start (hs : machine.start s) : Kept s := by
  obtain ⟨⟨buffer_, hshared⟩, hidle⟩ := hs
  refine ⟨?_, ?_, fun i hpc => ?_⟩
  · rw [hshared]
    exact .start
  · simp [hshared, Memory.granted]
  · rw [hidle i] at hpc
    cases hpc

/-- A request that wins its exchange fits. -/
theorem Kept.le_step (h : Kept s) (hok : StepOk s l) (hst : machine.step s l = some t) :
    t.shared.granted ≤ t.shared.released + (kBufferSize - 1) := by
  have hle := h.le
  rcases step_cases hst with hsame | ⟨hact, hpc, hgrant⟩ | ⟨-, -, hcommit⟩
  · rwa [hsame]
  · have htested := hok.2 hact hpc
    have hroom := h.fits l.1 (by rw [hpc, htested, h.head])
    rw [hgrant, Memory.granted_grant]
    rw [htested] at hroom
    exact hroom
  · rw [hcommit]
    exact hle.trans (Nat.add_le_add_right (Nat.le_add_right _ _) _)

/-- A request that passes a test which is in order fits at that time. -/
theorem Kept.fits_of_test (h : Kept s) (hok : TestOk s (i, .loadTail))
    (hpc : (s.locals i).pc = .loadTail s.shared.head_)
    (hpass : test s.shared.head_ s.shared.tail_ (s.locals i).size ≠ .returned none) :
    s.shared.granted + (s.locals i).size.toNat ≤ s.shared.released + (kBufferSize - 1) := by
  have hroom : (s.locals i).size.toNat ≤ _ := (hok rfl hpc).resolve_left hpass
  rw [(h.bounded h.le).counters] at hroom
  have hle := h.le
  have hreleased := h.released_le
  omega

theorem Kept.step (h : Kept s) (hok : StepOk s l) (hst : machine.step s l = some t) : Kept t := by
  refine ⟨h.toInv.step hst, h.le_step hok hst, fun j hpc => ?_⟩
  have hreleased : s.shared.released ≤ t.shared.released := by
    rcases step_cases hst with hsame | ⟨-, -, hgrant⟩ | ⟨-, -, hcommit⟩
    · rw [hsame]
    · rw [hgrant]
      exact Nat.le_refl _
    · rw [hcommit]
      exact Nat.le_add_right _ _
  obtain ⟨i, a⟩ := l
  by_cases hj : j = i
  · subst hj
    have hact := Threads.step_self hst
    cases a with
    | loadHead =>
      obtain ⟨-, -, hcall⟩ := loadHead_iff.mp hact
      rw [hcall] at hpc
      cases hpc
    | loadTail =>
      obtain ⟨cur_head, hload, hmem, hcall⟩ := loadTail_iff.mp hact
      rw [hcall] at hpc ⊢
      rw [hmem]
      simp only [test, ← h.head] at hpc
      split at hpc
      · cases hpc
      · next hpass =>
        -- the expected head is what was granted at the test, so the test was a current one
        obtain rfl : cur_head = s.shared.head_ := by simpa using hpc
        exact h.fits_of_test hok.1 hload (by simp [test, hpass])
    | exchange spurious =>
      obtain ⟨cur_head, -, ⟨-, -, -, hcall⟩ | ⟨-, -, hcall⟩⟩ := exchange_iff.mp hact <;>
      · rw [hcall] at hpc
        cases hpc
    | commit =>
      obtain ⟨-, -, hcall⟩ := commit_iff.mp hact
      rw [hcall] at hpc
      cases hpc
  · rw [Threads.step_other hst hj] at hpc ⊢
    exact (h.fits j hpc).trans (Nat.add_le_add_right hreleased _)

/-- The steps of the run are in order. -/
def AllOk (s : Threads ℕ Memory Call) (ls : List (ℕ × Act)) : Prop :=
  ∀ ks l u, ks ++ [l] <+: ls → machine.run s ks = some u → StepOk u l

theorem AllOk.kept (hs : machine.start s) (hok : AllOk s ls) (hsub : ks <+: ls)
    (h : machine.run s ks = some t) : Kept t := by
  induction ks using List.reverseRecOn generalizing t with
  | nil =>
    cases h
    exact .start hs
  | append_singleton ks l ih =>
    obtain ⟨u, hu, hst⟩ := Machine.run_concat_eq_some.mp h
    have hkept := ih ((List.prefix_append ks [l]).trans hsub) hu
    exact hkept.step (hok ks l u hsub hu) hst

theorem AllOk.correct (hs : machine.start s) (hok : AllOk s ls) : Correct s ls := by
  intro ks u hsub hu
  have hkept := hok.kept hs hsub hu
  refine ⟨hkept.bounded hkept.le, ?_⟩
  rintro before during i v w rfl hv - hidle halone hw result hend
  have hbefore := hok.kept hs ((List.prefix_append before during).trans hsub) hv
  obtain rfl : w = u := by
    have hboth := Machine.run_append_eq_some.mpr ⟨v, hv, hw⟩
    exact Option.some.inj (hboth.symm.trans hu)
  have hsolo : Alone v.shared (v.locals i).size w.shared (w.locals i) :=
    Threads.solo (P := fun _ => True) (fun _ _ _ _ _ hJ _ hact => hJ.step hact)
      ⟨rfl, .inl ⟨rfl, .inl hidle⟩⟩ (fun l hl => ⟨halone l hl, trivial⟩) hw
  exact hbefore.refused_iff hbefore.le hsolo hkept.le hend

/-- A test that is not in order passes, and the exchange after it takes the ring beyond its
capacity. -/
theorem Kept.spoilt (h : Kept s) (hpc : (s.locals i).pc = .loadTail s.shared.head_)
    (hwrong : ¬ TestOk s (i, .loadTail)) :
    ∃ t, machine.run s [(i, .loadTail), (i, .exchange false)] = some t ∧ ¬ Bounded t.shared := by
  simp only [TestOk, hpc, forall_const, not_or, Nat.not_le] at hwrong
  obtain ⟨hpass, hlarge⟩ := hwrong
  have htest : test s.shared.head_ s.shared.tail_ (s.locals i).size =
      .exchange s.shared.head_ := by
    simp only [test] at hpass ⊢
    exact if_neg fun hrefused => hpass (if_pos hrefused)
  have hrun : machine.run s [(i, .loadTail), (i, .exchange false)] = some
      { shared := s.shared.grant s.shared.head_ (s.locals i).size
        locals := Function.update s.locals i { s.locals i with
          pc := .returned (some (slice s.shared.buffer_ s.shared.head_ (s.locals i).size))
          tested := s.shared.granted } } := by
    simp [Machine.run, machine, Threads.machine, act, hpc, htest]
  refine ⟨_, hrun, fun hbounded => ?_⟩
  have hle := hbounded.le
  rw [Memory.granted_grant, Memory.grant] at hle
  rw [(h.bounded h.le).counters] at hlarge
  have hreleased := h.released_le
  simp only at hle
  omega

/-- In a run whose steps are in order, the capacity is kept and lone requests are refused when
they should be. After such a run, a test that is not in order can end beyond the capacity. -/
theorem capacity_kept (hs : machine.start s) (h : machine.run s ls = some t) (hok : AllOk s ls) :
    Correct s ls ∧ ∀ i, (t.locals i).pc = .loadTail t.shared.head_ → ¬ TestOk t (i, .loadTail) →
      ∃ u, machine.run s (ls ++ [(i, .loadTail), (i, .exchange false)]) = some u ∧
        ¬ Bounded u.shared := by
  refine ⟨hok.correct hs, fun i hpc hwrong => ?_⟩
  obtain ⟨u, hu, hbeyond⟩ := (hok.kept hs (List.prefix_refl ls) h).spoilt hpc hwrong
  exact ⟨u, Machine.run_append_eq_some.mpr ⟨t, h, hu⟩, hbeyond⟩

/-- A ring, and calls of the given sizes that have not begun. -/
def fresh (sizes : ℕ → BitVec 64) : Threads ℕ Memory Call where
  shared := { buffer_ := 4096 }
  locals i := { size := sizes i }

theorem fresh_start {sizes : ℕ → BitVec 64} : machine.start (fresh sizes) :=
  ⟨⟨4096, rfl⟩, fun _ => rfl⟩

/-- Two requests race for the head, bytes of the first one are released, and the loser, whose test
was out of date, goes on. -/
def raceRun : List (ℕ × Act) :=
  [(0, .loadHead), (1, .loadHead), (0, .loadTail), (0, .exchange false), (1, .loadTail),
    (1, .exchange false), (2, .commit), (1, .loadTail), (1, .exchange false)]

theorem capacity_kept_race : Correct (fresh fun i => 100 - BitVec.ofNat 64 i) raceRun := by
  obtain ⟨t, ht⟩ := Option.isSome_iff_exists.mp (show ((machine.restrict StepOk).run
    (fresh fun i => 100 - BitVec.ofNat 64 i) raceRun).isSome = true by decide +kernel)
  obtain ⟨hrun, hok⟩ := Machine.run_of_restrict ht
  exact (capacity_kept fresh_start hrun hok).1

/-- Two requests one after the other, each for the whole ring. -/
def twiceRun : List (ℕ × Act) :=
  [(0, .loadHead), (0, .loadTail), (0, .exchange false), (1, .loadHead), (1, .loadTail),
    (1, .exchange false)]

theorem not_correct_twice : ¬ ∀ (s t : Threads ℕ Memory Call) (ls : List (ℕ × Act)),
    machine.start s → machine.run s ls = some t → Correct s ls := by
  intro h
  have hrun : (machine.run (fresh fun _ => 8388607) twiceRun).any (fun t =>
      t.shared.granted = 16777214 ∧ t.shared.released = 0) = true := by decide +kernel
  obtain ⟨t, ht, hgranted, hreleased⟩ := Machine.exists_of_run hrun
  have hle := (h _ t twiceRun fresh_start ht twiceRun t (List.prefix_refl _) ht).1.le
  rw [hgranted, hreleased] at hle
  revert hle
  decide

end RingBuffer

end QStorage.Db
