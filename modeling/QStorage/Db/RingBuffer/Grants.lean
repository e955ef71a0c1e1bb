import QStorage.Db.RingBuffer
import Mathlib.Order.CompletePartialOrder

/-!
# The grants of the ring buffer

Whoever wins the exchange takes the stretch from the head that it expected. However the calls
interleave and whatever `CommitWrite` releases, the stretches lie end to end.

## Main results

* `RingBuffer.step_interval` — what a step grants.
* `RingBuffer.grants_tile` — the intervals of the successful calls tile the stream.
-/

namespace QStorage.Db

open QStorage.Lib

namespace RingBuffer

/-- One atomic step. `CommitWrite` looks at nothing, so it may release more than is outstanding. -/
def anyAct (x : Memory) (c : Call) : Act → Option (Memory × Call)
  | .commit =>
    if c.pc = .idle then some (x.CommitWrite c.size, { c with pc := .committed }) else none
  | a => act x c a

/-- Any number of calls, of any sizes, on a fresh ring. -/
def anyMachine : Machine (Threads ℕ Memory Call) (ℕ × Act) :=
  Threads.machine anyAct machine.start

/-- The call that succeeds in a step, with its interval `[cur_head, cur_head + size)`. -/
def interval (s : Threads ℕ Memory Call) (l : ℕ × Act) : Option (ℕ × Span) :=
  match l.2, (s.locals l.1).pc with
  | .exchange false, .exchange cur_head =>
    if s.shared.head_ = cur_head then some (l.1, ⟨cur_head.toNat, (s.locals l.1).size.toNat⟩)
    else none
  | _, _ => none

/-- The successful calls of a run. -/
def intervals (tr : List (Threads ℕ Memory Call × (ℕ × Act))) : List (ℕ × Span) :=
  tr.filterMap fun p => interval p.1 p.2

/-- The bytes granted in a run. -/
def grantedBytes (tr : List (Threads ℕ Memory Call × (ℕ × Act))) : ℕ :=
  ((intervals tr).map fun g => g.2.len).sum

/-- The call has got a slice. -/
def Pc.granted : Pc → Bool
  | .returned (some _) => true
  | _ => false

variable {s t : Threads ℕ Memory Call} {l : ℕ × Act}
  {tr : List (Threads ℕ Memory Call × (ℕ × Act))}

/-- What a step does to the head and to the call that takes it: it moves neither, or it grants the
call the interval from the head on. -/
theorem step_interval (hst : anyMachine.step s l = some t) :
    t.shared.buffer_ = s.shared.buffer_ ∧ (t.locals l.1).size = (s.locals l.1).size ∧
    (s.locals l.1).pc.granted = false ∧
    ((interval s l = none ∧ t.shared.head_ = s.shared.head_ ∧
        t.shared.grants = s.shared.grants ∧ (t.locals l.1).pc.granted = false) ∨
      (interval s l = some (l.1, ⟨s.shared.head_.toNat, (s.locals l.1).size.toNat⟩) ∧
        t.shared = s.shared.grant s.shared.head_ (s.locals l.1).size ∧
        (t.locals l.1).pc =
          .returned (some (slice s.shared.buffer_ s.shared.head_ (s.locals l.1).size)))) := by
  obtain ⟨i, a⟩ := l
  have hact := Threads.step_self hst
  cases a with
  | loadHead =>
    obtain ⟨hpc, hmem, hcall⟩ := loadHead_iff.mp hact
    rw [hmem, hcall]
    exact ⟨rfl, rfl, by rw [hpc]; rfl, .inl ⟨rfl, rfl, rfl, rfl⟩⟩
  | loadTail =>
    obtain ⟨cur_head, hpc, hmem, hcall⟩ := loadTail_iff.mp hact
    rw [hmem, hcall]
    refine ⟨rfl, rfl, by rw [hpc]; rfl, .inl ⟨rfl, rfl, rfl, ?_⟩⟩
    simp only [test]
    split <;> rfl
  | exchange spurious =>
    obtain ⟨cur_head, hpc, hend⟩ := exchange_iff.mp hact
    rcases hend with ⟨rfl, rfl, hmem, hcall⟩ | ⟨hlost, hmem, hcall⟩
    · rw [hmem, hcall]
      exact ⟨rfl, rfl, by rw [hpc]; rfl, .inr ⟨by simp [interval, hpc], rfl, rfl⟩⟩
    · rw [hmem, hcall]
      refine ⟨rfl, rfl, by rw [hpc]; rfl, .inl ⟨?_, rfl, rfl, rfl⟩⟩
      cases spurious with
      | false => simp only [interval, hpc, if_neg fun heq => hlost ⟨heq, rfl⟩]
      | true => rfl
  | commit =>
    simp only [anyAct, Option.ite_none_right_eq_some, Option.some.injEq, Prod.mk.injEq] at hact
    obtain ⟨hpc, hmem, hcall⟩ := hact
    rw [← hmem, ← hcall]
    exact ⟨rfl, rfl, by rw [hpc]; rfl, .inl ⟨rfl, rfl, rfl, rfl⟩⟩

/-- The slice of an interval. -/
def sliceOf (buffer_ : ℕ) (span : Span) : Slice where
  start_ := buffer_ + span.start % kBufferSize
  end_ := buffer_ + span.stop % kBufferSize

theorem slice_eq (buffer_ n : ℕ) (size : BitVec 64) :
    slice buffer_ (BitVec.ofNat 64 n) size = sliceOf buffer_ ⟨n, size.toNat⟩ := by
  simp only [slice, sliceOf, Counter.ofNat_add_word, kBufferSizeMask_eq,
    Counter.toNat_and_mask (show 23 ≤ 64 by decide), kBufferSize_eq, Span.stop_mk]

/-- What holds of a run that has granted fewer than `2 ^ 64` bytes. -/
structure Granted (buffer_ : ℕ) (tr : List (Threads ℕ Memory Call × (ℕ × Act)))
    (t : Threads ℕ Memory Call) : Prop where
  buffer : t.shared.buffer_ = buffer_
  head : t.shared.head_ = BitVec.ofNat 64 (grantedBytes tr)
  tiles : Tiles 0 ((intervals tr).map Prod.snd) (grantedBytes tr)
  nodup : ((intervals tr).map Prod.fst).Nodup
  slice : ∀ g ∈ intervals tr, (t.locals g.1).pc = .returned (some (sliceOf buffer_ g.2)) ∧
    g.2.len = (t.locals g.1).size.toNat
  caller : ∀ i, (t.locals i).pc.granted = true → i ∈ (intervals tr).map Prod.fst

theorem Granted.step {buffer_ : ℕ} (h : Granted buffer_ tr s) (hst : anyMachine.step s l = some t)
    (hlt : grantedBytes (tr ++ [(s, l)]) < 2 ^ 64) : Granted buffer_ (tr ++ [(s, l)]) t := by
  obtain ⟨hbuffer, hsize, hopen, hcase⟩ := step_interval hst
  have hother {j : ℕ} (hj : j ≠ l.1) : t.locals j = s.locals j := Threads.step_other hst hj
  have hnot : ∀ g ∈ intervals tr, g.1 ≠ l.1 := by
    intro g hg heq
    have hpc := (h.slice g hg).1
    rw [heq] at hpc
    rw [hpc] at hopen
    cases hopen
  rcases hcase with ⟨hnone, hhead, -, hpc⟩ | ⟨hsome, hgrant, hpc⟩
  · have hsame : intervals (tr ++ [(s, l)]) = intervals tr := by simp [intervals, hnone]
    have hbytes : grantedBytes (tr ++ [(s, l)]) = grantedBytes tr := by
      rw [grantedBytes, grantedBytes, hsame]
    refine ⟨hbuffer.trans h.buffer, ?_, ?_, ?_, ?_, ?_⟩
    · rw [hhead, hbytes, h.head]
    · rw [hsame, hbytes]
      exact h.tiles
    · rw [hsame]
      exact h.nodup
    · intro g hg
      rw [hsame] at hg
      rw [hother (hnot g hg)]
      exact h.slice g hg
    · intro i hi
      rw [hsame]
      by_cases hil : i = l.1
      · rw [hil, hpc] at hi
        cases hi
      · rw [hother hil] at hi
        exact h.caller i hi
  · have hsnoc : intervals (tr ++ [(s, l)]) =
        intervals tr ++ [(l.1, ⟨s.shared.head_.toNat, (s.locals l.1).size.toNat⟩)] := by
      simp [intervals, hsome]
    have hbytes : grantedBytes (tr ++ [(s, l)]) =
        grantedBytes tr + (s.locals l.1).size.toNat := by
      simp [grantedBytes, hsnoc]
    -- the head that the call expected is the number of bytes granted before it
    have hstart : s.shared.head_.toNat = grantedBytes tr := by
      rw [h.head, BitVec.toNat_ofNat, Nat.mod_eq_of_lt (by omega)]
    rw [hstart] at hsnoc
    refine ⟨hbuffer.trans h.buffer, ?_, ?_, ?_, ?_, ?_⟩
    · rw [hgrant, hbytes, Memory.grant, h.head, Counter.ofNat_add_word]
    · rw [hsnoc, hbytes, List.map_append]
      exact h.tiles.snoc _
    · rw [hsnoc, List.map_append, List.nodup_append]
      refine ⟨h.nodup, List.nodup_singleton _, ?_⟩
      intro i hi j hj
      obtain ⟨g, hg, rfl⟩ := List.mem_map.mp hi
      obtain rfl : j = l.1 := by simpa using hj
      exact hnot g hg
    · intro g hg
      rw [hsnoc] at hg
      rcases List.mem_append.mp hg with hold | hnew
      · rw [hother (hnot g hold)]
        exact h.slice g hold
      · obtain rfl := List.mem_singleton.mp hnew
        rw [hpc, h.head, slice_eq, h.buffer, hsize]
        exact ⟨rfl, rfl⟩
    · intro i hi
      rw [hsnoc, List.map_append]
      by_cases hil : i = l.1
      · exact List.mem_append_right _ (by simp [hil])
      · rw [hother hil] at hi
        exact List.mem_append_left _ (h.caller i hi)

theorem grantedBytes_le (tr : List (Threads ℕ Memory Call × (ℕ × Act)))
    (p : Threads ℕ Memory Call × (ℕ × Act)) : grantedBytes tr ≤ grantedBytes (tr ++ [p]) := by
  simp [grantedBytes, intervals, List.filterMap_append]

theorem Granted.of_trace (hs : anyMachine.start s) (htr : anyMachine.Trace s tr t)
    (hlt : grantedBytes tr < 2 ^ 64) : Granted s.shared.buffer_ tr t := by
  induction htr with
  | nil =>
    obtain ⟨⟨buffer_, hshared⟩, hidle⟩ := hs
    refine ⟨rfl, ?_, rfl, List.nodup_nil, by simp [intervals], ?_⟩
    · rw [hshared]
      rfl
    · intro i hi
      rw [hidle i] at hi
      cases hi
  | @snoc u v l tr _ hstep ih =>
    have hbefore := grantedBytes_le tr (u, l)
    exact (ih (by omega)).step hstep hlt

/-- The intervals of the successful calls do not overlap and make up `[0, head_)`. Each call that
got a slice got that of its interval, and the others have none. -/
structure GrantsTile (s : Threads ℕ Memory Call)
    (tr : List (Threads ℕ Memory Call × (ℕ × Act))) (t : Threads ℕ Memory Call) : Prop where
  disjoint : (intervals tr).Pairwise fun g g' =>
    Disjoint (Set.Ico g.2.start g.2.stop) (Set.Ico g'.2.start g'.2.stop)
  union : ∀ p, (∃ g ∈ intervals tr, p ∈ Set.Ico g.2.start g.2.stop) ↔ p < t.shared.head_.toNat
  nodup : ((intervals tr).map Prod.fst).Nodup
  granted : ∀ i slice, (t.locals i).pc = .returned (some slice) ↔ ∃ span,
    (i, span) ∈ intervals tr ∧ span.len = (t.locals i).size.toNat ∧
      slice = sliceOf s.shared.buffer_ span
  refused : ∀ i, (t.locals i).pc = .returned none → i ∉ (intervals tr).map Prod.fst

theorem grants_tile (hs : anyMachine.start s) (htr : anyMachine.Trace s tr t)
    (hlt : grantedBytes tr < 2 ^ 64) : GrantsTile s tr t := by
  have h := Granted.of_trace hs htr hlt
  constructor
  · refine (List.pairwise_map.mp h.tiles.pairwise).imp ?_
    intro g g' hle
    rw [Set.disjoint_left]
    intro p hp hp'
    exact absurd (hp.2.trans_le hle) (Nat.not_lt_of_le hp'.1)
  · intro p
    have hmem := h.tiles.mem_iff (p := p)
    simp only [List.mem_map, exists_exists_and_eq_and, Nat.zero_le, true_and] at hmem
    rw [h.head, BitVec.toNat_ofNat, Nat.mod_eq_of_lt hlt]
    exact hmem
  · exact h.nodup
  · intro i slice
    constructor
    · intro hpc
      obtain ⟨⟨j, span⟩, hg, rfl⟩ := List.mem_map.mp (h.caller i (by rw [hpc]; rfl))
      obtain ⟨hslice, hlen⟩ := h.slice _ hg
      refine ⟨span, hg, hlen, ?_⟩
      simpa using hpc.symm.trans hslice
    · rintro ⟨span, hg, -, rfl⟩
      exact (h.slice _ hg).1
  · intro i hpc hmem
    obtain ⟨g, hg, rfl⟩ := List.mem_map.mp hmem
    have hslice := (h.slice g hg).1
    rw [hpc] at hslice
    cases hslice

/-- The bytes granted in a run are those that the memory records. -/
theorem granted_eq (hs : anyMachine.start s) (htr : anyMachine.Trace s tr t) :
    t.shared.granted = grantedBytes tr := by
  induction htr with
  | nil =>
    obtain ⟨⟨buffer_, hshared⟩, -⟩ := hs
    rw [hshared]
    rfl
  | @snoc u v l tr _ hstep ih =>
    obtain ⟨-, -, -, ⟨hnone, -, hgrants, -⟩ | ⟨hsome, hgrant, -⟩⟩ := step_interval hstep
    · rw [Memory.granted, hgrants, ← Memory.granted, ih]
      simp [grantedBytes, intervals, hnone]
    · rw [hgrant, Memory.granted_grant, ih]
      simp [grantedBytes, intervals, hsome]

/-- Two requests race for the head, more is released than was granted, the loser of the race goes
on, and one request is too large. -/
def manyRun : List (ℕ × Act) :=
  [(0, .loadHead), (1, .loadHead), (0, .loadTail), (1, .loadTail), (0, .exchange true),
    (0, .loadTail), (1, .exchange false), (2, .commit), (0, .exchange false), (0, .loadTail),
    (0, .exchange false), (3, .loadHead), (3, .loadTail)]

def manySizes (i : ℕ) : BitVec 64 :=
  if i = 3 then BitVec.ofNat 64 (2 ^ 63) else BitVec.ofNat 64 (100 + 50 * i)

theorem grants_tile_many : ∃ tr t, anyMachine.Trace (fresh manySizes) tr t ∧
    tr.map Prod.snd = manyRun ∧ GrantsTile (fresh manySizes) tr t := by
  have hrun : (anyMachine.run (fresh manySizes) manyRun).any (fun t => t.shared.granted < 2 ^ 64 ∧
      (t.locals 3).pc = .returned none ∧ (t.locals 0).pc.granted = true) = true := by
    decide +kernel
  obtain ⟨t, ht, hlt, -⟩ := Machine.exists_of_run hrun
  obtain ⟨tr, htr, hls⟩ := Machine.Trace.of_run ht
  have hlt : grantedBytes tr < 2 ^ 64 := by rwa [← granted_eq fresh_start htr]
  exact ⟨tr, t, htr, hls, grants_tile fresh_start htr hlt⟩

end RingBuffer

end QStorage.Db
