import QStorage.Db.RingBuffer.Grants
import QStorage.Lib.Retry

/-!
# Requests end

A call of `RequestWriteSpace` starts over when another call has moved `head_` since the load. Only
a call that is granted its request does so, and it is then over. So the loops of any number of
calls end, however they interleave.

## Main results

* `RingBuffer.costs_pay` — every atomic step is paid for.
* `RingBuffer.requests_end` — the steps of a run are bounded by the number of its calls, and no
  call ever waits.
-/

namespace QStorage.Db.RingBuffer

open QStorage.Lib Threads

/-- An attempt that fails costs the exchange and another look at `tail_`. A grant makes each of the
`others` fail once. -/
def costs (others : ℕ) : Costs Memory Call where
  weight c :=
    match c.pc with
    | .idle => 3 + 2 * others
    | .loadTail _ => 2 + 2 * others
    | .exchange _ => 1 + 2 * others
    | .returned _ | .committed => 0
  stale x c :=
    match c.pc with
    | .loadTail cur_head | .exchange cur_head => x.head_ ≠ cur_head
    | _ => false
  again := 2

/-- An exchange that the machine may let fail without need. -/
def Act.spurious (a : Act) : Bool := a = .exchange true

/-- The call is over. -/
def Pc.over : Pc → Bool
  | .returned _ | .committed => true
  | _ => false

variable {x x' : Memory} {c c' : Call} {a : Act} {others : ℕ} {s t : Threads ℕ Memory Call}
  {tr : List (Threads ℕ Memory Call × (ℕ × Act))} {ids : List ℕ}

/-- The views of the calls depend on `head_` alone. -/
theorem stale_congr (h : x'.head_ = x.head_) (d : Call) :
    (costs others).stale x' d = (costs others).stale x d := by
  simp only [costs, h]

section Due

variable (x : Memory) (cur_head size : BitVec 64) (tested others : ℕ)

@[simp] theorem due_idle : (costs others).due x ⟨.idle, size, tested⟩ = 3 + 2 * others := by
  simp [Costs.due, costs]

@[simp] theorem due_loadTail : (costs others).due x ⟨.loadTail cur_head, size, tested⟩ =
    2 + 2 * others + if x.head_ = cur_head then 0 else 2 := by
  simp [Costs.due, costs]

@[simp] theorem due_exchange : (costs others).due x ⟨.exchange cur_head, size, tested⟩ =
    1 + 2 * others + if x.head_ = cur_head then 0 else 2 := by
  simp [Costs.due, costs]

@[simp] theorem due_returned (result : Option Slice) :
    (costs others).due x ⟨.returned result, size, tested⟩ = 0 := by
  simp [Costs.due, costs]

@[simp] theorem due_committed : (costs others).due x ⟨.committed, size, tested⟩ = 0 := by
  simp [Costs.due, costs]

end Due

theorem costs_pay (h : anyAct x c a = some (x', c')) :
    (costs others).Pays others a.spurious x c x' c' := by
  obtain ⟨pc, size, tested⟩ := c
  cases a with
  | loadHead =>
    obtain ⟨rfl, rfl, rfl⟩ := loadHead_iff.mp h
    refine .quiet (fun _ => rfl) ?_
    simp
  | loadTail =>
    obtain ⟨cur_head, rfl, hmem, rfl⟩ := loadTail_iff.mp h
    refine .quiet (stale_congr (by rw [hmem])) ?_
    rw [hmem, due_loadTail]
    unfold test
    split
    · simp
    · rw [due_exchange]
      omega
  | exchange spurious =>
    obtain ⟨cur_head, rfl, ⟨hhead, rfl, hmem, rfl⟩ | ⟨hfail, hmem, rfl⟩⟩ := exchange_iff.mp h
    · refine .ahead ?_
      rw [due_returned, due_exchange, if_pos hhead]
      simp only [costs]
      omega
    · have hsame (d : Call) : (costs others).stale x' d = (costs others).stale x d :=
        stale_congr (by rw [hmem]) d
      rw [hmem] at hsame ⊢
      by_cases hhead : x.head_ = cur_head
      · refine .slip hsame (by simpa [hhead, Act.spurious] using hfail) ?_
        rw [due_exchange, due_loadTail, if_pos hhead, if_pos rfl]
        simp only [costs]
        omega
      · refine .quiet hsame ?_
        rw [due_exchange, due_loadTail, if_neg hhead, if_pos rfl]
        omega
  | commit =>
    obtain ⟨hpc, hpair⟩ := Option.ite_none_right_eq_some.mp h
    obtain rfl : pc = .idle := hpc
    cases hpair
    refine .quiet (stale_congr rfl) ?_
    simp

theorem total_start (hs : anyMachine.start s) :
    (costs others).total ids s = ids.length * (3 + 2 * others) := by
  have hdue (i : ℕ) : (costs others).due s.shared (s.locals i) = 3 + 2 * others := by
    simp [Costs.due, costs, hs.2 i]
  simp [Costs.total, hdue]

/-- A call that is not over can take its next step, whatever the others do. -/
theorem step_of_not_over (i : ℕ) (h : (t.locals i).pc.over = false) :
    ∃ a u, anyMachine.step t (i, a) = some u ∧ a.spurious = false := by
  suffices hact : ∃ a r, anyAct t.shared (t.locals i) a = some r ∧ a.spurious = false by
    obtain ⟨a, ⟨x, c⟩, ha, hspurious⟩ := hact
    exact ⟨a, ⟨x, Function.update t.locals i c⟩, step_iff.mpr ⟨c, ha, rfl⟩, hspurious⟩
  cases hpc : (t.locals i).pc with
  | idle => exact ⟨.loadHead, _, loadHead_iff.mpr ⟨hpc, rfl, rfl⟩, rfl⟩
  | loadTail cur_head => exact ⟨.loadTail, _, loadTail_iff.mpr ⟨cur_head, hpc, rfl, rfl⟩, rfl⟩
  | exchange cur_head =>
    by_cases hhead : t.shared.head_ = cur_head
    · exact ⟨.exchange false, _,
        exchange_iff.mpr ⟨cur_head, hpc, .inl ⟨hhead, rfl, rfl, rfl⟩⟩, rfl⟩
    · exact ⟨.exchange false, _,
        exchange_iff.mpr ⟨cur_head, hpc, .inr ⟨by simp [hhead], rfl, rfl⟩⟩, rfl⟩
  | returned | committed => simp [hpc, Pc.over] at h

/-- Any number `n` of calls of `RequestWriteSpace` and `CommitWrite` take at most `n * (2 * n + 1)`
atomic steps together, and three more for each exchange that fails without need; until a call is
over it can always take a step. So every call returns, whatever the sizes. -/
theorem requests_end (hnodup : ids.Nodup) (hs : anyMachine.start s)
    (htr : anyMachine.Trace s tr t) (hids : ∀ p ∈ tr, p.2.1 ∈ ids) :
    tr.length ≤ ids.length * (2 * ids.length + 1) + 3 * tr.countP (fun p => p.2.2.spurious) ∧
    ∀ i, (t.locals i).pc.over = false →
      ∃ a u, anyMachine.step t (i, a) = some u ∧ a.spurious = false := by
  refine ⟨?_, fun i hi => step_of_not_over i hi⟩
  have hle := Costs.length_le hnodup (show ids.length ≤ ids.length - 1 + 1 by omega)
    (fun _ _ _ _ _ h => costs_pay h) htr hids
  rw [total_start hs] at hle
  have hcalls : ids.length * (3 + 2 * (ids.length - 1)) = ids.length * (2 * ids.length + 1) := by
    rcases Nat.eq_zero_or_pos ids.length with hzero | hpos
    · simp [hzero]
    · congr 1
      omega
  rw [hcalls] at hle
  exact (Nat.le_add_right _ _).trans hle

/-- Four calls, one of which overtakes another one; call 0 then still has to try again. -/
theorem requests_end_many : ∃ tr t, anyMachine.Trace (fresh manySizes) tr t ∧
    tr.map Prod.snd = manyRun.take 9 ∧
    tr.length ≤ 4 * 9 + 3 * tr.countP (fun p => p.2.2.spurious) ∧
    ∃ a u, anyMachine.step t (0, a) = some u ∧ a.spurious = false := by
  have hrun : (anyMachine.run (fresh manySizes) (manyRun.take 9)).any (fun t =>
      (t.locals 0).pc.over = false) = true := by decide +kernel
  obtain ⟨t, ht, hpc⟩ := Machine.exists_of_run hrun
  obtain ⟨tr, htr, hls⟩ := Machine.Trace.of_run ht
  have hids : ∀ p ∈ tr, p.2.1 ∈ [0, 1, 2, 3] := by
    have hlabels : ∀ l ∈ manyRun.take 9, l.1 ∈ [0, 1, 2, 3] := by decide
    exact fun p hp => hlabels p.2 (hls ▸ List.mem_map_of_mem hp)
  obtain ⟨hle, hnext⟩ := requests_end (show [0, 1, 2, 3].Nodup by decide) fresh_start htr hids
  exact ⟨tr, t, htr, hls, hle, hnext 0 hpc⟩

end QStorage.Db.RingBuffer
