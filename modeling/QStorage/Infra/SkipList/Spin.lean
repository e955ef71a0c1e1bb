import QStorage.Infra.SkipList.Sealed
import QStorage.Lib.Retry

/-!
# The spin of an insertion ends (`infra/skip_list.h`)

The exchange that takes the lock does not look whether the lock is free, so no call waits for the
holder. A call spins only while others change `count_`, and each does that twice at most.

## Main results

* `Node.costs_pay` — every atomic step is paid for.
* `Node.insertions_end` — the steps of a run are bounded by the number of its calls, and no call
  ever waits.
-/

namespace QStorage.Infra.Node

open QStorage.Lib Threads

variable {α : Type*}

/-- A call changes `count_` with its exchange and with its `fetch_add`, and either makes each of
the `others` spin once. -/
def costs (others : ℕ) : Costs (Memory α) (Call α) where
  weight c :=
    match c.pc with
    | .idle => 5 + 2 * others
    | .exchange _ => 4 + 2 * others
    | .add => 3 + others
    | .store _ => 2
    | .commit _ => 1
    | .returned _ _ => 0
  stale x c :=
    match c.pc with
    | .exchange res => x.count_ ≠ res
    | _ => false
  again := 1

/-- An exchange that the machine may let fail without need. -/
def Act.spurious (a : Act) : Bool := a = .exchange true

def Pc.over : Pc → Bool
  | .returned _ _ => true
  | _ => false

variable {x x' : Memory α} {c c' : Call α} {a : Act} {N others : ℕ}
  {s t : Threads ℕ (Memory α) (Call α)} {tr : List (Threads ℕ (Memory α) (Call α) × (ℕ × Act))}
  {ids : List ℕ}

section Due

variable (x : Memory α) (key_value : α) (others : ℕ)

@[simp] theorem due_idle : (costs others).due x ⟨.idle, key_value⟩ = 5 + 2 * others := by
  simp [Costs.due, costs]

@[simp] theorem due_exchange (res : BitVec 64) :
    (costs others).due x ⟨.exchange res, key_value⟩ =
      4 + 2 * others + if x.count_ = res then 0 else 1 := by
  simp [Costs.due, costs]

@[simp] theorem due_add : (costs others).due x ⟨.add, key_value⟩ = 3 + others := by
  simp [Costs.due, costs]

@[simp] theorem due_store (index : ℕ) : (costs others).due x ⟨.store index, key_value⟩ = 2 := by
  simp [Costs.due, costs]

@[simp] theorem due_commit (index : ℕ) : (costs others).due x ⟨.commit index, key_value⟩ = 1 := by
  simp [Costs.due, costs]

@[simp] theorem due_returned (result : Option Bool) (slot : Option ℕ) :
    (costs others).due x ⟨.returned result slot, key_value⟩ = 0 := by
  simp [Costs.due, costs]

end Due

/-- The views of the calls depend on `count_` alone. -/
theorem stale_congr (h : x'.count_ = x.count_) (d : Call α) :
    (costs others).stale x' d = (costs others).stale x d := by
  simp only [costs, h]

/-- What the test of the capacity leaves to pay. -/
theorem due_test_le (count_ : BitVec 64) (pc : Pc) (key_value : α) :
    (costs others).due x ⟨test N count_ pc, key_value⟩ ≤ (costs others).due x ⟨pc, key_value⟩ := by
  unfold test
  split
  · simp
  · exact le_rfl

theorem costs_pay (h : SetKeyValue N x c a = some (x', c')) :
    (costs others).Pays others a.spurious x c x' c' := by
  obtain ⟨pc, key_value⟩ := c
  cases a with
  | load =>
    obtain ⟨rfl, hmem, rfl⟩ := load_iff.mp h
    refine .quiet (stale_congr (by rw [hmem])) ?_
    rw [hmem]
    refine lt_of_le_of_lt (due_test_le _ _ _) ?_
    rw [due_exchange, due_idle, if_pos rfl]
    omega
  | exchange spurious =>
    obtain ⟨res, rfl, ⟨hcount, rfl, rfl, rfl⟩ | ⟨hfail, hmem, rfl⟩⟩ := exchange_iff.mp h
    · refine .ahead ?_
      rw [due_add, due_exchange, if_pos hcount]
      simp only [costs]
      omega
    · have hsame (d : Call α) : (costs others).stale x' d = (costs others).stale x d :=
        stale_congr (by rw [hmem]) d
      rw [hmem] at hsame ⊢
      by_cases hcount : x.count_ = res
      · refine .slip hsame (by simpa [hcount, Act.spurious] using hfail) ?_
        rw [due_exchange, due_exchange, if_pos hcount, if_pos rfl]
        exact Nat.le_add_right _ _
      · refine .quiet hsame ?_
        rw [due_exchange, due_exchange, if_neg hcount, if_pos rfl]
        omega
  | add =>
    obtain ⟨rfl, rfl, rfl⟩ := add_iff.mp h
    refine .ahead ?_
    refine lt_of_le_of_lt (Nat.add_le_add_right (due_test_le _ _ _) _) ?_
    rw [due_store, due_add]
    simp only [costs]
    omega
  | store =>
    cases pc with
    | store index =>
      simp only [SetKeyValue, Option.some.injEq, Prod.mk.injEq] at h
      obtain ⟨rfl, rfl⟩ := h
      refine .quiet (stale_congr rfl) ?_
      simp
    | _ => simp [SetKeyValue] at h
  | commit =>
    cases pc with
    | commit index =>
      simp only [SetKeyValue, Option.some.injEq, Prod.mk.injEq] at h
      obtain ⟨rfl, rfl⟩ := h
      refine .quiet (stale_congr rfl) ?_
      simp
    | _ => simp [SetKeyValue] at h

theorem total_start (hs : (machine N).start s) :
    (costs others).total ids s = ids.length * (5 + 2 * others) := by
  have hdue (i : ℕ) : (costs others).due s.shared (s.locals i) = 5 + 2 * others := by
    simp [Costs.due, costs, hs.2 i]
  simp [Costs.total, hdue]

/-- A call that is not over can take its next step, whatever the others do. -/
theorem step_of_not_over (i : ℕ) (h : (t.locals i).pc.over = false) :
    ∃ a u, (machine N).step t (i, a) = some u ∧ a.spurious = false := by
  suffices hact : ∃ a r, SetKeyValue N t.shared (t.locals i) a = some r ∧ a.spurious = false by
    obtain ⟨a, ⟨x, c⟩, ha, hspurious⟩ := hact
    exact ⟨a, ⟨x, Function.update t.locals i c⟩, step_iff.mpr ⟨c, ha, rfl⟩, hspurious⟩
  cases hpc : (t.locals i).pc with
  | idle => exact ⟨.load, _, load_iff.mpr ⟨hpc, rfl, rfl⟩, rfl⟩
  | exchange res =>
    by_cases hcount : t.shared.count_ = res
    · exact ⟨.exchange false, _,
        exchange_iff.mpr ⟨res, hpc, .inl ⟨hcount, rfl, rfl, rfl⟩⟩, rfl⟩
    · exact ⟨.exchange false, _,
        exchange_iff.mpr ⟨res, hpc, .inr ⟨by simp [hcount], rfl, rfl⟩⟩, rfl⟩
  | add => exact ⟨.add, _, add_iff.mpr ⟨hpc, rfl, rfl⟩, rfl⟩
  | store index => exact ⟨.store, _, by simp only [SetKeyValue, hpc]; rfl, rfl⟩
  | commit index => exact ⟨.commit, _, by simp only [SetKeyValue, hpc]; rfl, rfl⟩
  | returned => simp [hpc, Pc.over] at h

/-- Any number `n` of calls of `SetKeyValue` on a node take at most `n * (2 * n + 3)` atomic steps
together, and two more for each exchange that fails without need; until a call is over it can
always take a step. So every call returns, also those that do not hold the lock. -/
theorem insertions_end (hnodup : ids.Nodup) (hs : (machine N).start s)
    (htr : (machine N).Trace s tr t) (hids : ∀ p ∈ tr, p.2.1 ∈ ids) :
    tr.length ≤ ids.length * (2 * ids.length + 3) + 2 * tr.countP (fun p => p.2.2.spurious) ∧
    ∀ i, (t.locals i).pc.over = false →
      ∃ a u, (machine N).step t (i, a) = some u ∧ a.spurious = false := by
  refine ⟨?_, fun i hi => step_of_not_over i hi⟩
  have hle := Costs.length_le hnodup (show ids.length ≤ ids.length - 1 + 1 by omega)
    (fun _ _ _ _ _ h => costs_pay h) htr hids
  rw [total_start hs] at hle
  have hcalls : ids.length * (5 + 2 * (ids.length - 1)) = ids.length * (2 * ids.length + 3) := by
    rcases Nat.eq_zero_or_pos ids.length with hzero | hpos
    · simp [hzero]
    · congr 1
      omega
  rw [hcalls] at hle
  exact (Nat.le_add_right _ _).trans hle

/-- Two calls, one of which gets the lock while the other one holds it. -/
theorem insertions_end_both : ∃ tr t, (machine 16).Trace fresh tr t ∧
    tr.map Prod.snd = bothRun.take 4 ∧
    tr.length ≤ 2 * 7 + 2 * tr.countP (fun p => p.2.2.spurious) ∧
    ∃ a u, (machine 16).step t (1, a) = some u ∧ a.spurious = false := by
  have hrun : ((machine 16).run fresh (bothRun.take 4)).any (fun t =>
      (t.locals 1).pc.over = false) = true := by decide +kernel
  obtain ⟨t, ht, hpc⟩ := Machine.exists_of_run hrun
  obtain ⟨tr, htr, hls⟩ := Machine.Trace.of_run ht
  have hids : ∀ p ∈ tr, p.2.1 ∈ [0, 1] := by
    have hlabels : ∀ l ∈ bothRun.take 4, l.1 ∈ [0, 1] := by decide
    exact fun p hp => hlabels p.2 (hls ▸ List.mem_map_of_mem hp)
  obtain ⟨hle, hnext⟩ := insertions_end (show [0, 1].Nodup by decide) fresh_start htr hids
  exact ⟨tr, t, htr, hls, hle, hnext 1 hpc⟩

end QStorage.Infra.Node
