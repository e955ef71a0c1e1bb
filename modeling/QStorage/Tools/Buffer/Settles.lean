import QStorage.Lib.Progress
import QStorage.Lib.Retry
import QStorage.Tools.Buffer

/-!
# Which calls get a block (`tools/buffer.cc`)

The call that finds `free_` empty ends with the mutex locked. So as many calls get a block as there
are blocks, the next one gets none, and all calls after it wait for a mutex that nobody unlocks.

## Main results

* `Buffer.Good.lose`, `Buffer.Lost.step` — how the mutex is lost, and that it stays so.
* `Buffer.blocks_served` — every schedule ends, and how many calls have a block by then.
-/

namespace QStorage.Tools.Buffer

open QStorage.Lib Threads

variable {ι α : Type*} [DecidableEq α] {s t : Threads ι (Buffer α) (Call α)} {xs : List α}
  {ids : List ι} {i : ι} {l : ι × Unit}

/-! ## Every schedule ends -/

/-- Lines that a call has yet to go through. -/
def Pc.toGo : Pc α → ℕ
  | .idle => 7
  | .co_lock => 6
  | .count => 5
  | .start => 4
  | .remove _ => 3
  | .unlock _ => 2
  | .co_return _ => 1
  | .finished _ => 0

/-- No line is gone through twice. -/
def costs : Costs (Buffer α) (Call α) where
  weight c := c.pc.toGo
  stale _ _ := false
  again := 0

theorem toGo_lt {b b' : Buffer α} {c c' : Call α} (h : getFreeBlock b c = some (b', c')) :
    c'.pc.toGo < c.pc.toGo := by
  cases hpc : c.pc with
  | co_lock =>
    simp only [getFreeBlock, hpc, Option.ite_none_left_eq_some, Option.some.injEq,
      Prod.mk.injEq] at h
    simp [← h.2.2, Pc.toGo]
  | count =>
    simp only [getFreeBlock, hpc, Option.some.injEq, Prod.mk.injEq] at h
    rw [← h.2]
    split <;> simp [Pc.toGo]
  | start =>
    simp only [getFreeBlock, hpc, Option.map_eq_some_iff, Prod.mk.injEq] at h
    obtain ⟨block, -, -, rfl⟩ := h
    simp [Pc.toGo]
  | remove block =>
    simp only [getFreeBlock, hpc] at h
    split at h
    · simp only [Option.some.injEq, Prod.mk.injEq] at h
      simp [← h.2, Pc.toGo]
    · cases h
  | finished => simp [getFreeBlock, hpc] at h
  | idle | unlock | co_return =>
    simp only [getFreeBlock, hpc, Option.some.injEq, Prod.mk.injEq] at h
    simp [← h.2, Pc.toGo]

theorem costs_pay {others : ℕ} {b b' : Buffer α} {c c' : Call α}
    (h : getFreeBlock b c = some (b', c')) : costs.Pays others false b c b' c' := by
  refine .quiet (fun _ => rfl) ?_
  simpa [Costs.due, costs] using toGo_lt h

/-! ## The mutex is lost -/

/-- The call is over and has got a block. -/
def Pc.served : Pc α → Bool
  | .finished (some _) => true
  | _ => false

/-- Where a call can be that does not hold the mutex, and is not the one that lost it. -/
def Pc.Outside : Pc α → Prop
  | .idle | .co_lock | .co_return _ | .finished (some _) => True
  | _ => False

/-- All blocks have been handed out, and a call has ended with the mutex. -/
structure Lost (xs : List α) (s : Threads ι (Buffer α) (Call α)) : Prop where
  mutex : s.shared.mutex_ = true
  free : s.shared.free_.WellFormed []
  allotted : Threads.Allotted xs [] fun i => (s.locals i).block
  keeper : ∃ j, (s.locals j).pc = .finished none ∧ ∀ i, i ≠ j → (s.locals i).pc.Outside

variable [DecidableEq ι]

/-- The call that finds `free_` empty. -/
theorem Good.lose (h : Good xs s) (hbad : ¬ FindsBlock s l) (hst : machine.step s l = some t) :
    Lost xs t := by
  obtain ⟨i, _⟩ := l
  obtain ⟨hpc, hcount⟩ := Classical.not_imp.mp hbad
  have hholds : (s.locals i).holds = true := by
    have hcall := h.call i
    simpa only [Call.Ok, hpc] using hcall
  have hact := step_self hst
  simp only [getFreeBlock, hpc, if_neg hcount, Option.some.injEq, Prod.mk.injEq] at hact
  obtain ⟨hshared, hlocal⟩ := hact
  obtain ⟨free, hwf, hallotted⟩ := h.allotted
  obtain rfl : free = [] := by
    rw [← List.length_eq_zero_iff, ← hwf.count]
    omega
  have hblocks (j : ι) : (t.locals j).block = (s.locals j).block := by
    by_cases hj : j = i
    · rw [hj, ← hlocal, Call.block, Call.block, hpc]
    · rw [step_other hst hj]
  refine ⟨?_, hshared ▸ hwf, by simpa only [hblocks] using hallotted, i, by rw [← hlocal],
    fun j hj => ?_⟩
  · rw [← hshared]
    exact h.locked_iff.mpr ⟨i, hholds⟩
  · rw [step_other hst hj]
    have hcall := h.call j
    have hfree : (s.locals j).holds ≠ true := fun hheld => hj (h.unique j i hheld hholds)
    cases hother : (s.locals j).pc with
    | idle | co_lock | co_return => trivial
    | count | unlock =>
      simp only [Call.Ok, hother] at hcall
      exact absurd hcall hfree
    | start | remove =>
      simp only [Call.Ok, hother] at hcall
      exact absurd hcall.1 hfree
    | finished block =>
      cases block with
      | none => simp only [Call.Ok, hother] at hcall
      | some block => trivial

/-- What a call does once the mutex is lost: it asks for the mutex, or returns its block. -/
theorem Lost.next (h : Lost xs s) (hst : machine.step s (i, ()) = some t) :
    t.shared = s.shared ∧ (t.locals i).block = (s.locals i).block ∧ (t.locals i).pc.Outside ∧
      (s.locals i).pc ≠ .finished none := by
  have hact := step_self hst
  obtain ⟨j, hj, houtside⟩ := h.keeper
  have hne : i ≠ j := by
    rintro rfl
    simp [getFreeBlock, hj] at hact
  have hi := houtside i hne
  cases hpc : (s.locals i).pc with
  | idle | co_return =>
    simp only [getFreeBlock, hpc, Option.some.injEq, Prod.mk.injEq] at hact
    simp [← hact.1, ← hact.2, Call.block, hpc, Pc.Outside]
  | co_lock => simp [getFreeBlock, hpc, h.mutex] at hact
  | finished block => simp [getFreeBlock, hpc] at hact
  | count | start | remove | unlock => simp [hpc, Pc.Outside] at hi

theorem Lost.step (h : Lost xs s) (hst : machine.step s l = some t) : Lost xs t := by
  obtain ⟨i, _⟩ := l
  obtain ⟨hshared, hblock, hpc, hne⟩ := h.next hst
  obtain ⟨j, hj, houtside⟩ := h.keeper
  have hij : j ≠ i := by
    rintro rfl
    exact hne hj
  have hblocks (k : ι) : (t.locals k).block = (s.locals k).block := by
    by_cases hk : k = i
    · rw [hk, hblock]
    · rw [step_other hst hk]
  refine ⟨hshared ▸ h.mutex, hshared ▸ h.free, by simpa only [hblocks] using h.allotted, j,
    by rw [step_other hst hij, hj], fun k hk => ?_⟩
  by_cases hki : k = i
  · rwa [hki]
  · rw [step_other hst hki]
    exact houtside k hk

/-- A buffer from which the calls take their blocks, until one of them is lost. -/
theorem good_or_lost {tr : List (Threads ι (Buffer α) (Call α) × (ι × Unit))}
    (hs : machine.start s) (hxs : s.shared.free_.WellFormed xs) (htr : machine.Trace s tr t) :
    Good xs t ∨ Lost xs t := by
  refine htr.keep (I := fun u => Good xs u ∨ Lost xs u) ?_ (.inl (.start hs hxs))
  rintro u l v (hgood | hlost) hst
  · by_cases hfinds : FindsBlock u l
    · exact .inl (hgood.step hfinds hst)
    · exact .inr (hgood.lose hfinds hst)
  · exact .inr (hlost.step hst)

/-! ## Nobody can go on -/

/-- None of the calls can go through its next line. -/
def Settled (ids : List ι) (s : Threads ι (Buffer α) (Call α)) : Prop :=
  ∀ i ∈ ids, machine.step s (i, ()) = none

theorem Settled.next_eq_none (h : Settled ids s) (hi : i ∈ ids) :
    getFreeBlock s.shared (s.locals i) = none := by
  cases hact : getFreeBlock s.shared (s.locals i) with
  | none => rfl
  | some r =>
    have hst : machine.step s (i, ()) = some ⟨r.1, Function.update s.locals i r.2⟩ :=
      step_iff.mpr ⟨r.2, hact, rfl⟩
    rw [h i hi] at hst
    cases hst

/-- As long as the mutex is not lost, everybody gets a block. -/
theorem Good.served (h : Good xs s) (hsettled : Settled ids s)
    (hidle : ∀ i, i ∉ ids → s.locals i = {}) (hi : i ∈ ids) :
    (s.locals i).pc.served = true := by
  have hstuck {j : ι} (hj : j ∈ ids) (hcall : (s.locals j).holds = true ∨
      ∃ block, (s.locals j).pc = .co_return block) : False := by
    have hsome := h.next_isSome hcall
    rw [hsettled.next_eq_none hj] at hsome
    cases hsome
  have hfree : s.shared.mutex_ = false := by
    by_contra hlocked
    obtain ⟨j, hj⟩ := h.locked_iff.mp (by simpa using hlocked)
    by_cases hmem : j ∈ ids
    · exact hstuck hmem (.inl hj)
    · rw [hidle j hmem] at hj
      cases hj
  have hnone := hsettled.next_eq_none hi
  have hcall := h.call i
  cases hpc : (s.locals i).pc with
  | idle => simp [getFreeBlock, hpc] at hnone
  | co_lock => simp [getFreeBlock, hpc, hfree] at hnone
  | count | unlock =>
    simp only [Call.Ok, hpc] at hcall
    exact (hstuck hi (.inl hcall)).elim
  | start | remove =>
    simp only [Call.Ok, hpc] at hcall
    exact (hstuck hi (.inl hcall.1)).elim
  | co_return block => exact (hstuck hi (.inr ⟨block, hpc⟩)).elim
  | finished block =>
    cases block with
    | none => simp only [Call.Ok, hpc] at hcall
    | some block => rfl

/-- Once the mutex is lost, a call has got its block or waits for the mutex. -/
theorem Lost.served_or (h : Lost xs s) (hsettled : Settled ids s) (hi : i ∈ ids) :
    ((s.locals i).pc.served = true ∧ (s.locals i).block.isSome = true) ∨
      (s.locals i).block = none ∧
        ((s.locals i).pc = .co_lock ∨ (s.locals i).pc = .finished none) := by
  have hnone := hsettled.next_eq_none hi
  obtain ⟨j, hj, houtside⟩ := h.keeper
  by_cases hij : i = j
  · subst hij
    exact .inr ⟨by simp [Call.block, hj], .inr hj⟩
  · have hpc := houtside i hij
    cases hat : (s.locals i).pc with
    | idle | co_return => simp [getFreeBlock, hat] at hnone
    | co_lock => exact .inr ⟨by simp [Call.block, hat], .inl rfl⟩
    | count | start | remove | unlock => simp [hat, Pc.Outside] at hpc
    | finished block =>
      cases block with
      | none => simp [hat, Pc.Outside] at hpc
      | some block => exact .inl ⟨rfl, by simp [Call.block, hat]⟩

omit [DecidableEq α] in
/-- The calls with a block and the blocks in `free_` account for all blocks. -/
theorem length_eq {free : List α} (hxs : xs.Nodup) (hfree : free.Nodup)
    (h : Threads.Allotted xs free fun i => (s.locals i).block) (hnodup : ids.Nodup)
    (hidle : ∀ i, i ∉ ids → s.locals i = {}) :
    xs.length = free.length + ids.countP fun i => (s.locals i).block.isSome := by
  refine h.length_eq hxs hfree hnodup fun i x hi => ?_
  by_contra hmem
  rw [hidle i hmem] at hi
  cases hi

section Settled

variable (hidle : ∀ i, i ∉ ids → s.locals i = {}) (hsettled : Settled ids s)

include hidle hsettled

/-- With the mutex, all calls have a block. -/
theorem Good.served_all (h : Good xs s) (hxs : xs.Nodup) (hnodup : ids.Nodup) :
    (∀ i ∈ ids, (s.locals i).pc.served = true) ∧ ids.length ≤ xs.length := by
  obtain ⟨free, hwf, hallotted⟩ := h.allotted
  have hserved : ∀ i ∈ ids, (s.locals i).pc.served = true := fun i hi =>
    h.served hsettled hidle hi
  have hblock : ∀ i ∈ ids, (s.locals i).block.isSome = true := by
    intro i hi
    have hi := hserved i hi
    cases hpc : (s.locals i).pc with
    | finished block =>
      cases block with
      | none => simp [hpc, Pc.served] at hi
      | some block => simp [Call.block, hpc]
    | _ => simp [hpc, Pc.served] at hi
  have hlen := length_eq hxs hwf.nodup hallotted hnodup hidle
  rw [List.countP_eq_length.mpr hblock] at hlen
  exact ⟨hserved, by omega⟩

/-- Without the mutex, all blocks are given out. -/
theorem Lost.countP_served (h : Lost xs s) (hxs : xs.Nodup) (hnodup : ids.Nodup) :
    (ids.countP fun i => (s.locals i).pc.served) = xs.length := by
  have hlen := length_eq hxs List.nodup_nil h.allotted hnodup hidle
  have hcount : (ids.countP fun i => (s.locals i).pc.served) =
      ids.countP fun i => (s.locals i).block.isSome := by
    refine List.countP_congr fun i hi => ?_
    rcases h.served_or hsettled hi with ⟨hserved, hblock⟩ | ⟨hnone, hpc | hpc⟩
    · simp [hserved, hblock]
    · simp [hnone, hpc, Pc.served]
    · simp [hnone, hpc, Pc.served]
  rw [hcount, hlen, List.length_nil, Nat.zero_add]

/-- The call that has lost the mutex, and what becomes of the others. -/
theorem Lost.holder (h : Lost xs s) : ∃ j ∈ ids, (s.locals j).pc = .finished none ∧
    ∀ i ∈ ids, i ≠ j → (s.locals i).pc.served = true ∨ (s.locals i).pc = .co_lock := by
  obtain ⟨j, hj, houtside⟩ := h.keeper
  have hmem : j ∈ ids := by
    by_contra hout
    rw [hidle j hout] at hj
    cases hj
  refine ⟨j, hmem, hj, fun i hi hij => ?_⟩
  rcases h.served_or hsettled hi with ⟨hserved, -⟩ | ⟨-, hpc | hpc⟩
  · exact .inl hserved
  · exact .inr hpc
  · have houtside := houtside i hij
    simp [hpc, Pc.Outside] at houtside

end Settled

/-- Each of any calls on a buffer with the blocks `xs` goes through no more than seven lines, and
when none can go on, as many of them have a block as there are blocks. If there are more calls, one
of them has ended with the mutex, and each of the others has a block or waits for the mutex. -/
theorem blocks_served {tr : List (Threads ι (Buffer α) (Call α) × (ι × Unit))}
    (hs : machine.start s) (hxs : s.shared.free_.WellFormed xs) (hnodup : ids.Nodup)
    (htr : machine.Trace s tr t) (hids : ∀ p ∈ tr, p.2.1 ∈ ids) :
    (∀ i, (tr.countP fun p => p.2.1 = i) ≤ 7) ∧ tr.length ≤ 7 * ids.length ∧ (Settled ids t →
      (ids.countP fun i => (t.locals i).pc.served) = min ids.length xs.length ∧
      (xs.length < ids.length → ∃ j ∈ ids, (t.locals j).pc = .finished none ∧
        ∀ i ∈ ids, i ≠ j → (t.locals i).pc.served = true ∨ (t.locals i).pc = .co_lock)) := by
  have hidle : ∀ i, i ∉ ids → t.locals i = {} := by
    intro i hi
    have hout : ∀ p ∈ tr, p.2.1 ≠ i := by
      rintro p hp rfl
      exact hi (hids p hp)
    rw [locals_eq_of_trace htr hout, hs.2.2 i]
  refine ⟨fun i => ?_, ?_, ?_⟩
  · have hle := countP_le_of_weight (fun c : Call α => c.pc.toGo)
      (fun _ _ _ _ _ h => toGo_lt h) htr i
    have hseven : (s.locals i).pc.toGo = 7 := by rw [hs.2.2 i]; rfl
    omega
  · have hle := Costs.length_le_of_quiet hnodup (Nat.le_succ _)
      (fun _ _ _ _ _ h => costs_pay h) htr hids
    have htotal : costs.total ids s = 7 * ids.length := by
      simp [Costs.total, Costs.due, costs, hs.2.2, Pc.toGo, Nat.mul_comm]
    omega
  · intro hsettled
    rcases good_or_lost hs hxs htr with hgood | hlost
    · obtain ⟨hserved, hle⟩ := hgood.served_all hidle hsettled hxs.nodup hnodup
      rw [List.countP_eq_length.mpr hserved]
      exact ⟨by omega, fun hlt => by omega⟩
    · have hcount := hlost.countP_served hidle hsettled hxs.nodup hnodup
      obtain ⟨j, hmem, hj, hothers⟩ := hlost.holder hidle hsettled
      have hfew : ids.countP (fun i => (t.locals i).pc.served) < ids.length := by
        refine lt_of_le_of_ne List.countP_le_length fun hall => ?_
        have hjserved := List.countP_eq_length.mp hall j hmem
        simp [hj, Pc.served] at hjserved
      exact ⟨by omega, fun _ => ⟨j, hmem, hj, hothers⟩⟩

/-- One block and three calls: the first one gets the block, the second one keeps the mutex. -/
theorem blocks_served_three : ∃ tr t, machine.Trace oneBlock tr t ∧
    tr.map Prod.snd = twoCalls ++ [(1, ()), (2, ())] ∧ tr.length ≤ 7 * 3 ∧
    ([0, 1, 2].countP fun i => (t.locals i).pc.served) = 1 ∧
    ∃ j ∈ [0, 1, 2], (t.locals j).pc = .finished none ∧
      ∀ i ∈ [0, 1, 2], i ≠ j → (t.locals i).pc.served = true ∨ (t.locals i).pc = .co_lock := by
  have hrun : (machine.run oneBlock (twoCalls ++ [(1, ()), (2, ())])).any (fun t =>
      [0, 1, 2].all fun i => (machine.step t (i, ())).isNone) = true := by decide +kernel
  obtain ⟨t, ht, hnone⟩ := (Option.any_eq_true _ _).mp hrun
  obtain ⟨tr, htr, hls⟩ := Machine.Trace.of_run ht
  have hsettled : Settled [0, 1, 2] t := fun i hi =>
    Option.isNone_iff_eq_none.mp (List.all_eq_true.mp hnone i hi)
  have hids : ∀ p ∈ tr, p.2.1 ∈ [0, 1, 2] := by
    have hlabels : ∀ l ∈ twoCalls ++ [(1, ()), (2, ())], l.1 ∈ [0, 1, 2] := by decide
    exact fun p hp => hlabels p.2 (hls ▸ List.mem_map_of_mem hp)
  obtain ⟨-, hle, hcounts⟩ := blocks_served oneBlock_start oneBlock_wellFormed (by decide) htr hids
  obtain ⟨hserved, hlost⟩ := hcounts hsettled
  exact ⟨tr, t, htr, hls, hle, hserved, hlost (by decide)⟩

end QStorage.Tools.Buffer
