import QStorage.Lib.Machine
import Mathlib.Algebra.Order.Ring.Nat

/-!
# What a machine can still do

Safety says what no run does; here is the other half, what some run from a state still does,
and what no run from it will do again. The first is proved with a rank that falls with every
step of one schedule, the second with a set of states that no step leaves.

## Main definitions

* `Machine.CanReach` — some run leads to a state with a property.
* `Machine.CanTake` — some run takes a step of a kind.
-/

namespace QStorage.Lib.Machine

variable {State Label : Type*} {M : Machine State Label} {s t : State}

/-- What every step keeps, a run keeps. -/
theorem Trace.keep {I : State → Prop} (keep : ∀ s l t, I s → M.step s l = some t → I t)
    {tr : List (State × Label)} (h : M.Trace s tr t) (hs : I s) : I t := by
  induction h with
  | nil => exact hs
  | snoc _ hst ih => exact keep _ _ _ ih hst

/-- What every step with `ok` keeps, a run of such steps keeps. -/
theorem Trace.keep_of_ok {I : State → Prop} {ok : State → Label → Prop}
    (keep : ∀ s l t, I s → ok s l → M.step s l = some t → I t)
    {tr : List (State × Label)} (h : M.Trace s tr t) (hs : I s) (hok : ∀ p ∈ tr, ok p.1 p.2) :
    I t := by
  induction h with
  | nil => exact hs
  | snoc _ hst ih =>
    rw [List.forall_mem_append, List.forall_mem_singleton] at hok
    exact keep _ _ _ (ih hok.1) hok.2 hst

theorem Reachable.trace {tr : List (State × Label)} (h : M.Reachable s) (htr : M.Trace s tr t) :
    M.Reachable t :=
  htr.keep (fun _ _ _ hs hst => hs.next hst) h

variable (M) in
/-- Some run from `s` leads to a state with `P`. -/
def CanReach (s : State) (P : State → Prop) : Prop := ∃ tr t, M.Trace s tr t ∧ P t

variable (M) in
/-- Some run from `s` takes a step with `Q`. -/
def CanTake (s : State) (Q : Label → Prop) : Prop :=
  ∃ tr t l u, M.Trace s tr t ∧ M.step t l = some u ∧ Q l

theorem CanReach.here {P : State → Prop} (hs : P s) : M.CanReach s P := ⟨[], s, .nil, hs⟩

theorem CanReach.after {P : State → Prop} {l : Label} (hst : M.step s l = some t)
    (h : M.CanReach t P) : M.CanReach s P := by
  obtain ⟨tr, u, htr, hu⟩ := h
  exact ⟨_, u, (Trace.nil.snoc hst).append htr, hu⟩

theorem CanReach.trans {P R : State → Prop} (h : M.CanReach s P)
    (hP : ∀ t, P t → M.CanReach t R) : M.CanReach s R := by
  obtain ⟨tr, t, htr, ht⟩ := h
  obtain ⟨tr', u, htr', hu⟩ := hP t ht
  exact ⟨_, u, htr.append htr', hu⟩

/-- A schedule that lowers a rank again and again, as long as `P` does not hold, leads to `P`. -/
theorem canReach_of_rank {I P : State → Prop} (rank : State → ℕ)
    (advance : ∀ s, I s → ¬ P s → M.CanReach s fun t => I t ∧ rank t < rank s)
    (hs : I s) : M.CanReach s P := by
  induction hn : rank s using Nat.strongRecOn generalizing s with
  | ind n ih =>
    by_cases hP : P s
    · exact .here hP
    · exact (advance s hs hP).trans fun t ht => ih (rank t) (hn ▸ ht.2) ht.1 rfl

theorem CanReach.reachable {P : State → Prop} (h : M.CanReach s P) (hs : M.Reachable s) :
    M.CanReach s fun t => M.Reachable t ∧ P t := by
  obtain ⟨tr, t, htr, ht⟩ := h
  exact ⟨tr, t, htr, hs.trace htr, ht⟩

theorem CanTake.now {Q : Label → Prop} {l : Label} (hst : M.step s l = some t) (hl : Q l) :
    M.CanTake s Q := ⟨[], s, l, t, .nil, hst, hl⟩

theorem CanReach.canTake {P : State → Prop} {Q : Label → Prop} (h : M.CanReach s P)
    (hP : ∀ t, P t → M.CanTake t Q) : M.CanTake s Q := by
  obtain ⟨tr, t, htr, ht⟩ := h
  obtain ⟨tr', u, l, v, htr', hst, hl⟩ := hP t ht
  exact ⟨_, u, l, v, htr.append htr', hst, hl⟩

/-- From a set of states that no step leaves and in which no step with `Q` is enabled, no such
step is ever taken. -/
theorem not_canTake_of_trap {I : State → Prop} {Q : Label → Prop}
    (trap : ∀ s l t, I s → M.step s l = some t → I t ∧ ¬ Q l) (hs : I s) : ¬ M.CanTake s Q := by
  rintro ⟨tr, t, l, u, htr, hst, hl⟩
  have ht : I t := htr.keep (fun s l t hs hst => (trap s l t hs hst).1) hs
  exact (trap t l u ht hst).2 hl

end QStorage.Lib.Machine
