import QStorage.Lib.Threads
import Mathlib.Algebra.BigOperators.Group.List.Basic
import Mathlib.Algebra.Order.Ring.Nat

/-!
# Optimistic retries

A thread looks at a shared word, works out a new value and stores it if the word is still what the
thread has seen; else it tries again. Whoever makes others try again has got ahead itself, so the
threads take no more steps than they can pay for, and every run ends.

## Main results

* `Threads.Costs.step` — a step lowers what all threads together have to pay.
* `Threads.Costs.length_le` — the length of a run, but for the attempts that fail without need.
-/

namespace QStorage.Lib.Threads

variable {ι Shared Local Act : Type*}

/-- `weight` pays for the rest of a thread's code, `again` for another attempt of a thread whose
view of the memory is `stale`. -/
structure Costs (Shared Local : Type*) where
  weight : Local → ℕ
  stale : Shared → Local → Bool
  again : ℕ

namespace Costs

variable (k : Costs Shared Local)

def due (x : Shared) (l : Local) : ℕ := k.weight l + if k.stale x l then k.again else 0

/-- What the threads `ids` have to pay. -/
def total (ids : List ι) (s : Threads ι Shared Local) : ℕ :=
  (ids.map fun i => k.due s.shared (s.locals i)).sum

/-- A step either leaves the views of all threads as they were and is paid for, unless it is a
slip, or it pays for another attempt of each of the `others` as well. -/
inductive Pays (others : ℕ) (slip : Bool) (x : Shared) (l : Local) (x' : Shared) (l' : Local) :
    Prop
  | quiet (same : ∀ m, k.stale x' m = k.stale x m) (paid : k.due x' l' < k.due x l)
  | slip (same : ∀ m, k.stale x' m = k.stale x m) (slips : slip = true)
      (paid : k.due x' l' ≤ k.due x l + k.again)
  | ahead (paid : k.due x' l' + k.again * others < k.due x l)

variable {k} {ids : List ι} {others : ℕ} {slip : Act → Bool}
  {act : Shared → Local → Act → Option (Shared × Local)}
  {start : Threads ι Shared Local → Prop} {s t : Threads ι Shared Local} {i : ι} {a : Act}

theorem sum_le_add {f g : ι → ℕ} {c : ℕ} (h : ∀ i, f i ≤ g i + c) (ids : List ι) :
    (ids.map f).sum ≤ (ids.map g).sum + c * ids.length := by
  induction ids with
  | nil => simp
  | cons i ids ih =>
    have hi := h i
    rw [List.map_cons, List.map_cons, List.sum_cons, List.sum_cons, List.length_cons, Nat.mul_succ]
    omega

variable [DecidableEq ι]

theorem step (hnodup : ids.Nodup) (hlen : ids.length ≤ others + 1) (hi : i ∈ ids)
    (hst : (machine act start).step s (i, a) = some t)
    (hpays : k.Pays others (slip a) s.shared (s.locals i) t.shared (t.locals i)) :
    k.total ids t + 1 ≤ k.total ids s + if slip a then k.again + 1 else 0 := by
  have hothers : (ids.erase i).map (fun j => k.due t.shared (t.locals j)) =
      (ids.erase i).map fun j => k.due t.shared (s.locals j) := by
    refine List.map_congr_left fun j hj => ?_
    rw [step_other hst (hnodup.mem_erase_iff.mp hj).1]
  have hs := List.sum_map_erase (fun j => k.due s.shared (s.locals j)) hi
  have ht := List.sum_map_erase (fun j => k.due t.shared (t.locals j)) hi
  rw [hothers] at ht
  rw [total, total, ← hs, ← ht]
  have hsame (h : ∀ m, k.stale t.shared m = k.stale s.shared m) :
      (fun j => k.due t.shared (s.locals j)) = fun j => k.due s.shared (s.locals j) := by
    funext j
    rw [due, due, h]
  cases hpays with
  | quiet same paid =>
    rw [hsame same]
    omega
  | slip same slips paid =>
    rw [hsame same, if_pos slips]
    omega
  | ahead paid =>
    have hle := sum_le_add (f := fun j => k.due t.shared (s.locals j))
      (g := fun j => k.due s.shared (s.locals j)) (c := k.again)
      (fun j => by rw [due, due]; split_ifs <;> omega) (ids.erase i)
    have hfew : k.again * (ids.erase i).length ≤ k.again * others :=
      Nat.mul_le_mul_left _ (by rw [List.length_erase_of_mem hi]; omega)
    omega

/-- The threads of a run that pay for each step, and slip now and then. -/
theorem length_le (hnodup : ids.Nodup) (hlen : ids.length ≤ others + 1)
    (pays : ∀ x l a x' l', act x l a = some (x', l') → k.Pays others (slip a) x l x' l')
    {tr : List (Threads ι Shared Local × (ι × Act))} (h : (machine act start).Trace s tr t)
    (hids : ∀ p ∈ tr, p.2.1 ∈ ids) :
    tr.length + k.total ids t ≤
      k.total ids s + (k.again + 1) * tr.countP fun p => slip p.2.2 := by
  induction h with
  | nil => simp
  | @snoc u v l tr _ hst ih =>
    obtain ⟨i, a⟩ := l
    rw [List.forall_mem_append, List.forall_mem_singleton] at hids
    have hle := ih hids.1
    have hstep := step hnodup hlen hids.2 hst (pays _ _ _ _ _ (step_self hst))
    rw [List.length_append, List.length_singleton, List.countP_append, List.countP_singleton,
      Nat.mul_add]
    cases hslip : slip a with
    | true =>
      rw [hslip, if_pos rfl] at hstep
      rw [if_pos rfl, Nat.mul_one]
      omega
    | false =>
      rw [hslip, if_neg Bool.false_ne_true] at hstep
      rw [if_neg Bool.false_ne_true, Nat.mul_zero]
      omega

/-- The threads of a run without slips. -/
theorem length_le_of_quiet (hnodup : ids.Nodup) (hlen : ids.length ≤ others + 1)
    (pays : ∀ x l a x' l', act x l a = some (x', l') → k.Pays others false x l x' l')
    {tr : List (Threads ι Shared Local × (ι × Act))} (h : (machine act start).Trace s tr t)
    (hids : ∀ p ∈ tr, p.2.1 ∈ ids) : tr.length + k.total ids t ≤ k.total ids s := by
  have hle := length_le hnodup hlen pays h hids
  simpa using hle

end Costs

end QStorage.Lib.Threads
