import Mathlib.Algebra.Order.Ring.Nat
import Mathlib.Data.List.Count
import Mathlib.Data.List.Nodup
import Mathlib.Logic.Function.Basic

/-!
# Tallies and logs

How many of the listed participants are in a state of a given kind, and how that number
moves when one participant changes its state. `Logs g f W` says that the log `W` has exactly
one entry for each participant whose state carries one.
-/

namespace QStorage.Lib

variable {ι α : Type*}

/-- The number of `ids` whose state under `f` satisfies `p`. -/
def tally (ids : List ι) (f : ι → α) (p : α → Bool) : ℕ := ids.countP fun i => p (f i)

variable {ids : List ι} {f : ι → α} {p : α → Bool} {i : ι} {a : α}

@[simp] theorem tally_nil : tally [] f p = 0 := rfl

@[simp] theorem tally_append_singleton :
    tally (ids ++ [i]) f p = tally ids f p + (p (f i)).toNat := by
  cases hp : p (f i) <;> simp [tally, List.countP_append, hp]

theorem tally_congr {g : ι → α} (h : ∀ j ∈ ids, f j = g j) : tally ids f p = tally ids g p :=
  List.countP_congr fun j hj => by rw [h j hj]

theorem tally_pos (hi : i ∈ ids) (hp : p (f i) = true) : 0 < tally ids f p :=
  List.countP_pos_iff.mpr ⟨i, hi, hp⟩

theorem tally_le_length : tally ids f p ≤ ids.length := List.countP_le_length

theorem tally_eq_length : tally ids f p = ids.length ↔ ∀ j ∈ ids, p (f j) = true :=
  List.countP_eq_length

/-- Each of the listed is counted under one of the keys below `k`, or under none. -/
theorem sum_countP_range (key : ι → ℕ) (k : ℕ) :
    ((List.range k).map fun n => ids.countP fun i => key i = n).sum =
      ids.countP fun i => key i < k := by
  induction k with
  | zero => simp
  | succ k ih =>
    rw [List.range_succ, List.map_append, List.sum_append, ih]
    simp only [List.map_cons, List.map_nil, List.sum_singleton]
    clear ih
    induction ids with
    | nil => rfl
    | cons j ids ih =>
      simp only [List.countP_cons, decide_eq_true_eq]
      split_ifs <;> omega

/-- A kind that falls into two. -/
theorem tally_add {q r : α → Bool}
    (h : ∀ j ∈ ids, (p (f j)).toNat = (q (f j)).toNat + (r (f j)).toNat) :
    tally ids f p = tally ids f q + tally ids f r := by
  have hcons (p : α → Bool) (j : ι) (ids : List ι) :
      tally (j :: ids) f p = tally ids f p + (p (f j)).toNat := by
    cases hp : p (f j) <;> simp [tally, hp]
  induction ids with
  | nil => rfl
  | cons j ids ih =>
    have hj := h j (by simp)
    have hrest := ih fun k hk => h k (by simp [hk])
    rw [hcons, hcons, hcons]
    omega

theorem tally_eq_zero : tally ids f p = 0 ↔ ∀ j ∈ ids, p (f j) = false := by
  simp [tally]

variable [DecidableEq ι]

theorem tally_update_of_not_mem (hi : i ∉ ids) :
    tally ids (Function.update f i a) p = tally ids f p :=
  tally_congr fun _ hj => Function.update_of_ne (ne_of_mem_of_not_mem hj hi) _ _

/-- One listed participant moves from `f i` to `a`. -/
theorem tally_update (hnd : ids.Nodup) (hi : i ∈ ids) :
    tally ids (Function.update f i a) p + (p (f i)).toNat = tally ids f p + (p a).toNat := by
  induction ids with
  | nil => simp at hi
  | cons j ids ih =>
    obtain ⟨hj, hnd⟩ := List.nodup_cons.mp hnd
    have hcons (g : ι → α) : tally (j :: ids) g p = tally ids g p + (p (g j)).toNat := by
      cases hp : p (g j) <;> simp [tally, hp]
    rw [hcons, hcons]
    by_cases hij : i = j
    · subst hij
      rw [tally_update_of_not_mem hj, Function.update_self]
      omega
    · have := ih hnd (List.mem_of_ne_of_mem hij hi)
      rw [Function.update_of_ne (Ne.symm hij)]
      omega

/-- The same for a sum of weights. -/
theorem sum_update {g : α → ℕ} (hnd : ids.Nodup) (hi : i ∈ ids) :
    (ids.map fun j => g (Function.update f i a j)).sum + g (f i) =
      (ids.map fun j => g (f j)).sum + g a := by
  induction ids with
  | nil => simp at hi
  | cons j ids ih =>
    obtain ⟨hj, hnd⟩ := List.nodup_cons.mp hnd
    rw [List.map_cons, List.map_cons, List.sum_cons, List.sum_cons]
    by_cases hij : i = j
    · subst hij
      have hrest : (ids.map fun j => g (Function.update f i a j)) = ids.map fun j => g (f j) :=
        List.map_congr_left fun k hk => by
          rw [Function.update_of_ne (ne_of_mem_of_not_mem hk hj)]
      rw [hrest, Function.update_self]
      omega
    · have := ih hnd (List.mem_of_ne_of_mem hij hi)
      rw [Function.update_of_ne (Ne.symm hij)]
      omega

/-- The log `W` holds the entries that the states under `f` carry, each once. -/
structure Logs {β : Type*} (g : α → Option β) (f : ι → α) (W : List (ι × β)) : Prop where
  nodup : (W.map Prod.fst).Nodup
  mem_iff : ∀ j x, (j, x) ∈ W ↔ g (f j) = some x

namespace Logs

variable {β : Type*} {g : α → Option β} {W : List (ι × β)} {x : β}

omit [DecidableEq ι] in
/-- The log is as long as the number of participants with an entry. -/
theorem length_eq (h : Logs g f W) (hnd : ids.Nodup)
    (hids : ∀ j x, g (f j) = some x → j ∈ ids) :
    W.length = tally ids f fun a => (g a).isSome := by
  have hperm : (W.map Prod.fst).Perm (ids.filter fun j => (g (f j)).isSome) := by
    rw [List.perm_ext_iff_of_nodup h.nodup (hnd.filter _)]
    intro j
    simp only [List.mem_map, Prod.exists, exists_and_right, exists_eq_right, h.mem_iff,
      List.mem_filter, Option.isSome_iff_exists]
    exact ⟨fun ⟨x, hx⟩ => ⟨hids j x hx, x, hx⟩, fun ⟨_, hx⟩ => hx⟩
  rw [tally, List.countP_eq_length_filter, ← hperm.length_eq, List.length_map]

/-- The new state of `i` carries the same entry as the old one. -/
theorem update (h : Logs g f W) (ha : g a = g (f i)) : Logs g (Function.update f i a) W := by
  refine ⟨h.nodup, fun j y => ?_⟩
  rw [h.mem_iff]
  by_cases hj : j = i
  · subst hj
    rw [Function.update_self, ha]
  · rw [Function.update_of_ne hj]

/-- The new state of `i` carries the first entry of `i`, which is logged. -/
theorem append (h : Logs g f W) (hi : g (f i) = none) (ha : g a = some x) :
    Logs g (Function.update f i a) (W ++ [(i, x)]) := by
  have hfresh : i ∉ W.map Prod.fst := by
    intro hmem
    obtain ⟨⟨j, y⟩, hy, rfl⟩ := List.mem_map.mp hmem
    simp [(h.mem_iff j y).mp hy] at hi
  refine ⟨?_, fun j y => ?_⟩
  · rw [List.map_append, List.nodup_append]
    refine ⟨h.nodup, by simp, ?_⟩
    intro k hk l hl
    obtain rfl : l = i := by simpa using hl
    exact ne_of_mem_of_not_mem hk hfresh
  · rw [List.mem_append, h.mem_iff]
    by_cases hj : j = i
    · subst hj
      simp [hi, ha, eq_comm]
    · simp [hj]

end Logs

end QStorage.Lib
