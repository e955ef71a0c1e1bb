import Mathlib.Data.List.Nodup
import Mathlib.Data.List.Perm.Basic
import Mathlib.Data.List.Range
import Mathlib.Logic.Function.Basic

/-!
# Stores and lists of assignments

`store m xs` performs the assignments `xs` on the total map `m`, the last one to a
key winning. Assignments to distinct keys can be performed in any order.
-/

namespace QStorage.Lib

variable {α β : Type*} [DecidableEq α]

def store (m : α → β) (xs : List (α × β)) : α → β :=
  xs.foldl (fun m x => Function.update m x.1 x.2) m

@[simp] theorem store_nil (m : α → β) : store m [] = m := rfl

theorem store_append (m : α → β) (xs ys : List (α × β)) :
    store m (xs ++ ys) = store (store m xs) ys := List.foldl_append

/-- Assignments to pairwise distinct keys commute. -/
theorem store_perm (m : α → β) {xs ys : List (α × β)} (hnd : (xs.map Prod.fst).Nodup)
    (h : xs.Perm ys) : store m xs = store m ys := by
  refine h.foldl_eq' ?_ m
  intro x hx y hy m
  by_cases hxy : x.1 = y.1
  · rw [List.inj_on_of_nodup_map hnd hx hy hxy]
  · exact Function.update_comm hxy _ _ _

end QStorage.Lib
