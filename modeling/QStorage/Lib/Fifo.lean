import QStorage.Lib.Machine

/-!
# Bounded first-in first-out channels

The specification of a channel of a given capacity: items leave in the order in which
they came, and a full channel takes none.
-/

namespace QStorage.Lib.Fifo

variable {T : Type*}

inductive Label (T : Type*) where
  | put (x : T)
  | get

def machine (T : Type*) (capacity : Nat) : Machine (List T) (Label T) where
  start items := items = []
  step items l := match l with
    | .put x => if items.length < capacity then some (items ++ [x]) else none
    | .get => items.tail?

theorem length_le {capacity : Nat} {items : List T} (h : (machine T capacity).Reachable items) :
    items.length ≤ capacity := by
  induction h using Machine.Reachable.induction with
  | init s hs => simp [show s = [] from hs]
  | next s l t _ hst ih =>
    cases l with
    | put x =>
      simp only [machine, Option.ite_none_right_eq_some, Option.some.injEq] at hst
      obtain ⟨hroom, rfl⟩ := hst
      simpa using Nat.succ_le_of_lt hroom
    | get =>
      cases s with
      | nil => simp [machine] at hst
      | cons x xs =>
        obtain rfl : xs = t := by simpa [machine] using hst
        simp only [List.length_cons] at ih
        omega

end QStorage.Lib.Fifo
