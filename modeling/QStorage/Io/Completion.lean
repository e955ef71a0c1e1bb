import Mathlib.Algebra.Order.Ring.Int
import Mathlib.Tactic.Common

/-!
# The completion of a request (`io/reactor.h`, `io/posix.h`)

The kernel's result reaches the waiter through `CompleteWith`, which tells it a byte count or an
exception. The exception comes from `ThrowKernelError`, and what that does not throw is not told.

## Main results

* `IoCompletion.CompleteWith_error` — the calls for an error.
* `IoCompletion.delivered_iff` — the results that reach the waiter.
-/

namespace QStorage.Io

def EBADF : ℤ := 9

def ENOTSOCK : ℤ := 88

/-- `std::system_error` of the system category. -/
structure SystemError where
  ec : ℤ
  deriving DecidableEq, Repr

/-- The smallest `ssize_t`, which has no negation. -/
def kMinSsize : ℤ := -2 ^ 63

/-- `ThrowKernelError` at `ssize_t`: `none` where the negation overflows. -/
def ThrowKernelError (r : BitVec 64) : Option (Except SystemError Unit) :=
  if r.toInt < 0 then
    if r.toInt = kMinSsize then none
    else
      let ec := (-r).toInt
      if ec = EBADF ∨ ec = ENOTSOCK then some (throw ⟨ec⟩) else some (pure ())
  else some (pure ())

/-- `-r`, unless it overflows. -/
theorem toInt_neg_of_ne {r : BitVec 64} (h : r.toInt ≠ kMinSsize) : (-r).toInt = -r.toInt := by
  apply BitVec.toInt_neg_of_ne_intMin
  intro hmin
  rw [hmin] at h
  exact h (by decide)

/-- Of all errors only two are thrown. -/
theorem ThrowKernelError_eq {r : BitVec 64} (hneg : r.toInt < 0) (hmin : r.toInt ≠ kMinSsize) :
    ThrowKernelError r =
      if -r.toInt = EBADF ∨ -r.toInt = ENOTSOCK then some (throw ⟨-r.toInt⟩)
      else some (pure ()) := by
  rw [ThrowKernelError, if_pos hneg, if_neg hmin, toInt_neg_of_ne hmin]

namespace IoCompletion

/-- The two functions that a completion overrides. -/
inductive Call where
  | Complete (res : ℕ)
  | SetException (eptr : SystemError)
  deriving DecidableEq, Repr

/-- The calls that `CompleteWith` makes. -/
def CompleteWith (res : BitVec 64) : Option (List Call) :=
  if 0 ≤ res.toInt then some [.Complete res.toNat]
  else
    (ThrowKernelError res).map fun
      | .ok () => []
      | .error eptr => [.SetException eptr]

/-- What the waiter is to be told: the count, or the error. -/
def outcome (res : BitVec 64) : Call :=
  if 0 ≤ res.toInt then .Complete res.toInt.toNat else .SetException ⟨-res.toInt⟩

/-- The waiter is told the outcome, and nothing else. -/
def Delivered (res : BitVec 64) : Prop := CompleteWith res = some [outcome res]

instance (res : BitVec 64) : Decidable (Delivered res) :=
  inferInstanceAs (Decidable (_ = _))

theorem CompleteWith_count {res : BitVec 64} (h : 0 ≤ res.toInt) :
    CompleteWith res = some [outcome res] := by
  have htoNat : res.toNat = res.toInt.toNat := by
    have hcond := BitVec.toInt_eq_toNat_cond res
    have hlt := res.isLt
    split at hcond <;> omega
  rw [CompleteWith, outcome, if_pos h, if_pos h, htoNat]

theorem CompleteWith_error {res : BitVec 64} (hneg : res.toInt < 0)
    (hmin : res.toInt ≠ kMinSsize) :
    CompleteWith res =
      some (if -res.toInt = EBADF ∨ -res.toInt = ENOTSOCK then [outcome res] else []) := by
  have hcount : ¬ 0 ≤ res.toInt := by omega
  rw [CompleteWith, outcome, if_neg hcount, if_neg hcount, ThrowKernelError_eq hneg hmin]
  split_ifs <;> rfl

/-- A count is delivered, an error only if it is one of the two that are thrown; for any other
one neither function is called. -/
theorem delivered_iff (res : BitVec 64) :
    Delivered res ↔ 0 ≤ res.toInt ∨ -res.toInt = EBADF ∨ -res.toInt = ENOTSOCK := by
  by_cases hcount : 0 ≤ res.toInt
  · exact iff_of_true (CompleteWith_count hcount) (.inl hcount)
  · have hneg : res.toInt < 0 := by omega
    by_cases hmin : res.toInt = kMinSsize
    · have hnone : CompleteWith res = none := by
        rw [CompleteWith, if_neg hcount, ThrowKernelError, if_pos hneg, if_pos hmin]
        rfl
      apply iff_of_false
      · rw [Delivered, hnone]
        exact Option.some_ne_none _ ∘ Eq.symm
      · simp only [hmin, kMinSsize, EBADF, ENOTSOCK]
        decide
    · rw [Delivered, CompleteWith_error hneg hmin]
      split_ifs with hthrown
      · exact iff_of_true rfl (.inr hthrown)
      · apply iff_of_false (by simp)
        rintro (hcount' | hthrown')
        · exact hcount hcount'
        · exact hthrown hthrown'

/-- `EIO` is lost. -/
theorem not_delivered : ¬ ∀ res : BitVec 64, Delivered res := by
  intro h
  have hlost := h (BitVec.ofInt 64 (-5))
  revert hlost
  decide

end IoCompletion

end QStorage.Io
