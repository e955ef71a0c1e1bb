import Mathlib.Algebra.Order.Ring.Nat

/-!
# Address spaces

What stands behind each address of a process, byte by byte, and what mapping and unmapping a range
does to it. Two addresses may stand for one byte: a store through one is then seen through the
other.
-/

namespace QStorage.Lib

/-- An address is reserved and may not be touched, or it is a byte of a shared object. -/
inductive Target where
  | reserved
  | shared (obj offset : ℕ)
  deriving DecidableEq, Repr

/-- `none` is an address that is not mapped. -/
def AddressSpace := ℕ → Option Target

namespace AddressSpace

/-- Map the addresses from `start` on; `f` gives what stands behind each, by its distance. -/
def map (a : AddressSpace) (start len : ℕ) (f : ℕ → Target) : AddressSpace := fun x =>
  if start ≤ x ∧ x < start + len then some (f (x - start)) else a x

def unmap (a : AddressSpace) (start len : ℕ) : AddressSpace := fun x =>
  if start ≤ x ∧ x < start + len then none else a x

/-- No address of the range is mapped. -/
def Free (a : AddressSpace) (start len : ℕ) : Prop :=
  ∀ x, start ≤ x → x < start + len → a x = none

variable {a : AddressSpace} {start len x : ℕ} {f : ℕ → Target}

theorem map_of_mem (hle : start ≤ x) (hlt : x < start + len) :
    a.map start len f x = some (f (x - start)) := if_pos ⟨hle, hlt⟩

theorem map_of_not_mem (h : x < start ∨ start + len ≤ x) : a.map start len f x = a x :=
  if_neg (by omega)

theorem unmap_of_mem (hle : start ≤ x) (hlt : x < start + len) : a.unmap start len x = none :=
  if_pos ⟨hle, hlt⟩

theorem unmap_of_not_mem (h : x < start ∨ start + len ≤ x) : a.unmap start len x = a x :=
  if_neg (by omega)

end AddressSpace

/-- An address space and the bytes of the shared objects. -/
structure Memory where
  space : AddressSpace
  bytes : ℕ → ℕ → BitVec 8

namespace Memory

variable {m m' : Memory} {x y : ℕ} {b : BitVec 8}

/-- The byte at an address, or `none` for a fault. -/
def load (m : Memory) (x : ℕ) : Option (BitVec 8) :=
  match m.space x with
  | some (.shared obj off) => some (m.bytes obj off)
  | _ => none

def store (m : Memory) (x : ℕ) (b : BitVec 8) : Option Memory :=
  match m.space x with
  | some (.shared obj off) =>
    some { m with bytes := Function.update m.bytes obj (Function.update (m.bytes obj) off b) }
  | _ => none

theorem load_of_shared {obj off : ℕ} (hx : m.space x = some (.shared obj off)) :
    m.load x = some (m.bytes obj off) := by rw [load, hx]

theorem store_isSome {obj off : ℕ} (hx : m.space x = some (.shared obj off)) :
    (m.store x b).isSome = true := by
  rw [store, hx]
  rfl

theorem store_cases (h : m.store x b = some m') : ∃ obj off,
    m.space x = some (.shared obj off) ∧ m'.space = m.space ∧
      m'.bytes = Function.update m.bytes obj (Function.update (m.bytes obj) off b) := by
  unfold store at h
  split at h
  · next obj off hx =>
    obtain rfl := Option.some.inj h
    exact ⟨obj, off, hx, rfl, rfl⟩
  · cases h

theorem store_space (h : m.store x b = some m') : m'.space = m.space := by
  obtain ⟨obj, off, -, hspace, -⟩ := store_cases h
  exact hspace

/-- A store is seen at every address that stands for the same byte. -/
theorem load_store_of_eq (h : m.store x b = some m') (hy : m.space y = m.space x) :
    m'.load y = some b := by
  obtain ⟨obj, off, hx, hspace, hbytes⟩ := store_cases h
  rw [load_of_shared (by rw [hspace, hy, hx]), hbytes, Function.update_self,
    Function.update_self]

/-- A store is not seen elsewhere. -/
theorem load_store_of_ne (h : m.store x b = some m') (hy : m.space y ≠ m.space x) :
    m'.load y = m.load y := by
  obtain ⟨obj, off, hx, hspace, hbytes⟩ := store_cases h
  rw [load, load, hspace, hbytes]
  split
  · next obj' off' hy' =>
    by_cases hobj : obj' = obj
    · subst hobj
      have hoff : off' ≠ off := by
        rintro rfl
        exact hy (hy'.trans hx.symm)
      rw [Function.update_self, Function.update_of_ne hoff]
    · rw [Function.update_of_ne hobj]
  · rfl

end Memory

end QStorage.Lib
