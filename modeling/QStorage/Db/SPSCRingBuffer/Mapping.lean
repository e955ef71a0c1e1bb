import QStorage.Db.SPSCRingBuffer
import QStorage.Lib.AddressSpace
import QStorage.Lib.Progress
import Mathlib.Tactic.Simps.Basic

/-!
# The double mapping (`db/sp_ring_buffer.h`)

The constructor makes a shared memory object and maps it twice in a row, into a range that it has
reserved before; the destructor unmaps both. A constructor that throws runs no destructor, and it
closes the descriptor on one of its failing paths only. Nobody looks at what `shm_unlink` and
`munmap` return.

## Main results

* `RingProcess.mapped_twice` — in a run of constructions and destructions, every live ring is mapped
  twice and apart from the others, and all other addresses are as they were; each ring has an object
  of its own as long as no `shm_unlink` fails.
* `RingProcess.descriptors_left` — how many descriptors are lost.
-/

namespace QStorage.Db

open QStorage.Lib

/-- What the system holds for the process. -/
structure Os where
  space : AddressSpace
  /-- The open descriptors, each with the object behind it. -/
  fds : List (ℕ × ℕ) := []
  /-- The object that has the name of the ring. -/
  name : Option ℕ := none
  size : ℕ → ℕ := fun _ => 0
  /-- Objects made so far; the next one is new. -/
  objects : ℕ := 0

/-- How the system answers the calls of one construction. Each flag tells whether the call
succeeds, `raw_space` is what the first `mmap` returns, and `kept` tells which addresses a failed
`mmap` with `MAP_FIXED` leaves as they were. There is no flag for `close`, which gives the
descriptor up whatever it returns. -/
structure Answers where
  fd : ℕ
  create : Bool
  reopen : Bool
  unlink : Bool := true
  truncate : Bool
  reserve : Bool
  unmap : Bool := true
  first : Bool
  second : Bool
  raw_space : ℕ
  kept : ℕ → Bool := fun _ => true

namespace Os

variable (os : Os) (a : Answers)

/-- `shm_open` with `O_CREAT | O_EXCL`, then without. -/
def shm_open : Option (ℕ × Os) :=
  if a.create = true ∧ os.name = none then
    some (os.objects, { os with
      fds := (a.fd, os.objects) :: os.fds
      name := some os.objects
      objects := os.objects + 1 })
  else
    match os.name with
    | some obj => if a.reopen then some (obj, { os with fds := (a.fd, obj) :: os.fds }) else none
    | none => none

@[simps]
def shm_unlink : Os := { os with name := if a.unlink then none else os.name }

@[simps]
def ftruncate (obj size : ℕ) : Os := { os with size := Function.update os.size obj size }

@[simps]
def close (fd : ℕ) : Os := { os with fds := os.fds.filter (·.1 ≠ fd) }

@[simps]
def mmap (start len : ℕ) (f : ℕ → Target) : Os := { os with space := os.space.map start len f }

/-- `munmap`; when it fails, the range stays mapped. -/
@[simps]
def munmap (done : Bool) (start len : ℕ) : Os :=
  { os with space := if done then os.space.unmap start len else os.space }

/-- A failed `mmap` with `MAP_FIXED`. -/
@[simps]
def damage (start len : ℕ) : Os :=
  { os with space := fun x =>
      if (start ≤ x ∧ x < start + len) ∧ a.kept x = false then none else os.space x }

end Os

namespace Os

theorem damage_of_not_mem {os : Os} {a : Answers} {start len x : ℕ}
    (h : x < start ∨ start + len ≤ x) : (os.damage a start len).space x = os.space x :=
  if_neg (by omega)

/-- The two differ in the address space only. -/
structure SameFiles (os os' : Os) : Prop where
  fds : os'.fds = os.fds
  name : os'.name = os.name
  size : os'.size = os.size
  objects : os'.objects = os.objects

namespace SameFiles

variable {os os' : Os} {start len : ℕ}

theorem refl (os : Os) : SameFiles os os := ⟨rfl, rfl, rfl, rfl⟩

theorem mmap {f : ℕ → Target} (h : SameFiles os os') : SameFiles os (os'.mmap start len f) :=
  ⟨h.fds, h.name, h.size, h.objects⟩

theorem munmap {done : Bool} (h : SameFiles os os') : SameFiles os (os'.munmap done start len) :=
  ⟨h.fds, h.name, h.size, h.objects⟩

theorem damage {a : Answers} (h : SameFiles os os') : SameFiles os (os'.damage a start len) :=
  ⟨h.fds, h.name, h.size, h.objects⟩

end SameFiles

end Os

namespace SPSCRingBuffer

/-- The constructor: the address of the ring or the text it throws. -/
def constructor (os : Os) (a : Answers) : Os × Except String ℕ :=
  match os.shm_open a with
  | none => (os, .error "Failed to create/open shared memory object.")
  | some (obj, os) =>
    let os := os.shm_unlink a
    if a.truncate = false then
      (os.close a.fd, .error "Failed to set size of shared memory.")
    else
      let os := os.ftruncate obj kBufferSize
      if a.reserve = false then (os, .error "Initial mmap failed")
      else
        let os := os.mmap a.raw_space cap fun _ => .reserved
        let os :=
          if kBlockSize - kPageSize > 0 then
            os.munmap a.unmap a.raw_space (kBlockSize - kPageSize)
          else os
        let buffer_ := a.raw_space + (kBlockSize - kPageSize)
        if a.first = false then
          (os.damage a buffer_ kBufferSize, .error "First hardware mapping failed")
        else
          let os := os.mmap buffer_ kBufferSize fun i => .shared obj i
          if a.second = false then
            (os.damage a (buffer_ + kBufferSize) kBufferSize,
              .error "Second hardware mapping failed")
          else
            let os := os.mmap (buffer_ + kBufferSize) kBufferSize fun i => .shared obj i
            (os.close a.fd, .ok buffer_)

/-- The destructor of a ring whose constructor has returned. -/
def destructor (os : Os) (unmap : Bool) (buffer_ : ℕ) : Os :=
  os.munmap unmap buffer_ (kBufferSize * 2)

/-- The address of the ring. -/
def base (a : Answers) : ℕ := a.raw_space + (kBlockSize - kPageSize)

/-- The descriptor stays open: the object is there, and an `mmap` fails. -/
def LeavesOpen (os : Os) (a : Answers) : Prop :=
  (os.shm_open a).isSome = true ∧ a.truncate = true ∧
    (a.reserve = false ∨ a.first = false ∨ a.second = false)

/-- The reservation stays: an `mmap` into it fails. -/
def LeavesRange (os : Os) (a : Answers) : Prop :=
  (os.shm_open a).isSome = true ∧ a.truncate = true ∧ a.reserve = true ∧
    (a.first = false ∨ a.second = false)

/-- The front of the reservation stays: its `munmap` fails. -/
def LeavesFront (os : Os) (a : Answers) : Prop :=
  (os.shm_open a).isSome = true ∧ a.truncate = true ∧ a.reserve = true ∧ a.unmap = false

instance (os : Os) (a : Answers) : Decidable (LeavesOpen os a) :=
  inferInstanceAs (Decidable (_ ∧ _))

instance (os : Os) (a : Answers) : Decidable (LeavesRange os a) :=
  inferInstanceAs (Decidable (_ ∧ _))

instance (os : Os) (a : Answers) : Decidable (LeavesFront os a) :=
  inferInstanceAs (Decidable (_ ∧ _))

/-- What a construction leaves of its reservation, each range with its two ends. -/
def leftover (os : Os) (a : Answers) : List (ℕ × ℕ) :=
  (if LeavesFront os a then [(a.raw_space, base a)] else []) ++
    if LeavesRange os a then [(base a, base a + 2 * kBufferSize)] else []

/-- The address is in one of the ranges. -/
def Within (ranges : List (ℕ × ℕ)) (x : ℕ) : Prop := ∃ r ∈ ranges, r.1 ≤ x ∧ x < r.2

section Constructor

variable {os : Os} {a : Answers}

theorem shm_open_some {obj : ℕ} {o : Os} (h : os.shm_open a = some (obj, o)) :
    o.space = os.space ∧ o.fds = (a.fd, obj) :: os.fds ∧ o.size = os.size ∧ o.name = some obj ∧
      ((obj = os.objects ∧ o.objects = os.objects + 1) ∨
        (os.name = some obj ∧ o.objects = os.objects)) := by
  by_cases hcreate : a.create = true ∧ os.name = none
  · rw [Os.shm_open, if_pos hcreate] at h
    obtain ⟨rfl, rfl⟩ : os.objects = obj ∧ _ = o := by simpa using h
    exact ⟨rfl, rfl, rfl, rfl, .inl ⟨rfl, rfl⟩⟩
  · rw [Os.shm_open, if_neg hcreate] at h
    cases hname : os.name with
    | none => simp [hname] at h
    | some old =>
      simp only [hname, Option.ite_none_right_eq_some, Option.some.injEq, Prod.mk.injEq] at h
      obtain ⟨-, rfl, rfl⟩ := h
      exact ⟨rfl, rfl, rfl, rfl, .inr ⟨rfl, rfl⟩⟩

theorem close_new {o : Os} {obj : ℕ} {fds : List (ℕ × ℕ)} (hfds : o.fds = (a.fd, obj) :: fds)
    (hnew : a.fd ∉ fds.map Prod.fst) : (o.close a.fd).fds = fds := by
  have hkeep : fds.filter (·.1 ≠ a.fd) = fds := by
    rw [List.filter_eq_self]
    intro p hp
    simpa using fun heq : p.1 = a.fd => hnew (heq ▸ List.mem_map_of_mem hp)
  simpa [Os.close, hfds] using hkeep

/-- What a constructor that returns has done. -/
structure Built (os : Os) (a : Answers) (obj : ℕ) (o : Os) : Prop where
  closed : ¬ LeavesOpen os a
  mapped : ∀ x, base a ≤ x → x < base a + 2 * kBufferSize →
    o.space x = some (.shared obj ((x - base a) % kBufferSize))
  rest : ∀ x, x < base a ∨ base a + 2 * kBufferSize ≤ x → ¬ Within (leftover os a) x →
    o.space x = os.space x
  fds : o.fds = os.fds
  name : o.name = if a.unlink then none else some obj
  size : o.size = Function.update os.size obj kBufferSize
  objects : (obj = os.objects ∧ o.objects = os.objects + 1) ∨
    (os.name = some obj ∧ o.objects = os.objects)

/-- What a constructor that throws has done. -/
structure Thrown (os : Os) (a : Answers) (o : Os) : Prop where
  space : ∀ x, ¬ Within (leftover os a) x → o.space x = os.space x
  fds : o.fds.length = os.fds.length + if LeavesOpen os a then 1 else 0
  name : o.name = os.name ∨ o.name = none ∨
    a.unlink = false ∧ ∃ obj < o.objects, o.name = some obj
  size : ∀ obj, o.size obj = os.size obj ∨ o.size obj = kBufferSize
  objects : os.objects ≤ o.objects

theorem cap_eq : cap = (kBlockSize - kPageSize) + 2 * kBufferSize := by decide

/-- Outside the ring, the reservation is given back. -/
theorem reserved_space {o : Os} (hfree : o.space.Free a.raw_space cap) {x : ℕ}
    (hx : x < base a ∨ base a + 2 * kBufferSize ≤ x)
    (hfront : a.unmap = false → x < a.raw_space ∨ base a ≤ x) :
    ((o.mmap a.raw_space cap fun _ => .reserved).munmap a.unmap a.raw_space
      (kBlockSize - kPageSize)).space x = o.space x := by
  have hcap := cap_eq
  rw [base] at hx hfront
  rw [Os.munmap_space, Os.mmap_space]
  cases hunmap : a.unmap with
  | false =>
    have hout := hfront hunmap
    rw [if_neg Bool.false_ne_true, AddressSpace.map_of_not_mem (by omega)]
  | true =>
    rw [if_pos rfl]
    by_cases hin : a.raw_space ≤ x ∧ x < a.raw_space + (kBlockSize - kPageSize)
    · rw [AddressSpace.unmap_of_mem hin.1 hin.2, hfree x hin.1 (by omega)]
    · rw [AddressSpace.unmap_of_not_mem (by omega), AddressSpace.map_of_not_mem (by omega)]

/-- The object twice: together one mapping of twice its size. -/
theorem double_space (o : Os) (start obj : ℕ) {x : ℕ} (hle : start ≤ x)
    (hlt : x < start + 2 * kBufferSize) :
    ((o.mmap start kBufferSize fun i => .shared obj i).mmap (start + kBufferSize) kBufferSize
      fun i => .shared obj i).space x = some (.shared obj ((x - start) % kBufferSize)) := by
  rw [Os.mmap_space, Os.mmap_space]
  by_cases hfirst : x < start + kBufferSize
  · rw [AddressSpace.map_of_not_mem (.inl hfirst), AddressSpace.map_of_mem hle hfirst,
      Nat.mod_eq_of_lt (by omega)]
  · have hwrap : (x - start) % kBufferSize = x - (start + kBufferSize) := by
      rw [show x - start = x - (start + kBufferSize) + kBufferSize by omega,
        Nat.add_mod_right, Nat.mod_eq_of_lt (by omega)]
    rw [AddressSpace.map_of_mem (by omega) (by omega), hwrap]

section Opened

variable {obj : ℕ} {o o' : Os} (hopen : os.shm_open a = some (obj, o))

include hopen

theorem objects_le : os.objects ≤ o.objects := by
  obtain ⟨-, -, -, -, hobjects⟩ := shm_open_some hopen
  omega

theorem unlinked_name : (o.shm_unlink a).name = if a.unlink then none else some obj := by
  obtain ⟨-, -, -, hname, -⟩ := shm_open_some hopen
  rw [Os.shm_unlink_name, hname]

/-- The name that a constructor leaves once it has opened the object. -/
theorem name_cases : (o.shm_unlink a).name = os.name ∨ (o.shm_unlink a).name = none ∨
    a.unlink = false ∧ ∃ old < o.objects, (o.shm_unlink a).name = some old := by
  rw [unlinked_name hopen]
  obtain ⟨-, -, -, -, ⟨rfl, hobjects⟩ | ⟨hname, -⟩⟩ := shm_open_some hopen
  · cases hunlink : a.unlink with
    | true => exact .inr (.inl rfl)
    | false => exact .inr (.inr ⟨rfl, _, by omega, rfl⟩)
  · cases a.unlink with
    | true => exact .inr (.inl rfl)
    | false => exact .inl hname.symm

/-- The only path on which a constructor that throws closes its descriptor. -/
theorem Thrown.truncate (hnew : a.fd ∉ os.fds.map Prod.fst) (htruncate : a.truncate = false) :
    Thrown os a ((o.shm_unlink a).close a.fd) := by
  obtain ⟨hspace, hfds, hsize, -, -⟩ := shm_open_some hopen
  have hclosed : ((o.shm_unlink a).close a.fd).fds = os.fds :=
    close_new (o := o.shm_unlink a) hfds hnew
  have hleaves : ¬ LeavesOpen os a := by simp [LeavesOpen, htruncate]
  have hle : os.objects ≤ o.objects := objects_le hopen
  refine ⟨fun x _ => congrFun hspace x, ?_, name_cases hopen, fun old => .inl (congrFun hsize old),
    hle⟩
  rw [hclosed, if_neg hleaves, Nat.add_zero]

/-- The paths behind `ftruncate`, which differ in the address space. -/
theorem Thrown.mapping (hfiles : ((o.shm_unlink a).ftruncate obj kBufferSize).SameFiles o')
    (hleaves : LeavesOpen os a)
    (hkept : ∀ x, ¬ Within (leftover os a) x → o'.space x = os.space x) : Thrown os a o' := by
  obtain ⟨-, hfds, hsize, -, -⟩ := shm_open_some hopen
  refine ⟨hkept, ?_, ?_, fun old => ?_, ?_⟩
  · rw [hfiles.fds, if_pos hleaves]
    exact congrArg List.length hfds
  · rw [hfiles.name, hfiles.objects]
    exact name_cases hopen
  · have hsame : (o.shm_unlink a).size = os.size := hsize
    rw [hfiles.size, Os.ftruncate_size, hsame]
    by_cases hold : old = obj
    · exact .inr (by rw [hold, Function.update_self])
    · exact .inl (Function.update_of_ne hold _ _)
  · have hle : os.objects ≤ o.objects := objects_le hopen
    rwa [hfiles.objects]

/-- The path on which every checked call succeeds. -/
theorem Built.doubled (hnew : a.fd ∉ os.fds.map Prod.fst) (hclosed : ¬ LeavesOpen os a)
    (hfiles : ((o.shm_unlink a).ftruncate obj kBufferSize).SameFiles o')
    (hmapped : ∀ x, base a ≤ x → x < base a + 2 * kBufferSize →
      o'.space x = some (.shared obj ((x - base a) % kBufferSize)))
    (hrest : ∀ x, x < base a ∨ base a + 2 * kBufferSize ≤ x → ¬ Within (leftover os a) x →
      o'.space x = os.space x) : Built os a obj (o'.close a.fd) := by
  obtain ⟨-, hfds, hsize, -, hobjects⟩ := shm_open_some hopen
  refine ⟨hclosed, hmapped, hrest, close_new (hfiles.fds.trans hfds) hnew, ?_, ?_, ?_⟩
  · rw [Os.close_name, hfiles.name, Os.ftruncate_name, unlinked_name hopen]
  · have hsame : (o.shm_unlink a).size = os.size := hsize
    funext old
    rw [Os.close_size, hfiles.size, Os.ftruncate_size, hsame]
  · rw [Os.close_objects, hfiles.objects, Os.ftruncate_objects, Os.shm_unlink_objects]
    exact hobjects

end Opened

/-- The constructor returns or throws, and either way it does what its answers say. -/
theorem constructor_spec (hnew : a.fd ∉ os.fds.map Prod.fst)
    (hfree : os.space.Free a.raw_space cap) :
    (∃ obj o, os.shm_open a = some (obj, o) ∧
      (constructor os a).2 = .ok (base a) ∧ Built os a obj (constructor os a).1) ∨
    (∃ text, (constructor os a).2 = .error text) ∧ Thrown os a (constructor os a).1 := by
  cases hopen : os.shm_open a with
  | none =>
    have hleaves : ¬ LeavesOpen os a := by simp [LeavesOpen, hopen]
    simp only [constructor, hopen]
    exact .inr ⟨⟨_, rfl⟩, fun _ _ => rfl, by simp [hleaves], .inl rfl, fun _ => .inl rfl, le_rfl⟩
  | some p =>
    obtain ⟨obj, o⟩ := p
    obtain ⟨hspace, -, -, -, -⟩ := shm_open_some hopen
    have hfront : kBlockSize - kPageSize > 0 := by decide
    have hbase : base a = a.raw_space + (kBlockSize - kPageSize) := rfl
    have hopened : (os.shm_open a).isSome = true := by simp [hopen]
    cases htruncate : a.truncate with
    | false =>
      simp only [constructor, hopen, htruncate, if_true]
      exact .inr ⟨⟨_, rfl⟩, .truncate hopen hnew htruncate⟩
    | true =>
      cases hreserve : a.reserve with
      | false =>
        have hleaves : LeavesOpen os a := ⟨hopened, htruncate, .inl hreserve⟩
        simp only [constructor, hopen, htruncate, hreserve, Bool.true_eq_false, if_true, if_false]
        exact .inr ⟨⟨_, rfl⟩, .mapping hopen (.refl _) hleaves fun x _ => congrFun hspace x⟩
      | true =>
        -- the address space at the first mapping of the object
        have hreserved {x : ℕ} (hx : x < base a ∨ base a + 2 * kBufferSize ≤ x)
            (hkept : ¬ Within (leftover os a) x) :
            ((((o.shm_unlink a).ftruncate obj kBufferSize).mmap a.raw_space cap
              fun _ => .reserved).munmap a.unmap a.raw_space (kBlockSize - kPageSize)).space x =
                os.space x := by
          rw [← hspace] at hfree ⊢
          refine reserved_space (o := (o.shm_unlink a).ftruncate obj kBufferSize) hfree hx ?_
          intro hunmap
          by_contra hin
          have hleaves : LeavesFront os a := ⟨hopened, htruncate, hreserve, hunmap⟩
          exact hkept ⟨(a.raw_space, base a), by simp [leftover, hleaves], by
            dsimp only
            omega⟩
        have hrange {x : ℕ} (hleaves : LeavesRange os a) (hkept : ¬ Within (leftover os a) x) :
            x < base a ∨ base a + 2 * kBufferSize ≤ x := by
          by_contra hin
          exact hkept ⟨(base a, base a + 2 * kBufferSize), by simp [leftover, hleaves], by
            dsimp only
            omega⟩
        cases hfirst : a.first with
        | false =>
          have hleaves : LeavesOpen os a := ⟨hopened, htruncate, .inr (.inl hfirst)⟩
          simp only [constructor, hopen, htruncate, hreserve, hfirst, hfront, Bool.true_eq_false,
            if_true, if_false, ← hbase]
          refine .inr ⟨⟨_, rfl⟩, .mapping hopen (.damage (.munmap (.mmap (.refl _)))) hleaves
            fun x hkept => ?_⟩
          have hx := hrange ⟨hopened, htruncate, hreserve, .inl hfirst⟩ hkept
          rw [Os.damage_of_not_mem (by omega), hreserved hx hkept]
        | true =>
          cases hsecond : a.second with
          | false =>
            have hleaves : LeavesOpen os a := ⟨hopened, htruncate, .inr (.inr hsecond)⟩
            simp only [constructor, hopen, htruncate, hreserve, hfirst, hsecond, hfront,
              Bool.true_eq_false, if_true, if_false, ← hbase]
            refine .inr ⟨⟨_, rfl⟩, .mapping hopen (.damage (.mmap (.munmap (.mmap (.refl _)))))
              hleaves fun x hkept => ?_⟩
            have hx := hrange ⟨hopened, htruncate, hreserve, .inr hsecond⟩ hkept
            rw [Os.damage_of_not_mem (by omega), Os.mmap_space,
              AddressSpace.map_of_not_mem (by omega), hreserved hx hkept]
          | true =>
            have hclosed : ¬ LeavesOpen os a := by simp [LeavesOpen, hreserve, hfirst, hsecond]
            simp only [constructor, hopen, htruncate, hreserve, hfirst, hsecond, hfront,
              Bool.true_eq_false, if_true, if_false, ← hbase]
            refine .inl ⟨obj, o, rfl, trivial, .doubled hopen hnew hclosed
              (.mmap (.mmap (.munmap (.mmap (.refl _))))) (fun x hle hlt => ?_)
              fun x hx hkept => ?_⟩
            · exact double_space _ _ obj hle hlt
            · rw [Os.mmap_space, AddressSpace.map_of_not_mem (by omega), Os.mmap_space,
                AddressSpace.map_of_not_mem (by omega), hreserved hx hkept]

end Constructor

end SPSCRingBuffer

open SPSCRingBuffer

/-- A ring that lives: its address and its object. -/
structure LiveRing where
  buffer_ : ℕ
  obj : ℕ
  deriving DecidableEq, Repr

namespace LiveRing

/-- The address is in one of the two mappings. -/
def Covers (r : LiveRing) (x : ℕ) : Prop := r.buffer_ ≤ x ∧ x < r.buffer_ + 2 * kBufferSize

/-- No address is common to the two. -/
def Apart (r r' : LiveRing) : Prop := ∀ x, r.Covers x → ¬ r'.Covers x

theorem Apart.symm {r r' : LiveRing} (h : r.Apart r') : r'.Apart r :=
  fun x hx' hx => h x hx hx'

end LiveRing

/-- A process that makes and destroys rings. `spoiled` lists the ranges that were not given back: of
reservations, and of rings whose `munmap` failed. -/
structure RingProcess where
  os : Os
  rings : List LiveRing := []
  spoiled : List (ℕ × ℕ) := []

namespace RingProcess

/-- `unmap` tells whether the `munmap` of the destructor succeeds. -/
inductive Label where
  | construct (a : Answers)
  | destroy (buffer_ : ℕ) (unmap : Bool)

/-- The process after a constructor. -/
def constructed (s : RingProcess) (a : Answers) : Os × Except String ℕ → RingProcess
  | (os, .ok buffer_) =>
    { s with
      os := os
      rings := s.rings ++ [⟨buffer_, (s.os.shm_open a).elim 0 Prod.fst⟩]
      spoiled := leftover s.os a ++ s.spoiled }
  | (os, .error _) => { s with os := os, spoiled := leftover s.os a ++ s.spoiled }

/-- The process after the destructor of the ring at `buffer_`. -/
def destroyed (s : RingProcess) (buffer_ : ℕ) (unmap : Bool) : RingProcess :=
  { s with
    os := destructor s.os unmap buffer_
    rings := s.rings.filter (·.buffer_ ≠ buffer_)
    spoiled := if unmap then s.spoiled else (buffer_, buffer_ + 2 * kBufferSize) :: s.spoiled }

def step (s : RingProcess) : Label → Option RingProcess
  | .construct a => some (s.constructed a (constructor s.os a))
  | .destroy buffer_ unmap =>
    if buffer_ ∈ s.rings.map LiveRing.buffer_ then some (s.destroyed buffer_ unmap) else none

/-- The name may be left over from a process that has died. -/
def machine : Machine RingProcess Label where
  start s := ∃ os : Os, s = { os := os } ∧ ∀ obj, os.name = some obj → obj < os.objects
  step := step

/-- What the system sees to: a descriptor is new, and a range it chooses is free. -/
def Possible (s : RingProcess) : Label → Prop
  | .construct a => a.fd ∉ s.os.fds.map Prod.fst ∧ s.os.space.Free a.raw_space cap
  | .destroy _ _ => True

/-- No `shm_unlink` of the step fails. -/
def Unlinks : Label → Prop
  | .construct a => a.unlink = true
  | .destroy _ _ => True

/-- The step is a construction that loses its descriptor. -/
def Leaks (s : RingProcess) : Label → Prop
  | .construct a => LeavesOpen s.os a
  | .destroy _ _ => False

instance (s : RingProcess) : DecidablePred (Leaks s)
  | .construct a => inferInstanceAs (Decidable (LeavesOpen s.os a))
  | .destroy _ _ => inferInstanceAs (Decidable False)

/-- The address was not given back. -/
def Spoiled (s : RingProcess) (x : ℕ) : Prop := Within s.spoiled x

/-- The invariant of a run from `s₀`. -/
structure Inv (s₀ s : RingProcess) : Prop where
  mapped : ∀ r ∈ s.rings, ∀ x, r.Covers x →
    s.os.space x = some (.shared r.obj ((x - r.buffer_) % kBufferSize))
  sized : ∀ r ∈ s.rings, s.os.size r.obj = kBufferSize
  apart : s.rings.Pairwise LiveRing.Apart
  made : ∀ r ∈ s.rings, r.obj < s.os.objects
  named : ∀ obj, s.os.name = some obj → obj < s.os.objects
  rest : ∀ x, (∀ r ∈ s.rings, ¬ r.Covers x) → ¬ s.Spoiled x → s.os.space x = s₀.os.space x
  free : ∀ r ∈ s.rings, ∀ x, r.Covers x → ¬ s.Spoiled x → s₀.os.space x = none

/-- The invariant of a run in which no `shm_unlink` fails. -/
structure Own (s : RingProcess) : Prop where
  distinct : s.rings.Pairwise fun r r' => r.obj ≠ r'.obj
  unnamed : ∀ r ∈ s.rings, s.os.name ≠ some r.obj

variable {s₀ s t : RingProcess} {a : Answers} {l : Label}

theorem inv_start (hs : machine.start s₀) : Inv s₀ s₀ := by
  obtain ⟨os, rfl, hnamed⟩ := hs
  exact ⟨by simp, by simp, .nil, by simp, hnamed, fun _ _ _ => rfl, by simp⟩

theorem free_base (hfree : s.os.space.Free a.raw_space cap) :
    s.os.space.Free (base a) (2 * kBufferSize) := by
  have hcap := cap_eq
  intro x hle hlt
  rw [base] at hle hlt
  exact hfree x (by omega) (by omega)

/-- What is mapped is not in a range that was free. -/
theorem Inv.not_in_free (h : Inv s₀ s) (hfree : s.os.space.Free a.raw_space cap) {r : LiveRing}
    (hr : r ∈ s.rings) {x : ℕ} (hx : r.Covers x) :
    x < a.raw_space ∨ base a + 2 * kBufferSize ≤ x := by
  have hcap := cap_eq
  by_contra hin
  have hnone := hfree x (by omega) (by rw [base] at hin; omega)
  rw [h.mapped r hr x hx] at hnone
  simp at hnone

/-- What a construction leaves lies in its reservation. -/
theorem mem_of_leftover {os : Os} {x : ℕ} (hx : Within (leftover os a) x) :
    a.raw_space ≤ x ∧ x < base a + 2 * kBufferSize := by
  obtain ⟨r, hr, hle, hlt⟩ := hx
  have hbase : a.raw_space ≤ base a := Nat.le_add_right ..
  rcases List.mem_append.mp hr with hr | hr <;>
  · split_ifs at hr
    · obtain rfl := List.mem_singleton.mp hr
      dsimp only at hle hlt
      omega
    · cases hr

theorem spoiled_append {ranges : List (ℕ × ℕ)} {x : ℕ} :
    Within (ranges ++ s.spoiled) x ↔ Within ranges x ∨ s.Spoiled x := by
  simp only [Spoiled, Within, List.mem_append, or_and_right, exists_or]

theorem inv_built (h : Inv s₀ s) (hfree : s.os.space.Free a.raw_space cap) {obj : ℕ} {o : Os}
    (hbuilt : Built s.os a obj o) :
    Inv s₀ { s with
      os := o
      rings := s.rings ++ [⟨base a, obj⟩]
      spoiled := leftover s.os a ++ s.spoiled } := by
  have hbase : a.raw_space ≤ base a := Nat.le_add_right ..
  have hobj : obj < o.objects ∧ s.os.objects ≤ o.objects := by
    rcases hbuilt.objects with ⟨rfl, heq⟩ | ⟨hname, heq⟩
    · omega
    · have := h.named obj hname
      omega
  -- a ring that lives is outside the reservation
  have hkeep {r : LiveRing} (hr : r ∈ s.rings) {x : ℕ} (hx : r.Covers x) :
      o.space x = s.os.space x := by
    have hout := h.not_in_free hfree hr hx
    refine hbuilt.rest x (by omega) fun hleft => ?_
    have hin := mem_of_leftover hleft
    omega
  constructor
  case mapped =>
    intro r hr x hx
    rcases List.mem_append.mp hr with hr | hr
    · exact (hkeep hr hx).trans (h.mapped r hr x hx)
    · obtain rfl := List.mem_singleton.mp hr
      exact hbuilt.mapped x hx.1 hx.2
  case sized =>
    intro r hr
    rw [hbuilt.size]
    by_cases heq : r.obj = obj
    · rw [heq, Function.update_self]
    · rw [Function.update_of_ne heq]
      rcases List.mem_append.mp hr with hr | hr
      · exact h.sized r hr
      · obtain rfl := List.mem_singleton.mp hr
        exact absurd rfl heq
  case apart =>
    refine List.pairwise_append.mpr ⟨h.apart, List.pairwise_singleton _ _, fun r hr r' hr' => ?_⟩
    obtain rfl := List.mem_singleton.mp hr'
    intro x hx hx'
    have hout := h.not_in_free hfree hr hx
    obtain ⟨hle, hlt⟩ := hx'
    dsimp only at hle hlt
    omega
  case made =>
    intro r hr
    rcases List.mem_append.mp hr with hr | hr
    · exact (h.made r hr).trans_le hobj.2
    · obtain rfl := List.mem_singleton.mp hr
      exact hobj.1
  case named =>
    intro old hold
    rw [hbuilt.name] at hold
    split_ifs at hold
    obtain rfl := Option.some.inj hold
    exact hobj.1
  case rest =>
    intro x hrings hspoiled
    obtain ⟨hleft, hold⟩ := not_or.mp (mt spoiled_append.mpr hspoiled)
    have hout : ¬ (⟨base a, obj⟩ : LiveRing).Covers x := hrings _ (by simp)
    simp only [LiveRing.Covers] at hout
    rw [hbuilt.rest x (by omega) hleft]
    exact h.rest x (fun r hr => hrings r (List.mem_append_left _ hr)) hold
  case free =>
    intro r hr x hx hspoiled
    obtain ⟨-, hold⟩ := not_or.mp (mt spoiled_append.mpr hspoiled)
    rcases List.mem_append.mp hr with hr | hr
    · exact h.free r hr x hx hold
    · obtain rfl := List.mem_singleton.mp hr
      have hnone := free_base hfree x hx.1 hx.2
      rw [← h.rest x (fun r' hr' hx' => ?_) hold, hnone]
      have hout := h.not_in_free hfree hr' hx'
      obtain ⟨hle, hlt⟩ := hx
      dsimp only at hle hlt
      omega

theorem inv_thrown (h : Inv s₀ s) (hfree : s.os.space.Free a.raw_space cap) {o : Os}
    (hthrown : Thrown s.os a o) :
    Inv s₀ { s with os := o, spoiled := leftover s.os a ++ s.spoiled } := by
  constructor
  case mapped =>
    intro r hr x hx
    refine (hthrown.space x fun hleft => ?_).trans (h.mapped r hr x hx)
    have hin := mem_of_leftover hleft
    have hout := h.not_in_free hfree hr hx
    omega
  case sized =>
    intro r hr
    rcases hthrown.size r.obj with hsame | hsize
    · exact hsame.trans (h.sized r hr)
    · exact hsize
  case apart => exact h.apart
  case made => exact fun r hr => (h.made r hr).trans_le hthrown.objects
  case named =>
    intro obj hobj
    rcases hthrown.name with hsame | hnone | ⟨-, old, hold, hname⟩
    · exact (h.named obj (hsame ▸ hobj)).trans_le hthrown.objects
    · cases hnone.symm.trans hobj
    · obtain rfl := Option.some.inj (hname.symm.trans hobj)
      exact hold
  case rest =>
    intro x hrings hspoiled
    obtain ⟨hleft, hold⟩ := not_or.mp (mt spoiled_append.mpr hspoiled)
    exact (hthrown.space x hleft).trans (h.rest x hrings hold)
  case free =>
    intro r hr x hx hspoiled
    exact h.free r hr x hx (not_or.mp (mt spoiled_append.mpr hspoiled)).2

/-- The addresses of a ring that is destroyed are given back or spoiled, and no others change. -/
theorem destructor_space {r : LiveRing} {unmap : Bool} {x : ℕ} (hx : ¬ r.Covers x) :
    (destructor s.os unmap r.buffer_).space x = s.os.space x := by
  rw [destructor, Os.munmap_space]
  split_ifs
  · refine AddressSpace.unmap_of_not_mem ?_
    have hout := not_and_or.mp hx
    omega
  · rfl

theorem inv_destroyed (h : Inv s₀ s) {r : LiveRing} (hr : r ∈ s.rings) (unmap : Bool) :
    Inv s₀ (s.destroyed r.buffer_ unmap) := by
  have hmem {r' : LiveRing} (hr' : r' ∈ s.rings.filter (·.buffer_ ≠ r.buffer_)) :
      r' ∈ s.rings ∧ r.Apart r' := by
    obtain ⟨hr', hne⟩ : r' ∈ s.rings ∧ ¬ r'.buffer_ = r.buffer_ := by simpa using hr'
    have : Std.Symm LiveRing.Apart := ⟨fun _ _ => LiveRing.Apart.symm⟩
    exact ⟨hr', h.apart.forall hr hr' fun heq => hne (heq ▸ rfl)⟩
  have hless {x : ℕ} (hx : ¬ (s.destroyed r.buffer_ unmap).Spoiled x) :
      ¬ s.Spoiled x ∧ (unmap = false → ¬ r.Covers x) := by
    cases unmap with
    | true => exact ⟨hx, fun hfalse => nomatch hfalse⟩
    | false =>
      refine ⟨fun ⟨b, hb, hin⟩ => hx ⟨b, List.mem_cons_of_mem _ hb, hin⟩, fun _ hcovers => ?_⟩
      exact hx ⟨_, List.mem_cons_self, hcovers⟩
  constructor
  case mapped =>
    intro r' hr' x hx
    obtain ⟨hr', hapart⟩ := hmem hr'
    exact (destructor_space fun hcovers => hapart x hcovers hx).trans (h.mapped r' hr' x hx)
  case sized => exact fun r' hr' => h.sized r' (hmem hr').1
  case apart => exact h.apart.filter _
  case made => exact fun r' hr' => h.made r' (hmem hr').1
  case named => exact h.named
  case rest =>
    intro x hrings hspoiled
    obtain ⟨hspoiled, hleft⟩ := hless hspoiled
    by_cases hx : r.Covers x
    · obtain rfl : unmap = true := by
        by_contra hfalse
        exact hleft (by simpa using hfalse) hx
      rw [h.free r hr x hx hspoiled]
      exact AddressSpace.unmap_of_mem hx.1 (by rw [Nat.mul_comm]; exact hx.2)
    · refine (destructor_space hx).trans (h.rest x (fun r' hr' hx' => ?_) hspoiled)
      by_cases heq : r'.buffer_ = r.buffer_
      · exact hx ⟨heq ▸ hx'.1, heq ▸ hx'.2⟩
      · exact hrings r' (by simpa [destroyed] using ⟨hr', heq⟩) hx'
  case free => exact fun r' hr' x hx hspoiled => h.free r' (hmem hr').1 x hx (hless hspoiled).1

theorem shm_open_elim {obj : ℕ} {o : Os} (h : s.os.shm_open a = some (obj, o)) :
    (s.os.shm_open a).elim 0 Prod.fst = obj := by rw [h, Option.elim]

/-- What a step is: a constructor that returns, one that throws, or a destructor. -/
theorem step_cases (hok : Possible s l) (hst : machine.step s l = some t) :
    (∃ a obj o, l = .construct a ∧ Built s.os a obj o ∧ t = { s with
      os := o
      rings := s.rings ++ [⟨base a, obj⟩]
      spoiled := leftover s.os a ++ s.spoiled }) ∨
    (∃ a o, l = .construct a ∧ Thrown s.os a o ∧
      t = { s with os := o, spoiled := leftover s.os a ++ s.spoiled }) ∨
    ∃ r ∈ s.rings, ∃ unmap, l = .destroy r.buffer_ unmap ∧ t = s.destroyed r.buffer_ unmap := by
  cases l with
  | construct a =>
    obtain ⟨hnew, hfree⟩ := hok
    obtain rfl : s.constructed a (constructor s.os a) = t := Option.some.inj hst
    obtain ⟨obj, o, hopen, hret, hbuilt⟩ | ⟨⟨text, hret⟩, hthrown⟩ := constructor_spec hnew hfree
    · have hpair : constructor s.os a = ((constructor s.os a).1, .ok (base a)) := Prod.ext rfl hret
      refine .inl ⟨a, obj, _, rfl, hbuilt, ?_⟩
      rw [hpair, constructed, shm_open_elim hopen]
    · have hpair : constructor s.os a = ((constructor s.os a).1, .error text) := Prod.ext rfl hret
      refine .inr (.inl ⟨a, _, rfl, hthrown, ?_⟩)
      rw [hpair, constructed]
  | destroy buffer_ unmap =>
    obtain ⟨hmem, heq⟩ := Option.ite_none_right_eq_some.mp hst
    obtain rfl := Option.some.inj heq
    obtain ⟨r, hr, rfl⟩ := List.mem_map.mp hmem
    exact .inr (.inr ⟨r, hr, unmap, rfl, rfl⟩)

theorem inv_step (h : Inv s₀ s) (hok : Possible s l) (hst : machine.step s l = some t) :
    Inv s₀ t := by
  obtain ⟨a, obj, o, rfl, hbuilt, rfl⟩ | ⟨a, o, rfl, hthrown, rfl⟩ | ⟨r, hr, unmap, rfl, rfl⟩ :=
    step_cases hok hst
  · exact inv_built h hok.2 hbuilt
  · exact inv_thrown h hok.2 hthrown
  · exact inv_destroyed h hr unmap

/-- A name that is gone is found by nobody, so a ring gets an object of its own. -/
theorem own_step (h : Inv s₀ s) (hown : Own s) (hok : Possible s l) (hunlinks : Unlinks l)
    (hst : machine.step s l = some t) : Own t := by
  obtain ⟨a, obj, o, rfl, hbuilt, rfl⟩ | ⟨a, o, rfl, hthrown, rfl⟩ | ⟨r, hr, unmap, rfl, rfl⟩ :=
    step_cases hok hst
  · have hunlink : a.unlink = true := hunlinks
    have hold {r : LiveRing} (hr : r ∈ s.rings) : r.obj ≠ obj := by
      rintro rfl
      rcases hbuilt.objects with ⟨heq, -⟩ | ⟨heq, -⟩
      · exact (h.made r hr).ne heq
      · exact hown.unnamed r hr heq
    refine ⟨List.pairwise_append.mpr ⟨hown.distinct, List.pairwise_singleton _ _, ?_⟩, ?_⟩
    · intro r hr r' hr'
      obtain rfl := List.mem_singleton.mp hr'
      exact hold hr
    · simp [hbuilt.name, hunlink]
  · have hunlink : a.unlink = true := hunlinks
    refine ⟨hown.distinct, fun r hr => ?_⟩
    rcases hthrown.name with hsame | hnone | ⟨hfalse, -⟩
    · rw [hsame]
      exact hown.unnamed r hr
    · simp [hnone]
    · rw [hunlink] at hfalse
      cases hfalse
  · exact ⟨hown.distinct.filter _, fun r' hr' => hown.unnamed r' (List.mem_filter.mp hr').1⟩

/-- One step loses a descriptor or none. -/
theorem step_fds (hok : Possible s l) (hst : machine.step s l = some t) :
    t.os.fds.length = s.os.fds.length + if Leaks s l then 1 else 0 := by
  obtain ⟨a, obj, o, rfl, hbuilt, rfl⟩ | ⟨a, o, rfl, hthrown, rfl⟩ | ⟨r, -, unmap, rfl, rfl⟩ :=
    step_cases hok hst
  · rw [if_neg (show ¬ Leaks s (.construct a) from hbuilt.closed)]
    exact congrArg List.length hbuilt.fds
  · exact hthrown.fds
  · rw [if_neg (show ¬ Leaks s (.destroy r.buffer_ unmap) from id), destroyed, destructor,
      Os.munmap_fds, Nat.add_zero]

/-- Constructions and destructions in any order, with any answers of the system: a ring that
lives is mapped twice in a row to an object of the size of the ring, no two of them overlap, and
every other address is what it was at the start, except where something was not given back. The
objects are different ones if no `shm_unlink` fails. -/
theorem mapped_twice {tr : List (RingProcess × Label)} (hs : machine.start s₀)
    (htr : machine.Trace s₀ tr s) (hok : ∀ p ∈ tr, Possible p.1 p.2) :
    (∀ r ∈ s.rings, s.os.size r.obj = kBufferSize ∧ ∀ x, r.Covers x →
      s.os.space x = some (.shared r.obj ((x - r.buffer_) % kBufferSize))) ∧
    s.rings.Pairwise LiveRing.Apart ∧
    (∀ x, (∀ r ∈ s.rings, ¬ r.Covers x) → ¬ s.Spoiled x → s.os.space x = s₀.os.space x) ∧
    ((∀ p ∈ tr, Unlinks p.2) → s.rings.Pairwise fun r r' => r.obj ≠ r'.obj) := by
  have hinv : Inv s₀ s :=
    htr.keep_of_ok (fun _ _ _ h hok hst => inv_step h hok hst) (inv_start hs) hok
  refine ⟨fun r hr => ⟨hinv.sized r hr, hinv.mapped r hr⟩, hinv.apart, hinv.rest,
    fun hunlinks => ?_⟩
  have hown₀ : Own s₀ := by
    obtain ⟨os, rfl, -⟩ := hs
    exact ⟨.nil, by simp⟩
  have hboth := htr.keep_of_ok (I := fun u => Inv s₀ u ∧ Own u)
    (fun _ _ _ h (hok : Possible _ _ ∧ Unlinks _) hst =>
      ⟨inv_step h.1 hok.1 hst, own_step h.1 h.2 hok.1 hok.2 hst⟩)
    ⟨inv_start hs, hown₀⟩ fun p hp => ⟨hok p hp, hunlinks p hp⟩
  exact hboth.2.distinct

/-- A process that has mapped nothing of its own. -/
def idle : RingProcess := { os := { space := fun _ => none } }

/-- Every call succeeds. -/
def granted : Answers where
  fd := 3
  create := true
  reopen := true
  truncate := true
  reserve := true
  first := true
  second := true
  raw_space := 0x10000

theorem idle_start : machine.start idle := ⟨_, rfl, by simp⟩

theorem possible_idle (a : Answers) : Possible idle (.construct a) :=
  ⟨by simp [idle], fun _ _ _ => rfl⟩

theorem mapped_twice_granted :
    ∃ s, machine.step idle (.construct granted) = some s ∧ s.rings = [⟨0x11000, 0⟩] ∧
      ∀ r ∈ s.rings, ∀ x, r.Covers x →
        s.os.space x = some (.shared r.obj ((x - r.buffer_) % kBufferSize)) := by
  refine ⟨_, rfl, rfl, fun r hr => ?_⟩
  exact ((mapped_twice idle_start (.snoc .nil rfl) (by simpa using possible_idle granted)).1 r hr).2

/-- When a `shm_unlink` fails, the next ring opens the object of the one before. -/
example : (machine.run idle [.construct { granted with unlink := false },
    .construct { granted with raw_space := 0x2000000 }]).map (·.rings) =
      some [⟨0x11000, 0⟩, ⟨0x2001000, 0⟩] := rfl

/-- The descriptors lost in a run are those of the constructions in which an `mmap` fails, one for
each. -/
theorem descriptors_left {tr : List (RingProcess × Label)} (htr : machine.Trace s₀ tr s)
    (hok : ∀ p ∈ tr, Possible p.1 p.2) :
    s.os.fds.length = s₀.os.fds.length + tr.countP fun p => Leaks p.1 p.2 := by
  induction htr with
  | nil => simp
  | @snoc u v l tr _ hst ih =>
    rw [List.forall_mem_append, List.forall_mem_singleton] at hok
    rw [step_fds hok.2 hst, ih hok.1, List.countP_append, List.countP_singleton]
    simp [Nat.add_assoc]

/-- The second mapping fails. -/
def refused : Answers := { granted with second := false }

theorem descriptors_left_refused :
    ∃ s, machine.step idle (.construct refused) = some s ∧
      s.os.fds.length = idle.os.fds.length + 1 := by
  refine ⟨_, rfl, ?_⟩
  have htr : machine.Trace idle [(idle, .construct refused)] _ := .snoc .nil rfl
  rw [descriptors_left htr (by simpa using possible_idle refused)]
  rfl

end RingProcess

end QStorage.Db
