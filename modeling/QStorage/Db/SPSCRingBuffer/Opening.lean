import QStorage.Db.SPSCRingBuffer.Mapping
import QStorage.Lib.Threads

/-!
# Constructors at the same time (`db/sp_ring_buffer.h`)

The name of the shared memory object is one for all rings. A constructor holds it between its
`shm_open` and its `shm_unlink`; a second constructor that comes in between falls back to opening
what has the name.

## Main results

* `Opening.alone` — a constructor that runs alone does what `Os.shm_open` and `Os.shm_unlink` do.
* `Opening.exclusive_iff` — each ring has an object of its own exactly if no fall-back succeeds.
-/

namespace QStorage.Db

open QStorage.Lib

namespace Opening

/-- What has the name, and how many objects were made. -/
structure Names where
  name : Option ℕ
  objects : ℕ

/-- Where a constructor is; `unlink` and `opened` have the object that `fd` stands for. -/
inductive Pc where
  | create
  | reopen
  | unlink (obj : ℕ)
  | opened (obj : ℕ)
  | thrown

namespace Pc

def obj : Pc → Option ℕ
  | .unlink obj | .opened obj => some obj
  | .create | .reopen | .thrown => none

end Pc

/-- One call of a constructor; `ok` is whether the system is able to serve it. -/
def act (x : Names) : Pc → Bool → Option (Names × Pc)
  | .create, ok =>
    if ok = true ∧ x.name = none then
      some (⟨some x.objects, x.objects + 1⟩, .unlink x.objects)
    else some (x, .reopen)
  | .reopen, ok =>
    match x.name with
    | some obj => some (x, if ok then .unlink obj else .thrown)
    | none => some (x, .thrown)
  | .unlink obj, ok => some ({ x with name := if ok then none else x.name }, .opened obj)
  | .opened _, _ | .thrown, _ => none

/-- Nothing has the name, and every constructor is at its start. -/
def machine : Machine (Threads ℕ Names Pc) (ℕ × Bool) :=
  Threads.machine act fun s => s.shared.name = none ∧ ∀ i, s.locals i = .create

theorem leads_act {s : Threads ℕ Names Pc} {i : ℕ} {x y : Names} {pc pc' : Pc} (ok : Bool)
    (hs : s.shared = x) (hi : s.locals i = pc) (hact : act x pc ok = some (y, pc')) :
    ∃ t, machine.Leads (fun _ l => l.1 = i) s t ∧ t.shared = y ∧ t.locals i = pc' := by
  subst hs hi
  exact ⟨⟨y, Function.update s.locals i pc'⟩,
    .step (l := (i, ok)) rfl (Threads.step_iff.mpr ⟨pc', hact, rfl⟩), rfl, Function.update_self ..⟩

/-- A constructor that nobody disturbs goes through `Os.shm_open` and `Os.shm_unlink`. -/
theorem alone {s : Threads ℕ Names Pc} {i : ℕ} {os : Os} (a : Answers)
    (hs : s.shared = ⟨os.name, os.objects⟩) (hi : s.locals i = .create) :
    ∃ t, machine.Leads (fun _ l => l.1 = i) s t ∧
      match os.shm_open a with
      | some (obj, o) => t.shared = ⟨(o.shm_unlink a).name, (o.shm_unlink a).objects⟩ ∧
          t.locals i = .opened obj
      | none => t.shared = s.shared ∧ t.locals i = .thrown := by
  by_cases hcreate : a.create = true ∧ os.name = none
  · obtain ⟨t, hst, ht, hti⟩ := leads_act true hs hi (if_pos ⟨rfl, hcreate.2⟩)
    obtain ⟨u, htu, hu⟩ := leads_act a.unlink ht hti rfl
    rw [Os.shm_open, if_pos hcreate]
    exact ⟨u, hst.trans htu, hu⟩
  · obtain ⟨t, hst, ht, hti⟩ := leads_act a.create hs hi (if_neg hcreate)
    rw [Os.shm_open, if_neg hcreate]
    cases hname : os.name with
    | none =>
      rw [hname] at ht hs
      obtain ⟨u, htu, hu, hui⟩ := leads_act true ht hti rfl
      exact ⟨u, hst.trans htu, hu.trans hs.symm, hui⟩
    | some obj =>
      rw [hname] at ht hs
      obtain ⟨u, htu, hu, hui⟩ := leads_act a.reopen ht hti rfl
      cases hreopen : a.reopen with
      | false =>
        rw [hreopen] at hui
        exact ⟨u, hst.trans htu, hu.trans hs.symm, hui⟩
      | true =>
        rw [hreopen] at hui
        obtain ⟨v, huv, hv⟩ := leads_act a.unlink hu hui rfl
        exact ⟨v, (hst.trans htu).trans huv, hv⟩

/-- No two constructors have one object. -/
def Exclusive (s : Threads ℕ Names Pc) : Prop :=
  ∀ i j obj, (s.locals i).obj = some obj → (s.locals j).obj = some obj → i = j

/-- The step is a second `shm_open` that succeeds. -/
def FallsBack (s : Threads ℕ Names Pc) (l : ℕ × Bool) : Prop :=
  ∃ obj, s.locals l.1 = .reopen ∧ s.shared.name = some obj ∧ l.2 = true

structure Inv (s : Threads ℕ Names Pc) : Prop where
  exclusive : Exclusive s
  made : ∀ i obj, (s.locals i).obj = some obj → obj < s.shared.objects
  held : ∀ obj, s.shared.name = some obj → ∃ i, (s.locals i).obj = some obj

variable {s t : Threads ℕ Names Pc} {l : ℕ × Bool}

theorem inv_start (h : machine.start s) : Inv s := by
  obtain ⟨hname, hcreate⟩ := h
  constructor <;> simp [Exclusive, hcreate, Pc.obj, hname]

/-- A step in which the constructor opens nothing. -/
theorem Inv.keep (h : Inv s) {pc : Pc} {x : Names} (hpc : pc.obj = (s.locals l.1).obj)
    (hobjects : x.objects = s.shared.objects) (hname : x.name = s.shared.name ∨ x.name = none) :
    Inv ⟨x, Function.update s.locals l.1 pc⟩ := by
  have hobj (i : ℕ) : (Function.update s.locals l.1 pc i).obj = (s.locals i).obj := by
    by_cases hi : i = l.1
    · rw [hi, Function.update_self, hpc]
    · rw [Function.update_of_ne hi]
  constructor
  · intro i j obj
    rw [hobj, hobj]
    exact h.exclusive i j obj
  · intro i obj
    rw [hobj, hobjects]
    exact h.made i obj
  · intro obj hobj'
    simp only [hobj]
    rcases hname with hname | hname
    · exact h.held obj (hname ▸ hobj')
    · cases hname.symm.trans hobj'

/-- The object is new, so nobody else has it. -/
theorem Inv.create (h : Inv s) :
    Inv ⟨⟨some s.shared.objects, s.shared.objects + 1⟩,
      Function.update s.locals l.1 (.unlink s.shared.objects)⟩ := by
  have hfresh (i : ℕ) : (s.locals i).obj ≠ some s.shared.objects := fun hi =>
    (h.made i _ hi).ne rfl
  have hself : (Function.update s.locals l.1 (.unlink s.shared.objects) l.1).obj =
      some s.shared.objects := by
    rw [Function.update_self, Pc.obj]
  have hother {i : ℕ} (hi : i ≠ l.1) :
      (Function.update s.locals l.1 (.unlink s.shared.objects) i).obj = (s.locals i).obj := by
    rw [Function.update_of_ne hi]
  constructor
  · intro i j obj hi hj
    by_cases hil : i = l.1 <;> by_cases hjl : j = l.1
    · rw [hil, hjl]
    · rw [hil, hself] at hi
      rw [hother hjl, ← hi] at hj
      exact absurd hj (hfresh j)
    · rw [hjl, hself] at hj
      rw [hother hil, ← hj] at hi
      exact absurd hi (hfresh i)
    · exact h.exclusive i j obj (hother hil ▸ hi) (hother hjl ▸ hj)
  · intro i obj hi
    by_cases hil : i = l.1
    · rw [hil, hself] at hi
      obtain rfl := Option.some.inj hi
      exact Nat.lt_succ_self _
    · exact (h.made i obj (hother hil ▸ hi)).trans (Nat.lt_succ_self _)
  · intro obj hobj
    exact ⟨l.1, hself.trans hobj⟩

theorem Inv.step (h : Inv s) (hok : ¬ FallsBack s l) (hst : machine.step s l = some t) :
    Inv t := by
  obtain ⟨pc, hact, hlocals⟩ := Threads.step_iff.mp hst
  obtain ⟨x, locals⟩ := t
  obtain rfl : locals = _ := hlocals
  cases hpc : s.locals l.1 with
  | create =>
    simp only [hpc, act] at hact
    split_ifs at hact
    · obtain ⟨rfl, rfl⟩ := Prod.mk.inj (Option.some.inj hact)
      exact h.create
    · obtain ⟨rfl, rfl⟩ := Prod.mk.inj (Option.some.inj hact)
      exact h.keep (by rw [hpc]; rfl) rfl (.inl rfl)
  | reopen =>
    have hfails : (x, pc) = (s.shared, .thrown) := by
      simp only [hpc, act] at hact
      cases hname : s.shared.name with
      | none => simpa [hname, eq_comm] using hact
      | some obj =>
        have hfalse : l.2 = false := by
          simpa using fun htrue : l.2 = true => hok ⟨obj, hpc, hname, htrue⟩
        simpa [hname, hfalse, eq_comm] using hact
    obtain ⟨rfl, rfl⟩ := Prod.mk.inj hfails
    exact h.keep (by rw [hpc]; rfl) rfl (.inl rfl)
  | unlink obj =>
    simp only [hpc, act] at hact
    obtain ⟨rfl, rfl⟩ := Prod.mk.inj (Option.some.inj hact)
    exact h.keep (by rw [hpc]; rfl) rfl (by cases l.2 <;> simp)
  | opened obj => simp [hpc, act] at hact
  | thrown => simp [hpc, act] at hact

/-- Whoever made the object that has the name has it too. -/
theorem Inv.shares (h : Inv s) (hback : FallsBack s l) (hst : machine.step s l = some t) :
    ¬ Exclusive t := by
  obtain ⟨obj, hpc, hname, htrue⟩ := hback
  obtain ⟨i, hi⟩ := h.held obj hname
  obtain ⟨pc, hact, hlocals⟩ := Threads.step_iff.mp hst
  have hpc' : pc = .unlink obj := by
    have hpair : (t.shared, pc) = (s.shared, .unlink obj) := by
      simpa [hpc, act, hname, htrue, eq_comm] using hact
    exact (Prod.mk.inj hpair).2
  have hne : i ≠ l.1 := by
    rintro rfl
    rw [hpc] at hi
    cases hi
  intro hexclusive
  refine hne (hexclusive i l.1 obj ?_ ?_)
  · rw [hlocals, Function.update_of_ne hne, hi]
  · rw [hlocals, Function.update_self, hpc', Pc.obj]

/-- When no name is left over from before, no two constructors end up with one object exactly if
none of them ever succeeds in opening what has the name: what it finds is always the object of
another one. -/
theorem exclusive_iff {tr : List (Threads ℕ Names Pc × (ℕ × Bool))} (hs : machine.start s)
    (htr : machine.Trace s tr t) :
    (∀ u ∈ Machine.visited tr t, Exclusive u) ↔ ∀ p ∈ tr, ¬ FallsBack p.1 p.2 :=
  htr.forall_visited_iff (fun _ h => h.exclusive) (fun _ _ _ h hok hst => h.step hok hst)
    (fun _ _ _ h hback hst => h.shares (not_not.mp hback) hst) (inv_start hs)

/-- Nobody has begun. -/
def fresh : Threads ℕ Names Pc := ⟨⟨none, 0⟩, fun _ => .create⟩

theorem exclusive_iff_overlap : ∃ tr t, machine.Trace fresh tr t ∧
    tr.map Prod.snd = [(0, true), (1, true), (1, true)] ∧
    ¬ ∀ u ∈ Machine.visited tr t, Exclusive u := by
  have htr : machine.Trace fresh _ _ := .snoc (l := (1, true)) (.snoc (l := (1, true))
    (.snoc (l := (0, true)) .nil rfl) rfl) rfl
  refine ⟨_, _, htr, rfl, ?_⟩
  rw [exclusive_iff ⟨rfl, fun _ => rfl⟩ htr]
  intro hnone
  exact hnone _ (List.mem_append_right _ (List.mem_singleton_self _)) ⟨0, rfl, rfl, rfl⟩

end Opening

end QStorage.Db
