import QStorage.Lib.Threads
import QStorage.Tools.List

/-!
# Free blocks (`tools/buffer.cc`)

The members of `Buffer` are those of the declaration in `buffer.h`; the coroutine mutex is locked
or not. Whoever finds `free_` empty runs off the end of the coroutine.

## Main results

* `Buffer.Good.step` — what a step preserves that does not find `free_` empty.
* `Buffer.handOut_iff` — the blocks are handed out one by one and the mutex is released, in exactly
  the runs in which no call finds `free_` empty.
-/

namespace QStorage.Tools

open QStorage.Lib

/-- The members that `getFreeBlock` uses. -/
structure Buffer (α : Type*) where
  mutex_ : Bool := false
  free_ : IntrusiveList α := {}

namespace Buffer

variable {ι α : Type*} [DecidableEq α]

/-- The line of `getFreeBlock` a call is at. -/
inductive Pc (α : Type*) where
  | idle
  | co_lock
  | count
  | start
  | remove (block : α)
  | unlock (block : α)
  | co_return (block : α)
  | finished (block : Option α)
  deriving DecidableEq, Repr

/-- A call, and whether it has locked the mutex and not unlocked it since. -/
structure Call (α : Type*) where
  pc : Pc α := .idle
  holds : Bool := false
  deriving DecidableEq, Repr

/-- One line of the function. There is nothing after the `if`: without a block the call is at its
end, still with the mutex. -/
def getFreeBlock (b : Buffer α) (c : Call α) : Option (Buffer α × Call α) :=
  match c.pc with
  | .idle => some (b, { c with pc := .co_lock })
  | .co_lock =>
    if b.mutex_ then none else some ({ b with mutex_ := true }, { pc := .count, holds := true })
  | .count =>
    some (b, { c with pc := if 0 < b.free_.list.count_ then .start else .finished none })
  | .start => b.free_.list.start_.map fun block => (b, { c with pc := .remove block })
  | .remove block =>
    match b.free_.Remove block with
    | .ok free_ => some ({ b with free_ := free_ }, { c with pc := .unlock block })
    | .error _ => none
  | .unlock block => some ({ b with mutex_ := false }, { pc := .co_return block, holds := false })
  | .co_return block => some (b, { c with pc := .finished (some block) })
  | .finished _ => none

/-- Any number of calls on a buffer whose free list is well formed. -/
def machine [DecidableEq ι] : Machine (Threads ι (Buffer α) (Call α)) (ι × Unit) :=
  Threads.machine (fun b c _ => getFreeBlock b c) fun s =>
    s.shared.mutex_ = false ∧ (∃ xs, s.shared.free_.WellFormed xs) ∧ ∀ i, s.locals i = {}

/-- The block a call has taken out of `free_`; it is the one the call returns. -/
def Call.block (c : Call α) : Option α :=
  match c.pc with
  | .unlock block | .co_return block => some block
  | .finished block => block
  | _ => none

/-- A step does not find `free_` empty. -/
def FindsBlock (s : Threads ι (Buffer α) (Call α)) (l : ι × Unit) : Prop :=
  (s.locals l.1).pc = .count → 0 < s.shared.free_.list.count_

instance (s : Threads ι (Buffer α) (Call α)) (l : ι × Unit) : Decidable (FindsBlock s l) :=
  inferInstanceAs (Decidable (_ → _))

/-- The blocks `xs` are in `free_` or with one call each, and the mutex is with a call that has not
finished. -/
structure HandOut (xs : List α) (s : Threads ι (Buffer α) (Call α)) : Prop where
  allotted : ∃ free, s.shared.free_.WellFormed free ∧
    Threads.Allotted xs free fun i => (s.locals i).block
  mutex : s.shared.mutex_ = true → ∃ i, (s.locals i).holds = true
  released : ∀ i block, (s.locals i).pc = .finished block → (s.locals i).holds = false

/-! ## The invariant -/

/-- What is true of a call that has not run off its end. -/
def Call.Ok (b : Buffer α) (c : Call α) : Prop :=
  match c.pc with
  | .idle | .co_lock | .co_return _ | .finished (some _) => c.holds = false
  | .count | .unlock _ => c.holds = true
  | .start => c.holds = true ∧ 0 < b.free_.list.count_
  | .remove block => c.holds = true ∧ b.free_.list.start_ = some block
  | .finished none => False

omit [DecidableEq α] in
/-- A call looks at `free_` only while it holds the mutex. -/
theorem Call.Ok.congr {b b' : Buffer α} {c : Call α} (h : c.Ok b)
    (hfree : c.holds = true → b'.free_ = b.free_) : c.Ok b' := by
  obtain ⟨pc, holds⟩ := c
  cases pc with
  | start | remove => exact ⟨h.1, hfree h.1 ▸ h.2⟩
  | finished block => cases block <;> exact h
  | _ => exact h

/-- The blocks are handed out as they should be so far, and each call is fine. -/
structure Good (xs : List α) (s : Threads ι (Buffer α) (Call α)) : Prop extends
    Threads.Exclusive mutex_ Call.holds s where
  allotted : ∃ free, s.shared.free_.WellFormed free ∧
    Threads.Allotted xs free fun i => (s.locals i).block
  call : ∀ i, (s.locals i).Ok s.shared

variable {s t : Threads ι (Buffer α) (Call α)} {xs : List α} {i : ι} {l : ι × Unit}

omit [DecidableEq α] in
theorem Good.handOut (h : Good xs s) : HandOut xs s where
  allotted := h.allotted
  mutex := h.locked_iff.mp
  released := by
    intro i block hpc
    have hcall := h.call i
    simp only [Call.Ok, hpc] at hcall
    cases block with
    | none => exact hcall.elim
    | some block => exact hcall

variable [DecidableEq ι]

theorem Good.start (hs : (machine (ι := ι)).start s) (hxs : s.shared.free_.WellFormed xs) :
    Good xs s := by
  obtain ⟨hmutex, -, hlocals⟩ := hs
  refine ⟨⟨?_, ?_⟩, ⟨xs, hxs, .full fun i => ?_⟩, ?_⟩ <;>
    simp [hlocals, hmutex, Call.block, Call.Ok]

/-- Any step but `Remove`. -/
theorem Good.of_same (h : Good xs s) (hst : machine.step s (i, ()) = some t) {b : Buffer α}
    {c : Call α} (hact : getFreeBlock s.shared (s.locals i) = some (b, c))
    (hfree : b.free_ = s.shared.free_) (hblock : c.block = (s.locals i).block)
    (hlock : Threads.LockStep s.shared.mutex_ (s.locals i).holds b.mutex_ c.holds)
    (hcall : c.Ok b) : Good xs t := by
  obtain ⟨rfl, rfl⟩ := Prod.mk.inj (Option.some.inj (hact.symm.trans (Threads.step_self hst)))
  have hblocks (j : ι) : (t.locals j).block = (s.locals j).block := by
    by_cases hj : j = i
    · rw [hj, hblock]
    · rw [Threads.step_other hst hj]
  obtain ⟨free, hwf, hallotted⟩ := h.allotted
  refine ⟨h.toExclusive.step hst hlock, ⟨free, hfree ▸ hwf, ?_⟩, ?_⟩
  · simpa only [hblocks] using hallotted
  · intro j
    by_cases hj : j = i
    · exact hj ▸ hcall
    · rw [Threads.step_other hst hj]
      exact (h.call j).congr fun _ => hfree

/-- `Remove` takes the first element; no other call looks at the list then. -/
theorem Good.remove (h : Good xs s) (hst : machine.step s (i, ()) = some t) {block : α}
    (hpc : (s.locals i).pc = .remove block) : Good xs t := by
  have hact := Threads.step_self hst
  obtain ⟨hholds, hstart⟩ : (s.locals i).holds = true ∧
      s.shared.free_.list.start_ = some block := by
    have hcall := h.call i
    simpa only [Call.Ok, hpc] using hcall
  obtain ⟨free, hwf, hallotted⟩ := h.allotted
  have hblock : block ∈ free := List.mem_of_mem_head? (hwf.first_eq.symm.trans hstart)
  obtain ⟨free_, hremove, hwf', -, -⟩ := hwf.Remove hblock
  simp only [getFreeBlock, hpc, hremove, Option.some.injEq, Prod.mk.injEq] at hact
  obtain ⟨hshared, hlocal⟩ := hact
  refine ⟨?_, ⟨free.erase block, ?_, ?_⟩, ?_⟩
  · apply h.toExclusive.step hst
    rw [← hlocal, ← hshared]
    exact .skip _ _
  · rw [← hshared]
    exact hwf'
  · apply hallotted.take hwf.nodup hblock
    · rw [Call.block, hpc]
    · rw [← hlocal]
      rfl
    · intro j hj
      rw [Threads.step_other hst hj]
  · intro j
    by_cases hj : j = i
    · rw [hj, ← hlocal]
      exact hholds
    · rw [Threads.step_other hst hj]
      exact (h.call j).congr fun hother => absurd (h.unique j i hother hholds) hj

theorem Good.step (h : Good xs s) (hok : FindsBlock s l) (hst : machine.step s l = some t) :
    Good xs t := by
  obtain ⟨i, _⟩ := l
  have hcall := h.call i
  cases hpc : (s.locals i).pc with
  | idle =>
    have hact : getFreeBlock s.shared (s.locals i) =
        some (s.shared, { s.locals i with pc := .co_lock }) := by rw [getFreeBlock, hpc]
    apply h.of_same hst hact rfl _ (.skip _ _)
    · simpa only [Call.Ok, hpc] using hcall
    · simp only [Call.block, hpc]
  | co_lock =>
    have hholds : (s.locals i).holds = false := by simpa only [Call.Ok, hpc] using hcall
    have hmutex : s.shared.mutex_ = false := by
      have hact := Threads.step_self hst
      simp only [getFreeBlock, hpc, Option.ite_none_left_eq_some] at hact
      exact Bool.eq_false_iff.mpr hact.1
    have hact : getFreeBlock s.shared (s.locals i) =
        some ({ s.shared with mutex_ := true }, { pc := .count, holds := true }) := by
      rw [getFreeBlock, hpc]
      exact if_neg (by simp [hmutex])
    apply h.of_same hst hact rfl
    · simp only [Call.block, hpc]
    · rw [hholds, hmutex]
      exact .lock
    · rfl
  | count =>
    have hholds : (s.locals i).holds = true := by simpa only [Call.Ok, hpc] using hcall
    have hcount := hok hpc
    have hact : getFreeBlock s.shared (s.locals i) =
        some (s.shared, { s.locals i with pc := .start }) := by
      rw [getFreeBlock, hpc]
      simp only [if_pos hcount]
    apply h.of_same hst hact rfl _ (.skip _ _) ⟨hholds, hcount⟩
    simp only [Call.block, hpc]
  | start =>
    obtain ⟨hholds, -⟩ : (s.locals i).holds = true ∧ 0 < s.shared.free_.list.count_ := by
      simpa only [Call.Ok, hpc] using hcall
    have hsome := Threads.step_self hst
    simp only [getFreeBlock, hpc, Option.map_eq_some_iff] at hsome
    obtain ⟨block, hstart, -⟩ := hsome
    have hact : getFreeBlock s.shared (s.locals i) =
        some (s.shared, { s.locals i with pc := .remove block }) := by
      rw [getFreeBlock, hpc]
      simp only [hstart, Option.map_some]
    apply h.of_same hst hact rfl _ (.skip _ _) ⟨hholds, hstart⟩
    simp only [Call.block, hpc]
  | remove block => exact h.remove hst hpc
  | unlock block =>
    have hholds : (s.locals i).holds = true := by simpa only [Call.Ok, hpc] using hcall
    have hact : getFreeBlock s.shared (s.locals i) =
        some ({ s.shared with mutex_ := false }, { pc := .co_return block, holds := false }) := by
      rw [getFreeBlock, hpc]
    apply h.of_same hst hact rfl
    · simp only [Call.block, hpc]
    · rw [hholds, h.locked_iff.mpr ⟨i, hholds⟩]
      exact .unlock
    · rfl
  | co_return block =>
    have hact : getFreeBlock s.shared (s.locals i) =
        some (s.shared, { s.locals i with pc := .finished (some block) }) := by
      rw [getFreeBlock, hpc]
    apply h.of_same hst hact rfl _ (.skip _ _)
    · simpa only [Call.Ok, hpc] using hcall
    · simp only [Call.block, hpc]
  | finished block =>
    have hact := Threads.step_self hst
    simp [getFreeBlock, hpc] at hact

/-- A call that finds `free_` empty keeps the mutex for good. -/
theorem Good.spoil (h : Good xs s) (hbad : ¬ FindsBlock s l) (hst : machine.step s l = some t) :
    ¬ HandOut xs t := by
  obtain ⟨i, _⟩ := l
  obtain ⟨hpc, hcount⟩ := Classical.not_imp.mp hbad
  have hcall := h.call i
  simp only [Call.Ok, hpc] at hcall
  have hact := Threads.step_self hst
  simp only [getFreeBlock, hpc, if_neg hcount, Option.some.injEq, Prod.mk.injEq] at hact
  obtain ⟨-, hlocal⟩ := hact
  intro hout
  have hreleased := hout.released i none (by rw [← hlocal])
  rw [← hlocal, hcall] at hreleased
  cases hreleased

omit [DecidableEq ι] in
/-- A call with the mutex or with a block always has its next line to go on with: `start_` is an
element, and the `assert` in `Remove` does not fail. -/
theorem Good.next_isSome (h : Good xs s) (hcall : (s.locals i).holds = true ∨
    ∃ block, (s.locals i).pc = .co_return block) :
    (getFreeBlock s.shared (s.locals i)).isSome = true := by
  obtain ⟨free, hwf, -⟩ := h.allotted
  have hok := h.call i
  cases hpc : (s.locals i).pc with
  | idle | co_lock => simp [Call.Ok, hpc] at hok; simp [hok, hpc] at hcall
  | count | unlock | co_return => simp [getFreeBlock, hpc]
  | start =>
    simp only [Call.Ok, hpc, hwf.count, List.length_pos_iff_exists_mem] at hok
    obtain ⟨x, hx⟩ := hok.2
    simp only [getFreeBlock, hpc, hwf.first_eq, Option.isSome_map]
    exact List.isSome_head?.mpr (List.ne_nil_of_mem hx)
  | remove block =>
    simp only [Call.Ok, hpc] at hok
    have hblock : block ∈ free := List.mem_of_mem_head? (hwf.first_eq.symm.trans hok.2)
    obtain ⟨free_, hremove, -⟩ := hwf.Remove hblock
    simp [getFreeBlock, hpc, hremove]
  | finished block =>
    cases block with
    | none => simp [Call.Ok, hpc] at hok
    | some block => simp [Call.Ok, hpc] at hok; simp [hok, hpc] at hcall

/-- No block goes to two callers, the blocks handed out and those in `free_` are the initial ones,
and finished calls have released the mutex, in exactly the runs in which every call that looks at
`count_` finds a block. -/
theorem handOut_iff {tr : List (Threads ι (Buffer α) (Call α) × (ι × Unit))}
    (hs : machine.start s) (hxs : s.shared.free_.WellFormed xs) (htr : machine.Trace s tr t) :
    (∀ u ∈ Machine.visited tr t, HandOut xs u) ↔ ∀ p ∈ tr, FindsBlock p.1 p.2 :=
  htr.forall_visited_iff (fun _ => Good.handOut) (fun _ _ _ h hok hst => h.step hok hst)
    (fun _ _ _ h hbad hst => h.spoil hbad hst) (Good.start hs hxs)

/-- A buffer with the one free block 7, and no call yet. -/
def oneBlock : Threads ℕ (Buffer ℕ) (Call ℕ) where
  shared := { free_ := IntrusiveList.Append {} 7 }
  locals := fun _ => {}

theorem oneBlock_wellFormed : oneBlock.shared.free_.WellFormed [7] :=
  (IntrusiveList.WellFormed.empty fun _ => {}).Append (by simp)

theorem oneBlock_start : machine.start oneBlock :=
  ⟨rfl, ⟨_, oneBlock_wellFormed⟩, fun _ => rfl⟩

/-- The second call asks for the mutex while the first one has it. -/
def twoCalls : List (ℕ × Unit) :=
  [(0, ()), (1, ()), (0, ()), (0, ()), (0, ()), (0, ()), (0, ()), (1, ()), (0, ())]

/-- The first call gets the block; the next step, in which the second call finds `free_` empty, is
one too many. -/
theorem handOut_iff_two : ∃ tr t t', machine.Trace oneBlock tr t ∧
    tr.map Prod.snd = twoCalls ∧ (t.locals 0).pc = .finished (some 7) ∧
    machine.step t (1, ()) = some t' ∧ (∀ u ∈ Machine.visited tr t, HandOut [7] u) ∧
    ¬ ∀ u ∈ Machine.visited (tr ++ [(t, (1, ()))]) t', HandOut [7] u := by
  have hrun : ((machine.restrict FindsBlock).run oneBlock twoCalls).any (fun t =>
      (t.locals 0).pc = .finished (some 7) ∧ ¬ FindsBlock t (1, ()) ∧
      (machine.step t (1, ())).isSome = true) = true := by decide +kernel
  obtain ⟨t, ht, hpc, hempty, hnext⟩ := Machine.exists_of_run hrun
  obtain ⟨tr, htr, hls, hok⟩ := Machine.Trace.of_restrict ht
  obtain ⟨t', hst⟩ := Option.isSome_iff_exists.mp hnext
  refine ⟨tr, t, t', htr, hls, hpc, hst,
    (handOut_iff oneBlock_start oneBlock_wellFormed htr).mpr hok, ?_⟩
  intro hall
  have hfinds := (handOut_iff oneBlock_start oneBlock_wellFormed (htr.snoc hst)).mp hall
  exact hempty (hfinds (t, (1, ())) (by simp))

/-- One call on an empty list finishes with the mutex locked. -/
theorem not_handOut : ¬ ∀ (xs : List ℕ) (s t : Threads ℕ (Buffer ℕ) (Call ℕ))
    (tr : List (Threads ℕ (Buffer ℕ) (Call ℕ) × (ℕ × Unit))), machine.start s →
    s.shared.free_.WellFormed xs → machine.Trace s tr t → HandOut xs t := by
  intro h
  have hrun : (machine.run (⟨{}, fun _ => {}⟩ : Threads ℕ (Buffer ℕ) (Call ℕ))
      [(0, ()), (0, ()), (0, ())]).any (fun t =>
      (t.locals 0).pc = .finished none ∧ (t.locals 0).holds = true) = true := by decide +kernel
  obtain ⟨t, ht, hpc, hholds⟩ := Machine.exists_of_run hrun
  obtain ⟨tr, htr, -⟩ := Machine.Trace.of_run ht
  have hwf := IntrusiveList.WellFormed.empty (α := ℕ) fun _ => {}
  have hout := h [] _ t tr ⟨rfl, ⟨_, hwf⟩, fun _ => rfl⟩ hwf htr
  rw [hout.released 0 none hpc] at hholds
  cases hholds

end Buffer

end QStorage.Tools
