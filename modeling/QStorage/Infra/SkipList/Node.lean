import QStorage.Lib.Threads
import Mathlib.Data.Finset.Card
import Mathlib.Tactic.Ring

/-!
# Insertion into a skip-list node (`infra/skip_list.h`)

`SetKeyValue` runs in any number of threads; one action of a thread is one atomic step of the
call. The top bit of `count_` is the lock, and it is never taken off again.

## Main results

* `Node.quiet_run` — before the first `fetch_add` a node is as its constructor left it, up to the
  lock bit.
* `Node.insertions_correct_iff` — the insertions of a run are correct exactly if none reaches its
  `fetch_add`.
-/

namespace QStorage.Infra

open QStorage.Lib

variable {α : Type*}

/-- The fields of the class, the array as a function of the index. -/
structure Node (α : Type*) where
  count_ : BitVec 64 := 1
  commit_ : BitVec 64 := 1
  data_ : ℕ → α

namespace Node

/-- The constructor on an array with any contents. -/
def construct (data_ : ℕ → α) (key_value : α) : Node α :=
  { data_ := Function.update data_ 0 key_value }

/-- `1ul << 63`. -/
def lockBit : BitVec 64 := 1 <<< 63

/-- A node, and the slots that calls have stored to. -/
structure Memory (α : Type*) extends Node α where
  writes : List ℕ := []

/-- Where a call stands. `returned` has the result, which is `none` at the end of the function,
where the source has no `return`, and the slot that was stored to. -/
inductive Pc where
  | idle
  /-- Before a `compare_exchange_weak` that expects `res`. -/
  | exchange (res : BitVec 64)
  | add
  | store (index : ℕ)
  | commit (index : ℕ)
  | returned (result : Option Bool) (slot : Option ℕ)
  deriving DecidableEq, Repr

structure Call (α : Type*) where
  pc : Pc := .idle
  key_value : α

inductive Act where
  | load
  /-- A weak exchange may fail although the values are equal. -/
  | exchange (spurious : Bool)
  | add
  | store
  | commit
  deriving DecidableEq, Repr

/-- The test against the capacity on the value of `count_` that a call has read. -/
def test (N : ℕ) (count_ : BitVec 64) (pc : Pc) : Pc :=
  if N ≤ count_.toNat then .returned (some false) none else pc

/-- One atomic step of `SetKeyValue` on a node of capacity `N`. -/
def SetKeyValue (N : ℕ) (x : Memory α) (c : Call α) : Act → Option (Memory α × Call α)
  | .load =>
    if c.pc = .idle then some (x, { c with pc := test N x.count_ (.exchange x.count_) }) else none
  | .exchange spurious =>
    match c.pc with
    | .exchange res =>
      if x.count_ = res ∧ spurious = false then
        some ({ x with count_ := res ||| lockBit }, { c with pc := .add })
      else some (x, { c with pc := .exchange x.count_ })
    | _ => none
  | .add =>
    if c.pc = .add then
      some ({ x with count_ := x.count_ + 1 },
        { c with pc := test N x.count_ (.store x.count_.toNat) })
    else none
  | .store =>
    match c.pc with
    | .store index =>
      some ({ x with
        data_ := Function.update x.data_ index c.key_value
        writes := x.writes ++ [index] }, { c with pc := .commit index })
    | _ => none
  | .commit =>
    match c.pc with
    | .commit index =>
      some ({ x with commit_ := x.commit_ + 1 }, { c with pc := .returned none (some index) })
    | _ => none

/-- Any number of calls on a fresh node. -/
def machine (N : ℕ) : Machine (Threads ℕ (Memory α) (Call α)) (ℕ × Act) :=
  Threads.machine (SetKeyValue N) fun s =>
    (∃ data_ key_value, s.shared = { construct data_ key_value with }) ∧
      ∀ i, (s.locals i).pc = .idle

/-! ## Correct insertions -/

/-- Call `i` has reported success and stored to `slot`. -/
def Succeeded (s : Threads ℕ (Memory α) (Call α)) (i slot : ℕ) : Prop :=
  (s.locals i).pc = .returned (some true) (some slot)

/-- The calls that succeeded hold slots of their own, and no slot was stored to twice. -/
structure SlotsOk (N : ℕ) (s : Threads ℕ (Memory α) (Call α)) : Prop where
  slot : ∀ i slot, Succeeded s i slot →
    1 ≤ slot ∧ slot < N ∧ s.shared.data_ slot = (s.locals i).key_value
  distinct : ∀ i j slot, Succeeded s i slot → Succeeded s j slot → i = j
  writes : s.shared.writes.Nodup ∧ 0 ∉ s.shared.writes

/-- The call is over or has not begun. -/
def Pc.quiescent : Pc → Bool
  | .idle | .returned _ _ => true
  | _ => false

/-- A call that runs alone from its beginning to its end succeeds while there are free slots. -/
def SoloOk (N : ℕ) (s : Threads ℕ (Memory α) (Call α)) (ls : List (ℕ × Act)) : Prop :=
  ∀ before during i u t (succeeded : Finset ℕ), ls = before ++ during →
    (machine N).run s before = some u → (∀ j, (u.locals j).pc.quiescent = true) →
    (u.locals i).pc = .idle → (∀ j, j ∈ succeeded ↔ ∃ slot, Succeeded u j slot) →
    succeeded.card < N - 1 → (∀ l ∈ during, l.1 = i) → (machine N).run u during = some t →
    ∀ result slot, (t.locals i).pc = .returned result slot → result = some true

/-- A call that reports failure leaves the node as the same run without the call does. -/
def FailuresOk (N : ℕ) (s : Threads ℕ (Memory α) (Call α)) (ls : List (ℕ × Act))
    (t : Threads ℕ (Memory α) (Call α)) : Prop :=
  ∀ i slot, (t.locals i).pc = .returned (some false) slot →
    ∃ u, (machine N).run s (ls.filter (·.1 ≠ i)) = some u ∧ u.shared.toNode = t.shared.toNode

/-- Up to every step of the run the insertions are correct. -/
def Correct (N : ℕ) (s : Threads ℕ (Memory α) (Call α)) (ls : List (ℕ × Act)) : Prop :=
  ∀ ks t, ks <+: ls → (machine N).run s ks = some t →
    SlotsOk N t ∧ SoloOk N s ks ∧ FailuresOk N s ks t

/-! ## Before the first `fetch_add` -/

/-- The value of `count_` once a call has taken the lock. -/
def locked : BitVec 64 := 1 ||| lockBit

/-- Where a call can stand before the first `fetch_add`. -/
def Pc.Early (count_ : BitVec 64) : Pc → Prop
  | .idle => True
  | .exchange res => res = 1 ∨ res = locked
  | .add => count_ = locked
  | .returned result _ => count_ = locked ∧ result = some false
  | .store _ | .commit _ => False

/-- The states before the first `fetch_add`: the lock is held for good by a call that has yet to
make it. -/
structure Quiet (s : Threads ℕ (Memory α) (Call α)) : Prop where
  count : s.shared.count_ = 1 ∨ s.shared.count_ = locked ∧ ∃ i, (s.locals i).pc = .add
  writes : s.shared.writes = []
  early : ∀ i, (s.locals i).pc.Early s.shared.count_

variable {N : ℕ} {s t u : Threads ℕ (Memory α) (Call α)} {i : ℕ} {ls ks : List (ℕ × Act)}

theorem Quiet.start (hs : (machine N).start s) : Quiet s := by
  obtain ⟨⟨data_, key_value, hshared⟩, hidle⟩ := hs
  refine ⟨.inl (by rw [hshared]; rfl), by rw [hshared], ?_⟩
  intro i
  rw [hidle i]
  trivial

theorem toNat_locked : locked.toNat = 2 ^ 63 + 1 := by rfl

theorem locked_or : locked ||| lockBit = locked := by
  rw [locked, BitVec.or_assoc, BitVec.or_self]

section Act

variable {x x' : Memory α} {c c' : Call α}

theorem load_iff : SetKeyValue N x c .load = some (x', c') ↔ c.pc = .idle ∧ x' = x ∧
    c' = { c with pc := test N x.count_ (.exchange x.count_) } := by
  simp [SetKeyValue, eq_comm]

theorem exchange_iff {spurious : Bool} :
    SetKeyValue N x c (.exchange spurious) = some (x', c') ↔ ∃ res, c.pc = .exchange res ∧
      ((x.count_ = res ∧ spurious = false ∧ x' = { x with count_ := res ||| lockBit } ∧
          c' = { c with pc := .add }) ∨
        (¬ (x.count_ = res ∧ spurious = false) ∧ x' = x ∧
          c' = { c with pc := .exchange x.count_ })) := by
  cases hpc : c.pc <;> simp [SetKeyValue, hpc]
  split <;> simp_all [eq_comm]

theorem add_iff : SetKeyValue N x c .add = some (x', c') ↔ c.pc = .add ∧
    x' = { x with count_ := x.count_ + 1 } ∧
    c' = { c with pc := test N x.count_ (.store x.count_.toNat) } := by
  simp [SetKeyValue, eq_comm]

theorem test_one (hN : 2 ≤ N) (pc : Pc) : test N 1 pc = pc :=
  if_neg (show ¬ N ≤ 1 by omega)

theorem test_locked (hmax : N ≤ 2 ^ 63) (pc : Pc) :
    test N locked pc = .returned (some false) none :=
  if_pos (by rw [toNat_locked]; omega)

/-- What one action other than `fetch_add` does before the first `fetch_add`. -/
theorem Pc.Early.act (hN : 2 ≤ N) (hmax : N ≤ 2 ^ 63) {a : Act}
    (hcount : x.count_ = 1 ∨ x.count_ = locked) (hpc : c.pc.Early x.count_) (ha : a ≠ .add)
    (hact : SetKeyValue N x c a = some (x', c')) :
    (x' = x ∨ x' = { x with count_ := locked } ∧ c'.pc = .add) ∧ c'.pc.Early x'.count_ ∧
      c.pc ≠ .add := by
  cases a with
  | load =>
    obtain ⟨hidle, rfl, rfl⟩ := load_iff.mp hact
    refine ⟨.inl rfl, ?_, by rw [hidle]; exact nofun⟩
    rcases hcount with hcount | hcount
    · simp only [hcount, test_one hN]
      exact .inl rfl
    · simp only [hcount, test_locked hmax]
      exact ⟨rfl, rfl⟩
  | exchange spurious =>
    obtain ⟨res, hexchange, ⟨-, -, rfl, rfl⟩ | ⟨-, rfl, rfl⟩⟩ := exchange_iff.mp hact
    · rw [hexchange] at hpc
      have hlocked : res ||| lockBit = locked := by
        rcases hpc with rfl | rfl
        · rfl
        · exact locked_or
      rw [hlocked]
      exact ⟨.inr ⟨rfl, rfl⟩, rfl, by rw [hexchange]; exact nofun⟩
    · exact ⟨.inl rfl, hcount, by rw [hexchange]; exact nofun⟩
  | add => exact absurd rfl ha
  | store =>
    cases hstore : c.pc with
    | store index =>
      rw [hstore] at hpc
      exact hpc.elim
    | _ => simp [SetKeyValue, hstore] at hact
  | commit =>
    cases hcommit : c.pc with
    | commit index =>
      rw [hcommit] at hpc
      exact hpc.elim
    | _ => simp [SetKeyValue, hcommit] at hact

end Act

/-- A call can stay where it stands when another one takes the lock. -/
theorem Pc.Early.lock {pc : Pc} {count_ : BitVec 64} (h : pc.Early count_) : pc.Early locked := by
  cases pc with
  | idle | exchange => exact h
  | add => rfl
  | returned => exact ⟨rfl, h.2⟩
  | store | commit => exact h.elim

theorem Quiet.step (hN : 2 ≤ N) (hmax : N ≤ 2 ^ 63) (h : Quiet s) {l : ℕ × Act}
    (hl : l.2 ≠ .add) (hst : (machine N).step s l = some t) : Quiet t := by
  obtain ⟨i, a⟩ := l
  have hcount : s.shared.count_ = 1 ∨ s.shared.count_ = locked := h.count.imp_right And.left
  obtain ⟨hmem, hearly, hnotadd⟩ :=
    (h.early i).act hN hmax hcount hl (Threads.step_self hst)
  have hother {j : ℕ} (hj : j ≠ i) : t.locals j = s.locals j := Threads.step_other hst hj
  have hwrites : t.shared.writes = [] := by
    rcases hmem with hsame | ⟨hlock, -⟩
    · rw [hsame, h.writes]
    · rw [hlock, h.writes]
  refine ⟨?_, hwrites, ?_⟩
  · rcases hmem with hsame | ⟨hlock, hadd⟩
    · rw [hsame]
      refine h.count.imp_right fun ⟨hlocked, j, hj⟩ => ⟨hlocked, j, ?_⟩
      rwa [hother (fun hji => hnotadd (hji ▸ hj))]
    · exact .inr ⟨by rw [hlock], i, hadd⟩
  · intro j
    by_cases hj : j = i
    · rw [hj]
      exact hearly
    · rw [hother hj]
      rcases hmem with hsame | ⟨hlock, -⟩
      · rw [hsame]
        exact h.early j
      · rw [hlock]
        exact (h.early j).lock

/-- Before the first `fetch_add` the node is as the constructor left it, up to the lock bit. -/
theorem quiet_run (hN : 2 ≤ N) (hmax : N ≤ 2 ^ 63) (hs : (machine N).start s)
    (hls : ∀ l ∈ ls, l.2 ≠ .add) (h : (machine N).run s ls = some t) : Quiet t :=
  Machine.run_induction (fun _ _ _ hu hl hst => hu.step hN hmax hl hst) (Quiet.start hs) hls h

/-- The first `fetch_add` of a run returns a value with the lock bit, so the call fails, and
leaves a count that no run has before a `fetch_add`. -/
theorem Quiet.add (hmax : N ≤ 2 ^ 63) (h : Quiet s)
    (hst : (machine N).step s (i, .add) = some t) :
    (t.locals i).pc = .returned (some false) none ∧ t.shared.count_ = locked + 1 := by
  obtain ⟨hadd, hmem, hcall⟩ := add_iff.mp (Threads.step_self hst)
  have hcount : s.shared.count_ = locked := by
    have hearly := h.early i
    rw [hadd] at hearly
    exact hearly
  rw [hmem, hcall, hcount, test_locked hmax]
  exact ⟨rfl, rfl⟩

/-! ## When insertions are correct -/

theorem Quiet.not_succeeded (h : Quiet s) (i slot : ℕ) : ¬ Succeeded s i slot := by
  intro hok
  have hearly := h.early i
  rw [hok] at hearly
  cases hearly.2

theorem Quiet.slotsOk (h : Quiet s) : SlotsOk N s where
  slot i slot hok := (h.not_succeeded i slot hok).elim
  distinct i _ slot hok := (h.not_succeeded i slot hok).elim
  writes := by simp [h.writes]

/-- A call that runs alone before the first `fetch_add` stops in front of it. -/
theorem soloOk_of_no_add (hN : 2 ≤ N) (hmax : N ≤ 2 ^ 63) (hs : (machine N).start s)
    (hls : ∀ l ∈ ls, l.2 ≠ .add) : SoloOk N s ls := by
  rintro before during i u t succeeded rfl hu hquiescent hidle - - halone ht result slot hend
  have hquiet := quiet_run hN hmax hs (fun l hl => hls l (List.mem_append_left _ hl)) hu
  have hone : u.shared.count_ = 1 := by
    rcases hquiet.count with hone | ⟨-, j, hadd⟩
    · exact hone
    · have hj := hquiescent j
      rw [hadd] at hj
      cases hj
  have halone' : ∀ l ∈ during, l.1 = i ∧ l.2 ≠ .add := fun l hl =>
    ⟨halone l hl, hls l (List.mem_append_right _ hl)⟩
  have hstops : (t.shared.count_ = 1 ∧ ((t.locals i).pc = .idle ∨ (t.locals i).pc = .exchange 1)) ∨
      (t.locals i).pc = .add := by
    refine Threads.solo (J := fun x c => (x.count_ = 1 ∧ (c.pc = .idle ∨ c.pc = .exchange 1)) ∨
      c.pc = .add) (P := (· ≠ .add)) ?_ (.inl ⟨hone, .inl hidle⟩) halone' ht
    intro x c a x' c' hJ ha hact
    cases a with
    | load =>
      obtain ⟨hidle, rfl, rfl⟩ := load_iff.mp hact
      obtain ⟨hone, -⟩ | hadd := hJ
      · refine .inl ⟨hone, .inr ?_⟩
        simp only [hone, test_one hN]
      · rw [hidle] at hadd
        cases hadd
    | exchange spurious =>
      obtain ⟨res, hexchange, ⟨-, -, rfl, rfl⟩ | ⟨-, rfl, rfl⟩⟩ := exchange_iff.mp hact
      · exact .inr rfl
      · obtain ⟨hone, -⟩ | hadd := hJ
        · exact .inl ⟨hone, .inr (by rw [hone])⟩
        · rw [hexchange] at hadd
          cases hadd
    | add => exact absurd rfl ha
    | store | commit => rcases hJ with ⟨-, hpc | hpc⟩ | hpc <;> simp [SetKeyValue, hpc] at hact
  rw [hend] at hstops
  simp at hstops

/-- The call has not begun, or has reported failure. -/
def Pc.Failed (pc : Pc) : Prop := pc = .idle ∨ ∃ slot, pc = .returned (some false) slot

/-- A call that fails without a `fetch_add` has only loaded the count. -/
theorem Pc.Failed.act {x x' : Memory α} {c c' : Call α} {a : Act} (ha : a ≠ .add)
    (hact : SetKeyValue N x c a = some (x', c')) (hfailed : c'.pc.Failed) :
    c.pc.Failed ∧ x' = x := by
  cases a with
  | load =>
    obtain ⟨hidle, rfl, -⟩ := load_iff.mp hact
    exact ⟨.inl hidle, rfl⟩
  | exchange spurious =>
    obtain ⟨res, -, ⟨-, -, -, rfl⟩ | ⟨-, -, rfl⟩⟩ := exchange_iff.mp hact <;>
      simp [Pc.Failed] at hfailed
  | add => exact absurd rfl ha
  | store =>
    cases hpc : c.pc <;> simp [SetKeyValue, hpc] at hact
    obtain ⟨-, rfl⟩ := hact
    simp [Pc.Failed] at hfailed
  | commit =>
    cases hpc : c.pc <;> simp [SetKeyValue, hpc] at hact
    obtain ⟨-, rfl⟩ := hact
    simp [Pc.Failed] at hfailed

theorem failuresOk_of_no_add (hls : ∀ l ∈ ls, l.2 ≠ .add) (h : (machine N).run s ls = some t) :
    FailuresOk N s ls t := by
  intro i slot hfailed
  obtain ⟨u, hu, hsame, -⟩ := Threads.erase (Q := fun c : Call α => c.pc.Failed)
    (P := (· ≠ .add)) (fun _ _ _ _ _ ha hact hfailed => hfailed.act ha hact) hls h
    (.inr ⟨slot, hfailed⟩)
  exact ⟨u, hu, by rw [hsame]⟩

/-- A run with a `fetch_add` has a first one. -/
theorem first_add (h : ∃ l ∈ ls, l.2 = .add) :
    ∃ ks i rest, ls = ks ++ [(i, .add)] ++ rest ∧ ∀ k ∈ ks, k.2 ≠ .add := by
  have hfind : (ls.find? fun l => l.2 = .add).isSome := by simpa using h
  obtain ⟨⟨i, a⟩, hl⟩ := Option.isSome_iff_exists.mp hfind
  obtain ⟨ha, ks, rest, rfl, hks⟩ := List.find?_eq_some_iff_append.mp hl
  obtain rfl : a = .add := by simpa using ha
  exact ⟨ks, i, rest, by simp, by simpa using hks⟩

/-- `fetch_add` returns the count with the lock bit, which is never below the capacity, as no array
has more than `2 ^ 63` elements. The first call to get there is refused, and leaves the count
changed. -/
theorem insertions_correct_iff (hN : 2 ≤ N) (hmax : N ≤ 2 ^ 63) (hs : (machine N).start s)
    (h : (machine N).run s ls = some t) : Correct N s ls ↔ ∀ l ∈ ls, l.2 ≠ .add := by
  constructor
  · intro hcorrect
    by_contra hadd
    push Not at hadd
    obtain ⟨ks, i, rest, rfl, hks⟩ := first_add hadd
    obtain ⟨v, hv, -⟩ := Machine.run_append_eq_some.mp h
    obtain ⟨u, hu, hst⟩ := Machine.run_concat_eq_some.mp hv
    obtain ⟨hfailed, hcount⟩ := (quiet_run hN hmax hs hks hu).add hmax hst
    obtain ⟨w, hw, hsame⟩ := (hcorrect _ v (List.prefix_append _ _) hv).2.2 i none hfailed
    rw [List.filter_append, List.filter_cons_of_neg (by simp), List.filter_nil,
      List.append_nil] at hw
    have hquiet := quiet_run hN hmax hs (fun l hl => hks l (List.mem_of_mem_filter hl)) hw
    have hcount' : w.shared.count_ = locked + 1 := (congrArg Node.count_ hsame).trans hcount
    rcases hquiet.count with hone | ⟨hlocked, -⟩
    · rw [hcount'] at hone
      exact absurd hone (by decide)
    · rw [hcount'] at hlocked
      exact absurd hlocked (by decide)
  · intro hls ks u hsub hu
    have hks : ∀ l ∈ ks, l.2 ≠ .add := fun l hl => hls l (hsub.subset hl)
    have hquiet := quiet_run hN hmax hs hks hu
    exact ⟨hquiet.slotsOk, soloOk_of_no_add hN hmax hs hks, failuresOk_of_no_add hks hu⟩

/-- A node with one key, and calls that have not begun. -/
def fresh : Threads ℕ (Memory ℕ) (Call ℕ) where
  shared := { construct (fun _ => 0) 7 with }
  locals i := { key_value := i }

theorem fresh_start {N : ℕ} : (machine N).start fresh :=
  ⟨⟨fun _ => 0, 7, rfl⟩, fun _ => rfl⟩

/-- Two calls race for the lock, and a third one is refused for it. -/
def raceRun : List (ℕ × Act) :=
  [(0, .load), (1, .load), (0, .exchange false), (1, .exchange false), (2, .load),
    (1, .exchange true)]

theorem insertions_correct_race : Correct 2 fresh raceRun := by
  obtain ⟨t, ht⟩ := Option.isSome_iff_exists.mp
    (show ((machine 2).run fresh raceRun).isSome = true by decide +kernel)
  exact (insertions_correct_iff (by decide) (by decide) fresh_start ht).mpr (by decide)

/-- One call alone on a node with a free slot. -/
def soloRun : List (ℕ × Act) := [(0, .load), (0, .exchange false), (0, .add)]

theorem not_correct_solo : ¬ ∀ (N : ℕ) (s t : Threads ℕ (Memory ℕ) (Call ℕ))
    (ls : List (ℕ × Act)), 2 ≤ N → (machine N).start s → (machine N).run s ls = some t →
    Correct N s ls := by
  intro h
  have hrun : ((machine 2).run fresh soloRun).any (fun t =>
      (t.locals 0).pc = .returned (some false) none) = true := by decide +kernel
  obtain ⟨t, ht, hend⟩ := Machine.exists_of_run hrun
  have hcorrect := h 2 fresh t soloRun (by decide) fresh_start ht
  have hsolo := (hcorrect soloRun t (List.prefix_refl _) ht).2.1
  have hnone : ∀ j, j ∈ (∅ : Finset ℕ) ↔ ∃ slot, Succeeded fresh j slot := by
    simp [Succeeded, fresh]
  have hok := hsolo [] soloRun 0 fresh t ∅ rfl rfl (fun _ => rfl) rfl hnone (by decide) (by decide)
    ht _ _ hend
  cases hok

end Node

end QStorage.Infra
