import QStorage.Lib.Machine
import Mathlib.Data.List.Nodup
import Mathlib.Logic.Function.Basic

/-!
# Threads over a shared memory

Every thread runs the same code: `act` is what one atomic action of a thread does to the memory
and to the thread's own state. A label of the machine names the thread and its action.

## Main results

* `Threads.solo` — what a thread keeps that runs alone.
* `Threads.erase` — a thread whose actions leave the memory as it is can be left out of a run.
* `Threads.Exclusive.step` — a lock that is only taken when it is free has one holder at most.
* `Threads.Allotted.take` — what leaves the pool goes to one thread.
-/

namespace QStorage.Lib

variable {ι Shared Local Act : Type*}

/-- The memory and the state of each thread. -/
structure Threads (ι Shared Local : Type*) where
  shared : Shared
  locals : ι → Local

namespace Threads

variable [DecidableEq ι]

def machine (act : Shared → Local → Act → Option (Shared × Local))
    (start : Threads ι Shared Local → Prop) : Machine (Threads ι Shared Local) (ι × Act) where
  start := start
  step s l := (act s.shared (s.locals l.1) l.2).map fun r =>
    { shared := r.1, locals := Function.update s.locals l.1 r.2 }

variable {act : Shared → Local → Act → Option (Shared × Local)}
  {start : Threads ι Shared Local → Prop} {s t : Threads ι Shared Local} {i : ι} {a : Act}
  {ls : List (ι × Act)}

theorem step_iff : (machine act start).step s (i, a) = some t ↔
    ∃ l, act s.shared (s.locals i) a = some (t.shared, l) ∧
      t.locals = Function.update s.locals i l := by
  simp only [machine, Option.map_eq_some_iff, Prod.exists]
  constructor
  · rintro ⟨x, l, hact, rfl⟩
    exact ⟨l, hact, rfl⟩
  · rintro ⟨l, hact, hlocals⟩
    refine ⟨t.shared, l, hact, ?_⟩
    cases t
    cases hlocals
    rfl

theorem step_self (hst : (machine act start).step s (i, a) = some t) :
    act s.shared (s.locals i) a = some (t.shared, t.locals i) := by
  obtain ⟨l, hact, hlocals⟩ := step_iff.mp hst
  rw [hact, hlocals, Function.update_self]

theorem step_other {j : ι} (hst : (machine act start).step s (i, a) = some t) (hj : j ≠ i) :
    t.locals j = s.locals j := by
  obtain ⟨l, -, hlocals⟩ := step_iff.mp hst
  rw [hlocals, Function.update_of_ne hj]

/-- A thread that takes no step stays where it is. -/
theorem locals_eq_of_trace {tr : List (Threads ι Shared Local × (ι × Act))}
    (h : (machine act start).Trace s tr t) (hi : ∀ p ∈ tr, p.2.1 ≠ i) :
    t.locals i = s.locals i := by
  induction h with
  | nil => rfl
  | snoc _ hst ih =>
    rw [List.forall_mem_append, List.forall_mem_singleton] at hi
    rw [step_other hst (Ne.symm hi.2), ih hi.1]

/-- A thread whose weight every action lowers takes no more steps than it weighs. -/
theorem countP_le_of_weight (weight : Local → ℕ)
    (lower : ∀ x l a x' l', act x l a = some (x', l') → weight l' < weight l)
    {tr : List (Threads ι Shared Local × (ι × Act))} (h : (machine act start).Trace s tr t)
    (i : ι) : (tr.countP fun p => p.2.1 = i) + weight (t.locals i) ≤ weight (s.locals i) := by
  induction h with
  | nil => simp
  | @snoc u v l tr _ hst ih =>
    obtain ⟨j, a⟩ := l
    rw [List.countP_append, List.countP_singleton]
    by_cases hj : j = i
    · subst hj
      have hlower := lower _ _ _ _ _ (step_self hst)
      simp only [decide_true, if_true]
      omega
    · rw [step_other hst (Ne.symm hj)]
      simpa [hj] using ih

/-- A thread that runs alone keeps what its own actions keep. -/
theorem solo {J : Shared → Local → Prop} {P : Act → Prop}
    (keep : ∀ x l a x' l', J x l → P a → act x l a = some (x', l') → J x' l')
    (hs : J s.shared (s.locals i)) (hls : ∀ l ∈ ls, l.1 = i ∧ P l.2)
    (h : (machine act start).run s ls = some t) : J t.shared (t.locals i) := by
  refine Machine.run_induction (I := fun u => J u.shared (u.locals i)) ?_ hs hls h
  intro u l v hu hl hst
  obtain ⟨rfl, hP⟩ := hl
  exact keep _ _ l.2 _ _ hu hP (step_self hst)

/-- Two states that a thread other than `i` cannot tell apart. -/
def SameBut (i : ι) (s u : Threads ι Shared Local) : Prop :=
  s.shared = u.shared ∧ ∀ j, j ≠ i → s.locals j = u.locals j

theorem SameBut.step {u : Threads ι Shared Local} {j : ι} (h : SameBut i s u) (hj : j ≠ i)
    (hst : (machine act start).step s (j, a) = some t) :
    ∃ v, (machine act start).step u (j, a) = some v ∧ SameBut i t v := by
  obtain ⟨l, hact, hlocals⟩ := step_iff.mp hst
  refine ⟨⟨t.shared, Function.update u.locals j l⟩, step_iff.mpr ⟨l, ?_, rfl⟩, rfl, ?_⟩
  · rw [← h.1, ← h.2 j hj]
    exact hact
  · intro k hk
    rw [hlocals]
    simp only [Function.update_apply, h.2 k hk]

/-- Thread `i` can be left out of a run that ends with the thread where it can only get by
actions that leave the memory as it is. -/
theorem erase {Q : Local → Prop} {P : Act → Prop}
    (hQ : ∀ x l a x' l', P a → act x l a = some (x', l') → Q l' → Q l ∧ x' = x)
    (hls : ∀ l ∈ ls, P l.2) (h : (machine act start).run s ls = some t) (ht : Q (t.locals i)) :
    ∃ u, (machine act start).run s (ls.filter (·.1 ≠ i)) = some u ∧ SameBut i t u := by
  induction ls using List.reverseRecOn generalizing t with
  | nil => exact ⟨t, h, rfl, fun _ _ => rfl⟩
  | append_singleton ls l ih =>
    obtain ⟨v, hv, hst⟩ := Machine.run_concat_eq_some.mp h
    have hbefore : ∀ k ∈ ls, P k.2 := fun k hk => hls k (List.mem_append_left _ hk)
    rw [List.filter_append]
    by_cases hl : l.1 = i
    · subst hl
      obtain ⟨hv', hshared⟩ := hQ _ _ l.2 _ _ (hls l (by simp)) (step_self hst) ht
      obtain ⟨u, hu, hsame⟩ := ih hbefore hv hv'
      refine ⟨u, by simpa using hu, hshared.trans hsame.1, ?_⟩
      intro j hj
      exact (step_other hst hj).trans (hsame.2 j hj)
    · have hother := step_other hst (Ne.symm hl)
      obtain ⟨u, hu, hsame⟩ := ih hbefore hv (hother ▸ ht)
      obtain ⟨w, hw, hsame'⟩ := hsame.step hl hst
      refine ⟨w, ?_, hsame'⟩
      rw [List.filter_cons_of_pos (by simpa using hl), List.filter_nil]
      exact Machine.run_concat_eq_some.mpr ⟨u, hu, hw⟩

/-! ## A lock -/

/-- The lock is taken exactly if some thread holds it, and no two threads do. -/
structure Exclusive (locked : Shared → Bool) (holds : Local → Bool)
    (s : Threads ι Shared Local) : Prop where
  locked_iff : locked s.shared = true ↔ ∃ i, holds (s.locals i) = true
  unique : ∀ i j, holds (s.locals i) = true → holds (s.locals j) = true → i = j

/-- What an action may do to the lock, and to whether its thread holds it. -/
inductive LockStep : (locked held locked' held' : Bool) → Prop
  | skip (locked held : Bool) : LockStep locked held locked held
  | lock : LockStep false false true true
  | unlock : LockStep true true false false

variable {locked : Shared → Bool} {holds : Local → Bool}

theorem Exclusive.step (h : Exclusive locked holds s)
    (hst : (machine act start).step s (i, a) = some t)
    (hlock : LockStep (locked s.shared) (holds (s.locals i)) (locked t.shared)
      (holds (t.locals i))) : Exclusive locked holds t := by
  have hother {j : ι} (hj : j ≠ i) : t.locals j = s.locals j := step_other hst hj
  generalize hls : locked s.shared = ls, hhs : holds (s.locals i) = hs,
    hlt : locked t.shared = lt, hht : holds (t.locals i) = ht at hlock
  cases hlock with
  | skip =>
    have hholds (j : ι) : holds (t.locals j) = holds (s.locals j) := by
      by_cases hj : j = i
      · rw [hj, hht, hhs]
      · rw [hother hj]
    refine ⟨?_, fun j k => ?_⟩
    · simp only [hholds, hlt, ← hls, h.locked_iff]
    · simp only [hholds]
      exact h.unique j k
  | lock =>
    have honly {j : ι} (hj : holds (t.locals j) = true) : j = i := by
      by_contra hne
      rw [hother hne] at hj
      exact absurd (h.locked_iff.mpr ⟨j, hj⟩) (by simp [hls])
    exact ⟨⟨fun _ => ⟨i, hht⟩, fun _ => hlt⟩, fun j k hj hk => (honly hj).trans (honly hk).symm⟩
  | unlock =>
    have hnone (j : ι) : holds (t.locals j) ≠ true := by
      intro hj
      by_cases hne : j = i
      · simp [hne, hht] at hj
      · rw [hother hne] at hj
        exact hne (h.unique j i hj hhs)
    refine ⟨⟨?_, fun ⟨j, hj⟩ => absurd hj (hnone j)⟩, fun j _ hj => absurd hj (hnone j)⟩
    intro htrue
    simp [hlt] at htrue

/-! ## A pool -/

section Pool

variable {α : Type*} {xs pool : List α} {has has' : ι → Option α} {x : α}

/-- The things `xs` are in the pool or with one thread each. -/
structure Allotted (xs pool : List α) (has : ι → Option α) : Prop where
  mem_iff : ∀ x, x ∈ xs ↔ x ∈ pool ∨ ∃ i, has i = some x
  not_mem : ∀ i x, has i = some x → x ∉ pool
  unique : ∀ i j x, has i = some x → has j = some x → i = j

omit [DecidableEq ι] in
theorem Allotted.full (h : ∀ i, has i = none) : Allotted xs xs has := by
  constructor <;> simp [h]

theorem Allotted.take [DecidableEq α] (h : Allotted xs pool has) (hnodup : pool.Nodup)
    (hx : x ∈ pool) (hbefore : has i = none) (hafter : has' i = some x)
    (hother : ∀ j, j ≠ i → has' j = has j) : Allotted xs (pool.erase x) has' := by
  have hfresh (j : ι) : has j ≠ some x := fun hj => h.not_mem j x hj hx
  refine ⟨fun y => ?_, fun j y hj hy => ?_, fun j k y hj hk => ?_⟩
  · rw [h.mem_iff, hnodup.mem_erase_iff]
    constructor
    · rintro (hy | ⟨j, hj⟩)
      · by_cases heq : y = x
        · exact .inr ⟨i, heq ▸ hafter⟩
        · exact .inl ⟨heq, hy⟩
      · have hne : j ≠ i := by
          rintro rfl
          rw [hbefore] at hj
          cases hj
        exact .inr ⟨j, (hother j hne).trans hj⟩
    · rintro (⟨-, hy⟩ | ⟨j, hj⟩)
      · exact .inl hy
      · by_cases hne : j = i
        · rw [hne, hafter] at hj
          exact .inl (Option.some.inj hj ▸ hx)
        · exact .inr ⟨j, (hother j hne).symm.trans hj⟩
  · rw [hnodup.mem_erase_iff] at hy
    by_cases hne : j = i
    · rw [hne, hafter] at hj
      exact hy.1 (Option.some.inj hj).symm
    · exact h.not_mem j y ((hother j hne).symm.trans hj) hy.2
  · by_cases hji : j = i <;> by_cases hki : k = i
    · rw [hji, hki]
    · rw [hji, hafter] at hj
      rw [hother k hki, ← hj] at hk
      exact absurd hk (hfresh k)
    · rw [hki, hafter] at hk
      rw [hother j hji, ← hk] at hj
      exact absurd hj (hfresh j)
    · rw [hother j hji] at hj
      rw [hother k hki] at hk
      exact h.unique j k y hj hk

/-- A new thing comes in with a thread that had none. -/
theorem Allotted.add (h : Allotted xs pool has) (hx : x ∉ xs) (hbefore : has i = none)
    (hafter : has' i = some x) (hother : ∀ j, j ≠ i → has' j = has j) :
    Allotted (x :: xs) pool has' := by
  have hold {j : ι} {y : α} (hj : has j = some y) : has' j = some y ∧ y ≠ x := by
    refine ⟨?_, fun heq => hx ((h.mem_iff x).mpr (.inr ⟨j, heq ▸ hj⟩))⟩
    rw [hother j fun hji => by simp [hji, hbefore] at hj, hj]
  have hcases {j : ι} {y : α} (hj : has' j = some y) : (j = i ∧ y = x) ∨ has j = some y := by
    by_cases hji : j = i
    · rw [hji, hafter] at hj
      exact .inl ⟨hji, (Option.some.inj hj).symm⟩
    · exact .inr (hother j hji ▸ hj)
  refine ⟨fun y => ?_, fun j y hj => ?_, fun j k y hj hk => ?_⟩
  · rw [List.mem_cons, h.mem_iff]
    constructor
    · rintro (rfl | hy | ⟨j, hj⟩)
      · exact .inr ⟨i, hafter⟩
      · exact .inl hy
      · exact .inr ⟨j, (hold hj).1⟩
    · rintro (hy | ⟨j, hj⟩)
      · exact .inr (.inl hy)
      · rcases hcases hj with ⟨-, rfl⟩ | hj
        · exact .inl rfl
        · exact .inr (.inr ⟨j, hj⟩)
  · rcases hcases hj with ⟨-, rfl⟩ | hj
    · exact fun hpool => hx ((h.mem_iff y).mpr (.inl hpool))
    · exact h.not_mem j y hj
  · rcases hcases hj with ⟨rfl, rfl⟩ | hj <;> rcases hcases hk with ⟨rfl, hkx⟩ | hk
    · rfl
    · exact absurd rfl (hold hk).2
    · exact absurd hkx (hold hj).2
    · exact h.unique j k y hj hk

/-- A thread leaves with what it has. -/
theorem Allotted.remove [DecidableEq α] (h : Allotted xs pool has) (hbefore : has i = some x)
    (hafter : has' i = none) (hother : ∀ j, j ≠ i → has' j = has j) :
    Allotted (xs.filter (· ≠ x)) pool has' := by
  have hold {j : ι} {y : α} : has' j = some y ↔ has j = some y ∧ y ≠ x := by
    by_cases hji : j = i
    · subst hji
      rw [hafter, hbefore]
      grind
    · rw [hother j hji]
      exact ⟨fun hj => ⟨hj, fun heq => hji (h.unique j i x (heq ▸ hj) hbefore)⟩, And.left⟩
  refine ⟨fun y => ?_, fun j y hj => h.not_mem j y (hold.mp hj).1,
    fun j k y hj hk => h.unique j k y (hold.mp hj).1 (hold.mp hk).1⟩
  have hpool : y ∈ pool → y ≠ x := fun hy heq => h.not_mem i x hbefore (heq ▸ hy)
  simp only [List.mem_filter, h.mem_iff, hold, decide_eq_true_eq]
  grind

omit [DecidableEq ι] in
/-- There are as many things as in the pool and with the threads. -/
theorem Allotted.length_eq (h : Allotted xs pool has) (hxs : xs.Nodup) (hpool : pool.Nodup)
    {ids : List ι} (hids : ids.Nodup) (hhas : ∀ i x, has i = some x → i ∈ ids) :
    xs.length = pool.length + ids.countP fun i => (has i).isSome := by
  have hwith : (ids.filterMap has).Nodup := hids.filterMap fun i j x hi hj => h.unique i j x hi hj
  have hperm : xs.Perm (pool ++ ids.filterMap has) := by
    rw [List.perm_ext_iff_of_nodup hxs]
    · intro x
      rw [h.mem_iff, List.mem_append, List.mem_filterMap]
      exact or_congr_right ⟨fun ⟨i, hi⟩ => ⟨i, hhas i x hi, hi⟩, fun ⟨i, _, hi⟩ => ⟨i, hi⟩⟩
    · refine List.nodup_append.mpr ⟨hpool, hwith, fun x hx y hy heq => ?_⟩
      obtain ⟨i, -, hi⟩ := List.mem_filterMap.mp hy
      exact h.not_mem i y hi (heq ▸ hx)
  rw [hperm.length_eq, List.length_append, List.length_filterMap_eq_countP]

end Pool

end Threads

end QStorage.Lib
