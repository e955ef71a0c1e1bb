import Mathlib.Data.List.Induction

/-!
# Labelled machines

A machine is an executable step function: the label resolves every choice the
environment makes, and `none` means that the label is not enabled. Traces keep
the state each step was taken in, so a condition on a step can speak about the
state before it.

## Main definitions

* `Machine.Trace` — finite runs with the list of their steps.
* `Machine.Reachable`, `Machine.ReachableVia` — states reached by any run, and by
  runs all of whose steps meet a condition.
* `Machine.Refinement` — simulation of one machine by another, up to stuttering.
-/

namespace QStorage.Lib

/-- A labelled transition system with a deterministic step for each label. -/
structure Machine (State Label : Type*) where
  start : State → Prop
  step : State → Label → Option State

namespace Machine

variable {State Label : Type*} (M : Machine State Label)

/-- Take the labels in order, stopping at the first one that is not enabled. -/
def run (s : State) (ls : List Label) : Option State := ls.foldlM M.step s

/-- `M.Trace s tr t` : a run from `s` to `t`; `tr` lists its steps, each as the
state it was taken in and its label. -/
inductive Trace (s : State) : List (State × Label) → State → Prop
  | nil : Trace s [] s
  | snoc {t u : State} {l : Label} {tr : List (State × Label)} :
      Trace s tr t → M.step t l = some u → Trace s (tr ++ [(t, l)]) u

/-- All states of a run, the last one included. -/
def visited (tr : List (State × Label)) (t : State) : List State := tr.map Prod.fst ++ [t]

/-- Reached from a start state by a run whose steps all meet `ok`. -/
def ReachableVia (ok : State → Label → Prop) (t : State) : Prop :=
  ∃ s tr, M.start s ∧ M.Trace s tr t ∧ ∀ p ∈ tr, ok p.1 p.2

/-- Reached from a start state by some run. -/
def Reachable (t : State) : Prop := ∃ s tr, M.start s ∧ M.Trace s tr t

variable {M}

theorem ReachableVia.init {ok : State → Label → Prop} {s : State} (h : M.start s) :
    M.ReachableVia ok s := ⟨s, [], h, .nil, by simp⟩

theorem ReachableVia.next {ok : State → Label → Prop} {s t : State} {l : Label}
    (h : M.ReachableVia ok s) (hok : ok s l) (hst : M.step s l = some t) :
    M.ReachableVia ok t := by
  obtain ⟨r, tr, hr, htr, hall⟩ := h
  refine ⟨r, _, hr, htr.snoc hst, ?_⟩
  exact List.forall_mem_append.mpr ⟨hall, List.forall_mem_singleton.mpr hok⟩

theorem Reachable.init {s : State} (h : M.start s) : M.Reachable s := ⟨s, [], h, .nil⟩

theorem Reachable.next {s t : State} {l : Label} (h : M.Reachable s)
    (hst : M.step s l = some t) : M.Reachable t := by
  obtain ⟨r, tr, hr, htr⟩ := h
  exact ⟨r, _, hr, htr.snoc hst⟩

/-- Induction over the runs whose steps meet `ok`; the step case may use that the
state before the step is itself reached this way. -/
theorem ReachableVia.induction {ok : State → Label → Prop}
    {motive : ∀ t, M.ReachableVia ok t → Prop}
    (init : ∀ s (hs : M.start s), motive s (.init hs))
    (next : ∀ s l t (h : M.ReachableVia ok s) (hok : ok s l) (hst : M.step s l = some t),
      motive s h → motive t (h.next hok hst))
    {t : State} (h : M.ReachableVia ok t) : motive t h := by
  obtain ⟨s, tr, hs, htr, hok⟩ := h
  induction htr with
  | nil => exact init s hs
  | @snoc u v l tr htr hstep ih =>
    have hbefore : ∀ p ∈ tr, ok p.1 p.2 := fun p hp => hok p (List.mem_append_left _ hp)
    exact next u l v ⟨s, tr, hs, htr, hbefore⟩ (hok (u, l) (by simp)) hstep (ih hbefore)

/-- An inductive invariant holds in every reachable state. -/
theorem Reachable.induction {motive : ∀ t, M.Reachable t → Prop}
    (init : ∀ s (hs : M.start s), motive s (.init hs))
    (next : ∀ s l t (h : M.Reachable s) (hst : M.step s l = some t),
      motive s h → motive t (h.next hst))
    {t : State} (h : M.Reachable t) : motive t h := by
  obtain ⟨s, tr, hs, htr⟩ := h
  induction htr with
  | nil => exact init s hs
  | @snoc u v l tr htr hstep ih => exact next u l v ⟨s, tr, hs, htr⟩ hstep ih

/-- A successful replay is a run. -/
theorem Trace.of_run {s t : State} {ls : List Label} (h : M.run s ls = some t) :
    ∃ tr, M.Trace s tr t ∧ tr.map Prod.snd = ls := by
  induction ls using List.reverseRecOn generalizing t with
  | nil =>
    obtain rfl : s = t := by simpa [run] using h
    exact ⟨[], .nil, rfl⟩
  | append_singleton ls l ih =>
    simp only [run, List.foldlM_append] at h
    cases hu : M.run s ls with
    | none => simp [show List.foldlM M.step s ls = none from hu] at h
    | some u =>
      obtain ⟨tr, htr, hls⟩ := ih hu
      rw [show List.foldlM M.step s ls = some u from hu] at h
      exact ⟨tr ++ [(u, l)], htr.snoc (by simpa using h), by simp [hls]⟩

theorem Reachable.of_run {s t : State} {ls : List Label} (hs : M.start s)
    (h : M.run s ls = some t) : M.Reachable t := by
  obtain ⟨tr, htr, -⟩ := Trace.of_run h
  exact ⟨s, tr, hs, htr⟩

/-- A replay that does not stop is a run of its labels. -/
theorem Trace.of_isSome {s : State} {ls : List Label} (h : (M.run s ls).isSome = true) :
    ∃ tr t, M.Trace s tr t ∧ tr.map Prod.snd = ls := by
  obtain ⟨t, ht⟩ := Option.isSome_iff_exists.mp h
  obtain ⟨tr, htr, hls⟩ := Trace.of_run ht
  exact ⟨tr, t, htr, hls⟩

/-- A replay that ends in a state with a property. -/
theorem exists_of_run {P : State → Prop} [DecidablePred P] {s : State} {ls : List Label}
    (h : (M.run s ls).any (fun t => P t) = true) : ∃ t, M.run s ls = some t ∧ P t := by
  obtain ⟨t, ht, hP⟩ := (Option.any_eq_true _ _).mp h
  exact ⟨t, ht, of_decide_eq_true hP⟩

theorem run_append (s : State) (ls ks : List Label) :
    M.run s (ls ++ ks) = (M.run s ls).bind (M.run · ks) := List.foldlM_append

theorem run_append_eq_some {s t : State} {ls ks : List Label} :
    M.run s (ls ++ ks) = some t ↔ ∃ u, M.run s ls = some u ∧ M.run u ks = some t := by
  rw [run_append, Option.bind_eq_some_iff]

theorem run_concat_eq_some {s t : State} {ls : List Label} {l : Label} :
    M.run s (ls ++ [l]) = some t ↔ ∃ u, M.run s ls = some u ∧ M.step u l = some t := by
  rw [run_append_eq_some]
  simp [run]

/-- What the steps with the listed labels keep, their replay keeps. -/
theorem run_induction {I : State → Prop} {ok : Label → Prop}
    (keep : ∀ s l t, I s → ok l → M.step s l = some t → I t) {s t : State} {ls : List Label}
    (hs : I s) (hls : ∀ l ∈ ls, ok l) (h : M.run s ls = some t) : I t := by
  induction ls using List.reverseRecOn generalizing t with
  | nil =>
    cases h
    exact hs
  | append_singleton ls l ih =>
    obtain ⟨u, hu, hst⟩ := run_concat_eq_some.mp h
    exact keep u l t (ih (fun k hk => hls k (List.mem_append_left _ hk)) hu) (hls l (by simp)) hst

theorem Trace.append {s t u : State} {tr tr' : List (State × Label)} (h : M.Trace s tr t)
    (h' : M.Trace t tr' u) : M.Trace s (tr ++ tr') u := by
  induction h' with
  | nil => rwa [List.append_nil]
  | snoc _ hst ih =>
    rw [← List.append_assoc]
    exact ih.snoc hst

variable (M) in
/-- `t` is where some run from `s` leads whose steps all meet `ok`. -/
def Leads (ok : State → Label → Prop) (s t : State) : Prop :=
  ∃ tr, M.Trace s tr t ∧ ∀ p ∈ tr, ok p.1 p.2

theorem Leads.refl {ok : State → Label → Prop} (s : State) : M.Leads ok s s := ⟨[], .nil, by simp⟩

theorem Leads.step {ok : State → Label → Prop} {s t : State} {l : Label} (hok : ok s l)
    (hst : M.step s l = some t) : M.Leads ok s t := ⟨_, .snoc .nil hst, by simpa using hok⟩

theorem Leads.trans {ok : State → Label → Prop} {s t u : State} (h : M.Leads ok s t)
    (h' : M.Leads ok t u) : M.Leads ok s u := by
  obtain ⟨tr, htr, hall⟩ := h
  obtain ⟨tr', htr', hall'⟩ := h'
  exact ⟨tr ++ tr', htr.append htr', List.forall_mem_append.mpr ⟨hall, hall'⟩⟩

/-- The machine that refuses the steps that do not meet `ok`. -/
def restrict (M : Machine State Label) (ok : State → Label → Prop) [∀ s l, Decidable (ok s l)] :
    Machine State Label where
  start := M.start
  step s l := if ok s l then M.step s l else none

/-- A replay on the restricted machine is one on the machine, and its steps meet the condition. -/
theorem run_of_restrict {ok : State → Label → Prop} [∀ s l, Decidable (ok s l)] {s t : State}
    {ls : List Label} (h : (M.restrict ok).run s ls = some t) :
    M.run s ls = some t ∧ ∀ ks l u, ks ++ [l] <+: ls → M.run s ks = some u → ok u l := by
  induction ls using List.reverseRecOn generalizing t with
  | nil => exact ⟨h, fun ks l u hsub => by simp at hsub⟩
  | append_singleton ls l ih =>
    obtain ⟨v, hv, hst⟩ := run_concat_eq_some.mp h
    obtain ⟨hrun, hok⟩ := ih hv
    obtain ⟨hl, hst⟩ := Option.ite_none_right_eq_some.mp hst
    refine ⟨run_concat_eq_some.mpr ⟨v, hrun, hst⟩, fun ks k u hsub hu => ?_⟩
    rcases List.prefix_concat_iff.mp hsub with heq | hshort
    · obtain ⟨rfl, rfl⟩ := List.append_singleton_inj.mp heq
      obtain rfl : v = u := Option.some.inj (hrun.symm.trans hu)
      exact hl
    · exact hok ks k u hshort hu

/-- A replay on the restricted machine is a run whose steps meet the condition. -/
theorem Trace.of_restrict {ok : State → Label → Prop} [∀ s l, Decidable (ok s l)] {s t : State}
    {ls : List Label} (h : (M.restrict ok).run s ls = some t) :
    ∃ tr, M.Trace s tr t ∧ tr.map Prod.snd = ls ∧ ∀ p ∈ tr, ok p.1 p.2 := by
  induction ls using List.reverseRecOn generalizing t with
  | nil =>
    cases h
    exact ⟨[], .nil, rfl, by simp⟩
  | append_singleton ls l ih =>
    obtain ⟨u, hu, hst⟩ := run_concat_eq_some.mp h
    obtain ⟨hok, hst⟩ := Option.ite_none_right_eq_some.mp hst
    obtain ⟨tr, htr, hls, hall⟩ := ih hu
    refine ⟨_, htr.snoc hst, by simp [hls], ?_⟩
    exact List.forall_mem_append.mpr ⟨hall, List.forall_mem_singleton.mpr hok⟩

theorem ReachableVia.of_run {ok : State → Label → Prop} [∀ s l, Decidable (ok s l)] {s t : State}
    {ls : List Label} (hs : M.start s) (h : (M.restrict ok).run s ls = some t) :
    M.ReachableVia ok t := by
  obtain ⟨tr, htr, -, hok⟩ := Trace.of_restrict h
  exact ⟨s, tr, hs, htr, hok⟩

/-- When good steps keep an invariant that implies `P` and any other step breaks `P` at
once, a run satisfies `P` throughout exactly if all its steps are good. -/
theorem Trace.forall_visited_iff {I P : State → Prop} {ok : State → Label → Prop}
    (holds : ∀ s, I s → P s)
    (keep : ∀ s l t, I s → ok s l → M.step s l = some t → I t)
    (spoil : ∀ s l t, I s → ¬ ok s l → M.step s l = some t → ¬ P t)
    {s t : State} {tr : List (State × Label)} (h : M.Trace s tr t) (hs : I s) :
    (∀ u ∈ visited tr t, P u) ↔ ∀ p ∈ tr, ok p.1 p.2 := by
  suffices hall : ((∀ u ∈ visited tr t, P u) ↔ ∀ p ∈ tr, ok p.1 p.2) ∧
      ((∀ p ∈ tr, ok p.1 p.2) → I t) from hall.1
  induction h with
  | nil => simpa [visited, hs] using holds s hs
  | @snoc u v l tr htr hstep ih =>
    obtain ⟨hiff, hkeep⟩ := ih
    have hvisited : (∀ w ∈ visited (tr ++ [(u, l)]) v, P w) ↔
        (∀ w ∈ visited tr u, P w) ∧ P v := by
      simp [visited, or_imp, forall_and, and_assoc]
    have hsteps : (∀ p ∈ tr ++ [(u, l)], ok p.1 p.2) ↔
        (∀ p ∈ tr, ok p.1 p.2) ∧ ok u l := by
      simp [or_imp, forall_and]
    rw [hvisited, hsteps, hiff]
    refine ⟨⟨?_, ?_⟩, fun hgood => keep u l v (hkeep hgood.1) hgood.2 hstep⟩
    · rintro ⟨hgood, hP⟩
      refine ⟨hgood, ?_⟩
      by_contra hbad
      exact spoil u l v (hkeep hgood) hbad hstep hP
    · rintro ⟨hgood, hlast⟩
      exact ⟨hgood, holds v (keep u l v (hkeep hgood) hlast hstep)⟩

/-- Where two conditions agree on every step that a state with the invariant takes, they agree on
the steps of a run. -/
theorem Trace.forall_step_iff {I : State → Prop} {P Q : State → Label → Prop}
    (keep : ∀ s l t, I s → M.step s l = some t → I t)
    (agree : ∀ s l t, I s → M.step s l = some t → (P s l ↔ Q s l))
    {s t : State} {tr : List (State × Label)} (h : M.Trace s tr t) (hs : I s) :
    (∀ p ∈ tr, P p.1 p.2) ↔ ∀ p ∈ tr, Q p.1 p.2 := by
  suffices hall : ((∀ p ∈ tr, P p.1 p.2) ↔ ∀ p ∈ tr, Q p.1 p.2) ∧ I t from hall.1
  induction h with
  | nil => exact ⟨by simp, hs⟩
  | @snoc u v l tr _ hstep ih =>
    obtain ⟨hiff, hu⟩ := ih
    refine ⟨?_, keep u l v hu hstep⟩
    simp only [List.mem_append, or_imp, forall_and, List.mem_singleton, forall_eq, hiff,
      agree u l v hu hstep]

/-- `C` refines `A` through `abs`: under an invariant of `C`, each step of `C` is a
step of `A` or leaves the abstract state as it is. -/
structure Refinement {S T L K : Type*} (C : Machine S L) (A : Machine T K) where
  abs : S → T
  start : ∀ s, C.start s → A.start (abs s)
  step : ∀ s l t, C.Reachable s → C.step s l = some t →
    abs t = abs s ∨ ∃ k, A.step (abs s) k = some (abs t)

/-- What a refined machine reaches, its abstraction reaches. -/
theorem Refinement.reachable {S T L K : Type*} {C : Machine S L} {A : Machine T K}
    (r : Refinement C A) {s : S} (h : C.Reachable s) : A.Reachable (r.abs s) := by
  induction h using Reachable.induction with
  | init s hs => exact .init (r.start s hs)
  | next s l t hs hstep ih =>
    rcases r.step s l t hs hstep with hstay | ⟨k, hk⟩
    · exact hstay ▸ ih
    · exact ih.next hk

end Machine

end QStorage.Lib
