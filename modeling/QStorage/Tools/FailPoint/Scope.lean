import QStorage.Tools.FailPoint

/-!
# Failpoints in a scope (`tools/failpoint/failpoint_scope.h`)

A scope enables its point and disables it at its end. The registry has one record for each name, so
the end of an inner scope leaves nothing of an outer one of the same name.

## Main results

* `FailPoint.Scoped.of_nested` — the point follows the last event on its name.
* `FailPoint.scopes_enable` — when a point is enabled, and with which settings.
-/

namespace QStorage.Tools.FailPoint

section Scopes

variable {Double : Type*}

/-- A scope with the arguments of its constructor. -/
structure ScopedFailPoint (Double : Type*) where
  name_ : String
  settings : Settings Double
  deriving DecidableEq, Repr

inductive Event (Double : Type*) where
  | construct (scope : ScopedFailPoint Double)
  | destroy (scope : ScopedFailPoint Double)
  deriving DecidableEq, Repr

def Event.scope : Event Double → ScopedFailPoint Double
  | .construct scope | .destroy scope => scope

/-- What the constructor and the destructor call. -/
def Event.call : Event Double → Call Double
  | .construct ⟨name_, st⟩ => .Enable name_ st.mode st.nth st.probability
  | .destroy scope => .Disable scope.name_

/-- The events nest, and `scopes` are open after them, the innermost one first. -/
inductive Nested : List (Event Double) → List (ScopedFailPoint Double) → Prop
  | nil : Nested [] []
  | construct {events scopes} (scope : ScopedFailPoint Double) :
      Nested events scopes → Nested (events ++ [.construct scope]) (scope :: scopes)
  | destroy {events scope scopes} :
      Nested events (scope :: scopes) → Nested (events ++ [.destroy scope]) scopes

/-- The last event on a name. -/
def lastEvent (name : String) (events : List (Event Double)) : Option (Event Double) :=
  events.reverse.find? (·.scope.name_ = name)

/-- The innermost open scope of a name. -/
def innermost (name : String) (scopes : List (ScopedFailPoint Double)) :
    Option (ScopedFailPoint Double) :=
  scopes.find? (·.name_ = name)

/-- A scope of the name was closed after the last one was opened. -/
def ClosedSince (name : String) (events : List (Event Double)) : Prop :=
  ∃ scope, lastEvent name events = some (.destroy scope)

/-- No two scopes of the name have been open at once. -/
def Apart (name : String) (events : List (Event Double)) : Prop :=
  ∀ before scopes, before <+: events → Nested before scopes →
    (scopes.filter (·.name_ = name)).length ≤ 1

variable {events : List (Event Double)} {scopes : List (ScopedFailPoint Double)}
  {e : Event Double} {scope : ScopedFailPoint Double} {name : String}

theorem Event.call_name (e : Event Double) : e.call.name = e.scope.name_ := by cases e <;> rfl

theorem lastEvent_self (h : e.scope.name_ = name) : lastEvent name (events ++ [e]) = some e := by
  simp [lastEvent, h]

theorem lastEvent_other (h : e.scope.name_ ≠ name) :
    lastEvent name (events ++ [e]) = lastEvent name events := by
  simp [lastEvent, h]

theorem innermost_other (h : scope.name_ ≠ name) :
    innermost name (scope :: scopes) = innermost name scopes := by
  simp [innermost, h]

theorem innermost_isSome : (innermost name scopes).isSome = true ↔
    ∃ scope ∈ scopes, scope.name_ = name := by
  simp [innermost]

theorem Apart.mono (h : Apart name (events ++ [e])) : Apart name events :=
  fun before scopes hbefore => h before scopes (hbefore.trans (List.prefix_append _ _))

/-- Where scopes of a name are never nested, none is left open when the last event closes one. -/
theorem Apart.innermost_eq_none (h : Nested events scopes) (hapart : Apart name events)
    (hclosed : ClosedSince name events) : innermost name scopes = none := by
  induction h with
  | nil => rfl
  | construct opened _ ih =>
    obtain ⟨closed, hlast⟩ := hclosed
    by_cases hname : opened.name_ = name
    · rw [lastEvent_self (e := .construct opened) hname] at hlast
      cases hlast
    · rw [lastEvent_other (e := .construct opened) hname] at hlast
      rw [innermost_other hname]
      exact ih hapart.mono ⟨closed, hlast⟩
  | @destroy events closed scopes hbefore ih =>
    by_cases hname : closed.name_ = name
    · have hone := hapart events (closed :: scopes) (List.prefix_append _ _) hbefore
      rw [List.filter_cons_of_pos (by simpa using hname), List.length_cons] at hone
      have hnone : scopes.filter (·.name_ = name) = [] := List.length_eq_zero_iff.mp (by omega)
      rw [innermost, List.find?_eq_none]
      exact List.filter_eq_nil_iff.mp hnone
    · rw [← innermost_other hname]
      obtain ⟨last, hlast⟩ := hclosed
      rw [lastEvent_other (e := .destroy closed) hname] at hlast
      exact ih hapart.mono ⟨last, hlast⟩

end Scopes

section Registry

variable {Double : Type*} [One Double] [LT Double] [DecidableLT Double]
  {events : List (Event Double)} {scopes : List (ScopedFailPoint Double)} {name : String}

/-- The point of a name while the scopes are open. -/
def pointIn (events : List (Event Double)) (name : String) : Point Double :=
  (run (events.map Event.call)).point name

theorem pointIn_self {e : Event Double} (h : e.scope.name_ = name) :
    pointIn (events ++ [e]) name = (pointIn events name).after e.call := by
  rw [pointIn, List.map_append, List.map_cons, List.map_nil, run_concat_point, Event.call_name]
  exact if_pos h

theorem pointIn_other {e : Event Double} (h : e.scope.name_ ≠ name) :
    pointIn (events ++ [e]) name = pointIn events name := by
  rw [pointIn, List.map_append, List.map_cons, List.map_nil, run_concat_point, Event.call_name]
  exact if_neg h

/-- The point follows the last event on its name. -/
structure Scoped (name : String) (events : List (Event Double))
    (scopes : List (ScopedFailPoint Double)) : Prop where
  enabled_iff : (pointIn events name).enabled = true ↔
    ∃ scope, lastEvent name events = some (.construct scope)
  inner : ∀ scope, lastEvent name events = some (.construct scope) →
    innermost name scopes = some scope ∧ (pointIn events name).mode = scope.settings.mode ∧
      (pointIn events name).nth = scope.settings.nth ∧
      (pointIn events name).probability = scope.settings.probability
  seen : (innermost name scopes).isSome = true → (lastEvent name events).isSome = true

theorem Scoped.other {e : Event Double} {after : List (ScopedFailPoint Double)}
    (h : Scoped name events scopes) (hname : e.scope.name_ ≠ name)
    (hafter : innermost name after = innermost name scopes) :
    Scoped name (events ++ [e]) after := by
  constructor
  · simpa only [lastEvent_other hname, pointIn_other hname] using h.enabled_iff
  · simpa only [lastEvent_other hname, pointIn_other hname, hafter] using h.inner
  · simpa only [lastEvent_other hname, hafter] using h.seen

theorem Scoped.construct {scope : ScopedFailPoint Double} (hname : scope.name_ = name) :
    Scoped name (events ++ [.construct scope]) (scope :: scopes) := by
  have hlast : lastEvent name (events ++ [.construct scope]) = some (.construct scope) :=
    lastEvent_self hname
  have hpoint : pointIn (events ++ [.construct scope]) name =
      (pointIn events name).after (Event.call (.construct scope)) := pointIn_self hname
  refine ⟨?_, ?_, ?_⟩
  · simp [hpoint, hlast, Event.call, Point.after]
  · intro inner hinner
    obtain rfl : scope = inner := by simpa [hlast] using hinner
    simp [innermost, hname, hpoint, Event.call, Point.after]
  · simp [hlast]

theorem Scoped.destroy {scope : ScopedFailPoint Double} (hname : scope.name_ = name) :
    Scoped name (events ++ [.destroy scope]) scopes := by
  have hlast : lastEvent name (events ++ [.destroy scope]) = some (.destroy scope) :=
    lastEvent_self hname
  have hpoint : pointIn (events ++ [.destroy scope]) name =
      (pointIn events name).after (Event.call (.destroy scope)) := pointIn_self hname
  refine ⟨?_, ?_, ?_⟩
  · simp [hpoint, hlast, Event.call, Point.after]
  · simp [hlast]
  · simp [hlast]

theorem Scoped.of_nested (h : Nested events scopes) : Scoped name events scopes := by
  induction h with
  | nil =>
    constructor
    · simp [lastEvent, pointIn, run, Registry.point]
    · simp [lastEvent]
    · simp [innermost]
  | construct scope _ ih =>
    by_cases hname : scope.name_ = name
    · exact .construct hname
    · exact ih.other hname (innermost_other hname)
  | @destroy events scope scopes _ ih =>
    by_cases hname : scope.name_ = name
    · exact .destroy hname
    · exact ih.other hname (innermost_other hname).symm

/-- At every moment the point of a name is enabled exactly if a scope of the name is open and none
was closed after the last one was opened; it then has the settings of the innermost open one. Where
scopes of the name are never nested, it is enabled exactly if one is open. -/
theorem scopes_enable (h : Nested events scopes) (name : String) :
    ((pointIn events name).enabled = true ↔
      (∃ scope ∈ scopes, scope.name_ = name) ∧ ¬ ClosedSince name events) ∧
    ((pointIn events name).enabled = true → ∃ scope, innermost name scopes = some scope ∧
      (pointIn events name).mode = scope.settings.mode ∧
      (pointIn events name).nth = scope.settings.nth) ∧
    (Apart name events →
      ((pointIn events name).enabled = true ↔ ∃ scope ∈ scopes, scope.name_ = name)) := by
  have hscoped : Scoped name events scopes := .of_nested h
  have henabled : (pointIn events name).enabled = true ↔
      (∃ scope ∈ scopes, scope.name_ = name) ∧ ¬ ClosedSince name events := by
    rw [hscoped.enabled_iff, ← innermost_isSome]
    constructor
    · rintro ⟨scope, hlast⟩
      refine ⟨by simp [(hscoped.inner scope hlast).1], ?_⟩
      rintro ⟨closed, hclosed⟩
      rw [hlast] at hclosed
      cases hclosed
    · rintro ⟨hopen, hnot⟩
      obtain ⟨e, he⟩ := Option.isSome_iff_exists.mp (hscoped.seen hopen)
      cases e with
      | construct scope => exact ⟨scope, he⟩
      | destroy scope => exact absurd ⟨scope, he⟩ hnot
  refine ⟨henabled, ?_, ?_⟩
  · intro hon
    obtain ⟨scope, hlast⟩ := hscoped.enabled_iff.mp hon
    obtain ⟨hinner, hmode, hnth, -⟩ := hscoped.inner scope hlast
    exact ⟨scope, hinner, hmode, hnth⟩
  · intro hapart
    rw [henabled, and_iff_left_iff_imp, ← innermost_isSome]
    intro hopen hclosed
    rw [hapart.innermost_eq_none h hclosed] at hopen
    cases hopen

/-- Two scopes of one name, with one of another name in between; the inner one is closed. -/
def nestedEvents : List (Event ℕ) :=
  [.construct ⟨"read", ⟨.ALWAYS, 0, 1⟩⟩, .construct ⟨"write", ⟨.NTH, 3, 1⟩⟩,
    .construct ⟨"read", ⟨.ONCE, 0, 1⟩⟩, .destroy ⟨"read", ⟨.ONCE, 0, 1⟩⟩]

theorem nestedEvents_nested : Nested nestedEvents
    [⟨"write", ⟨.NTH, 3, 1⟩⟩, ⟨"read", ⟨.ALWAYS, 0, 1⟩⟩] :=
  .destroy (.construct ⟨"read", ⟨.ONCE, 0, 1⟩⟩ (.construct ⟨"write", ⟨.NTH, 3, 1⟩⟩
    (.construct ⟨"read", ⟨.ALWAYS, 0, 1⟩⟩ .nil)))

/-- The outer scope is open and its point is disabled; the one in between is as it should be. -/
theorem scopes_enable_nested : (pointIn nestedEvents "read").enabled = false ∧
    (pointIn nestedEvents "write").enabled = true ∧ (pointIn nestedEvents "write").nth = 3 := by
  have hread := (scopes_enable nestedEvents_nested "read").1
  have hwrite := scopes_enable nestedEvents_nested "write"
  have hclosed : ClosedSince "read" nestedEvents := ⟨⟨"read", ⟨.ONCE, 0, 1⟩⟩, by decide +kernel⟩
  have hopen : ¬ ClosedSince "write" nestedEvents := by
    have hlast : lastEvent "write" nestedEvents = some (.construct ⟨"write", ⟨.NTH, 3, 1⟩⟩) := by
      decide +kernel
    rintro ⟨scope, hscope⟩
    rw [hlast] at hscope
    cases hscope
  have hon := hwrite.1.mpr ⟨⟨_, List.mem_cons_self, rfl⟩, hopen⟩
  refine ⟨Bool.eq_false_iff.mpr fun hon => (hread.mp hon).2 hclosed, hon, ?_⟩
  obtain ⟨scope, hinner, -, hnth⟩ := hwrite.2.1 hon
  obtain rfl : (⟨"write", ⟨.NTH, 3, 1⟩⟩ : ScopedFailPoint ℕ) = scope := Option.some.inj hinner
  exact hnth

/-- The end of the inner scope disables the point of the outer one. -/
theorem not_scopes_enable : ¬ ∀ (events : List (Event ℕ)) (scopes : List (ScopedFailPoint ℕ))
    (name : String), Nested events scopes →
    ((pointIn events name).enabled = true ↔ ∃ scope ∈ scopes, scope.name_ = name) ∧
    ((pointIn events name).enabled = true → ∃ scope, innermost name scopes = some scope ∧
      (pointIn events name).mode = scope.settings.mode ∧
      (pointIn events name).nth = scope.settings.nth) := by
  intro h
  have hon := (h _ _ "read" nestedEvents_nested).1.mpr ⟨⟨"read", ⟨.ALWAYS, 0, 1⟩⟩, by simp, rfl⟩
  have hoff : (pointIn nestedEvents "read").enabled = false := by decide +kernel
  rw [hoff] at hon
  cases hon

end Registry

end QStorage.Tools.FailPoint
