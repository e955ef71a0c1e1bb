import Mathlib.Algebra.Order.Ring.Nat
import Mathlib.Data.List.Induction
import Mathlib.Data.List.TakeWhile
import Mathlib.Logic.Function.Basic

/-!
# Failpoints (`tools/failpoint/failpoint.h`, `tools/failpoint/failpoint_config.h`)

The registry holds a point for every name that has been asked for. A reference that `Get` returns
stands for the name, and what the random engine draws is the environment's choice.

## Main results

* `FailPoint.run_point` — a point sees nothing but the calls on its own name.
* `FailPoint.Law.after` — what a call does to the point, in the words of its history.
* `FailPoint.trigger_law` — whether a call fires, by the calls before it.
-/

namespace QStorage.Tools.FailPoint

inductive Mode where
  | ALWAYS | ONCE | NTH | RANDOM
  deriving DecidableEq, Repr

section Calls

variable {Double : Type*} [One Double]

structure Point (Double : Type*) [One Double] where
  enabled : Bool := false
  hit : BitVec 64 := 0
  mode : Mode := .ALWAYS
  nth : BitVec 64 := 0
  probability : Double := 1

structure Registry (Double : Type*) [One Double] where
  points_ : String → Option (Point Double) := fun _ => none

namespace Registry

variable (r : Registry Double) (name : String)

/-- The point behind the reference; a name that is not in the map gets a default point. -/
def point : Point Double := (r.points_ name).getD {}

def set (p : Point Double) : Registry Double :=
  { points_ := Function.update r.points_ name (some p) }

def Get : Registry Double := r.set name (r.point name)

@[simp] theorem set_point_self (p : Point Double) : (r.set name p).point name = p := by
  simp [set, point]

@[simp] theorem Get_point (other : String) : (r.Get name).point other = r.point other := by
  by_cases h : other = name <;> simp [Get, set, point, h]

theorem set_point_of_ne {other : String} (p : Point Double) (h : other ≠ name) :
    (r.set name p).point other = r.point other := by
  simp [set, point, h]

end Registry

variable [LT Double] [DecidableLT Double]

/-- The `switch` of `ShouldFire`, for the hit `h`. -/
def Point.fires (p : Point Double) (h : BitVec 64) (draw : Double) : Bool :=
  match p.mode with
  | .ALWAYS => true
  | .ONCE => h == 1
  | .NTH => decide (0 < p.nth) && h == p.nth
  | .RANDOM => decide (draw < p.probability)

def Registry.ShouldFire (r : Registry Double) (name : String) (draw : Double) :
    Registry Double × Bool :=
  let r := r.Get name
  let p := r.point name
  if !p.enabled then (r, false)
  else
    let h := p.hit + 1
    (r.set name { p with hit := h }, p.fires h draw)

def Enable (r : Registry Double) (name : String) (mode : Mode := .ALWAYS) (nth : BitVec 64 := 0)
    (prob : Double := 1) : Registry Double :=
  let r := r.Get name
  let r := r.set name { r.point name with enabled := true }
  let r := r.set name { r.point name with mode := mode }
  let r := r.set name { r.point name with nth := nth }
  let r := r.set name { r.point name with probability := prob }
  r.set name { r.point name with hit := 0 }

def Disable (r : Registry Double) (name : String) : Registry Double :=
  let r := r.Get name
  r.set name { r.point name with enabled := false }

end Calls

/-! ## Runs -/

/-- A call; `draw` is what the engine would draw in it. -/
inductive Call (Double : Type*) where
  | Enable (name : String) (mode : Mode) (nth : BitVec 64) (prob : Double)
  | Disable (name : String)
  | ShouldFire (name : String) (draw : Double)

section Runs

variable {Double : Type*} [One Double] [LT Double] [DecidableLT Double]

def Call.name : Call Double → String
  | .Enable name .. | .Disable name | .ShouldFire name _ => name

def step (r : Registry Double) : Call Double → Registry Double
  | .Enable name mode nth prob => Enable r name mode nth prob
  | .Disable name => Disable r name
  | .ShouldFire name draw => (r.ShouldFire name draw).1

/-- The registry after some calls. -/
def run (calls : List (Call Double)) : Registry Double := calls.foldl step {}

/-- Whether a call of `ShouldFire` after these calls returns true. -/
def fired (calls : List (Call Double)) (name : String) (draw : Double) : Bool :=
  ((run calls).ShouldFire name draw).2

/-- What a call on its own name does to a point. -/
def Point.after (p : Point Double) : Call Double → Point Double
  | .Enable _ mode nth prob =>
    { enabled := true, hit := 0, mode := mode, nth := nth, probability := prob }
  | .Disable _ => { p with enabled := false }
  | .ShouldFire .. => if p.enabled then { p with hit := p.hit + 1 } else p

theorem step_point (r : Registry Double) (c : Call Double) (name : String) :
    (step r c).point name = if c.name = name then (r.point name).after c else r.point name := by
  by_cases h : c.name = name
  · subst h
    rw [if_pos rfl]
    cases c with
    | Enable | Disable => simp [step, Enable, Disable, Call.name, Point.after]
    | ShouldFire name draw =>
      cases henabled : (r.point name).enabled <;>
        simp [step, Registry.ShouldFire, Call.name, Point.after, henabled]
  · have hne : name ≠ c.name := Ne.symm h
    rw [if_neg h]
    cases c with
    | Enable other | Disable other =>
      have hne : name ≠ other := hne
      simp only [step, Enable, Disable, Registry.set_point_of_ne _ _ _ hne, Registry.Get_point]
    | ShouldFire other draw =>
      have hne : name ≠ other := hne
      simp only [step, Registry.ShouldFire]
      split
      · exact r.Get_point other name
      · rw [Registry.set_point_of_ne _ _ _ hne, Registry.Get_point]

theorem run_concat_point (calls : List (Call Double)) (c : Call Double) (name : String) :
    (run (calls ++ [c])).point name =
      if c.name = name then ((run calls).point name).after c else (run calls).point name := by
  rw [run, List.foldl_append, ← run, List.foldl_cons, List.foldl_nil, step_point]

/-- A point sees the calls on its own name, in their order. -/
theorem run_point (calls : List (Call Double)) (name : String) :
    (run calls).point name = (calls.filter (·.name = name)).foldl Point.after {} := by
  induction calls using List.reverseRecOn with
  | nil => rfl
  | append_singleton calls c ih =>
    rw [run_concat_point, ih]
    by_cases h : c.name = name <;> simp [h]

theorem fired_eq (calls : List (Call Double)) (name : String) (draw : Double) :
    fired calls name draw = (((run calls).point name).enabled &&
      ((run calls).point name).fires (((run calls).point name).hit + 1) draw) := by
  cases h : ((run calls).point name).enabled <;> simp [fired, Registry.ShouldFire, h]

end Runs

/-! ## The history of a name -/

section History

variable {Double : Type*}

/-- What a call of `Enable` asks for. -/
structure Settings (Double : Type*) where
  mode : Mode
  nth : BitVec 64
  probability : Double
  deriving DecidableEq, Repr

/-- The settings of a call that enables the point `name`. -/
def Call.settings (name : String) : Call Double → Option (Settings Double)
  | .Enable other mode nth prob => if other = name then some ⟨mode, nth, prob⟩ else none
  | _ => none

def Call.disables (name : String) : Call Double → Bool
  | .Disable other => other = name
  | _ => false

def Call.asks (name : String) : Call Double → Bool
  | .ShouldFire other _ => other = name
  | _ => false

def lastEnable (name : String) (calls : List (Call Double)) : Option (Settings Double) :=
  calls.reverse.findSome? (Call.settings name)

/-- The calls since the last `Enable` of `name`. -/
def sinceEnable (name : String) (calls : List (Call Double)) : List (Call Double) :=
  (calls.reverse.takeWhile fun c => (c.settings name).isNone).reverse

/-- The point `name` was enabled at some time, and not disabled since then. -/
def Enabled (name : String) (calls : List (Call Double)) : Prop :=
  (lastEnable name calls).isSome = true ∧ ∀ c ∈ sinceEnable name calls, c.disables name = false

instance (name : String) (calls : List (Call Double)) : Decidable (Enabled name calls) :=
  inferInstanceAs (Decidable (_ ∧ _))

/-- How often `ShouldFire(name)` was called since the last `Enable` of `name`, until the point was
disabled. -/
def hits (name : String) (calls : List (Call Double)) : ℕ :=
  ((sinceEnable name calls).takeWhile fun c => !c.disables name).countP (·.asks name)

variable {calls : List (Call Double)} {c : Call Double} {name : String}

/-- A call on another name is nothing to this one. -/
theorem Call.quiet (h : c.name ≠ name) :
    c.settings name = none ∧ c.disables name = false ∧ c.asks name = false := by
  cases c with
  | Enable other mode nth prob => exact ⟨if_neg h, rfl, rfl⟩
  | Disable other => exact ⟨rfl, decide_eq_false h, rfl⟩
  | ShouldFire other draw => exact ⟨rfl, rfl, decide_eq_false h⟩

theorem lastEnable_concat : lastEnable name (calls ++ [c]) =
    (c.settings name).or (lastEnable name calls) := by
  simp [lastEnable, List.findSome?_cons]
  cases c.settings name <;> rfl

theorem sinceEnable_concat : sinceEnable name (calls ++ [c]) =
    if (c.settings name).isSome then [] else sinceEnable name calls ++ [c] := by
  cases h : c.settings name <;> simp [sinceEnable, h]

theorem enabled_concat : Enabled name (calls ++ [c]) ↔
    (c.settings name).isSome = true ∨ Enabled name calls ∧ c.disables name = false := by
  cases h : c.settings name with
  | none => simp [Enabled, lastEnable_concat, sinceEnable_concat, h, or_imp, forall_and, and_assoc]
  | some st => simp [Enabled, lastEnable_concat, sinceEnable_concat, h]

theorem Enabled.hits_eq (h : Enabled name calls) :
    hits name calls = (sinceEnable name calls).countP (·.asks name) := by
  rw [hits, List.takeWhile_eq_self_iff.mpr]
  intro c hc
  simp [h.2 c hc]

end History

section Law

variable {Double : Type*} [One Double] {calls : List (Call Double)} {c : Call Double}
  {name : String} {p q : Point Double}

/-- The point is as its history says. -/
structure Law (name : String) (calls : List (Call Double)) (p : Point Double) : Prop where
  enabled_iff : p.enabled = true ↔ Enabled name calls
  settings : ∀ st, lastEnable name calls = some st →
    p.mode = st.mode ∧ p.nth = st.nth ∧ p.probability = st.probability
  hit : Enabled name calls → p.hit = BitVec.ofNat 64 (hits name calls)

/-- A call that does not configure the point may disable it or count a hit. -/
theorem Law.of_none (h : Law name calls p) (hnone : c.settings name = none)
    (henabled : q.enabled = (p.enabled && !c.disables name))
    (hsame : q.mode = p.mode ∧ q.nth = p.nth ∧ q.probability = p.probability)
    (hhit : p.enabled = true → q.hit = p.hit + if c.asks name then 1 else 0) :
    Law name (calls ++ [c]) q := by
  refine ⟨?_, ?_, ?_⟩
  · rw [henabled, enabled_concat, hnone, ← h.enabled_iff]
    simp
  · intro st hst
    rw [lastEnable_concat, hnone, Option.none_or] at hst
    rw [hsame.1, hsame.2.1, hsame.2.2]
    exact h.settings st hst
  · intro hon
    have hbefore : Enabled name calls := by
      rw [enabled_concat, hnone] at hon
      exact hon.elim (by simp) And.left
    rw [hhit (h.enabled_iff.mpr hbefore), h.hit hbefore, hon.hits_eq, hbefore.hits_eq,
      sinceEnable_concat, hnone]
    cases hasks : c.asks name <;> simp [List.countP_append, BitVec.ofNat_add, hasks]

theorem Law.after (h : Law name calls p) (hname : c.name = name) :
    Law name (calls ++ [c]) (p.after c) := by
  subst hname
  cases c with
  | Enable name mode nth prob =>
    refine ⟨?_, ?_, ?_⟩
    · simp [enabled_concat, Point.after, Call.settings, Call.name]
    · intro st hst
      simp only [lastEnable_concat, Call.settings, Call.name, if_true, Option.some_or,
        Option.some.injEq] at hst
      rw [← hst]
      exact ⟨rfl, rfl, rfl⟩
    · intro hon
      rw [hon.hits_eq, sinceEnable_concat]
      simp [Point.after, Call.settings, Call.name]
  | Disable name =>
    apply h.of_none rfl
    · simp [Point.after, Call.disables, Call.name]
    · exact ⟨rfl, rfl, rfl⟩
    · simp [Point.after, Call.asks]
  | ShouldFire name draw =>
    apply h.of_none rfl
    · cases hon : p.enabled <;> simp [Point.after, Call.disables, hon]
    · cases hon : p.enabled <;> simp [Point.after, hon]
    · intro hon
      simp [Point.after, Call.asks, Call.name, hon]

/-- A call on another name is in the history, and changes nothing. -/
theorem Law.other (h : Law name calls p) (hname : c.name ≠ name) : Law name (calls ++ [c]) p := by
  obtain ⟨hnone, hdisables, hasks⟩ := c.quiet hname
  apply h.of_none hnone
  · simp [hdisables]
  · exact ⟨rfl, rfl, rfl⟩
  · simp [hasks]

variable [LT Double] [DecidableLT Double] {draw : Double}

theorem Law.run (name : String) (calls : List (Call Double)) :
    Law name calls ((run calls).point name) := by
  induction calls using List.reverseRecOn with
  | nil =>
    constructor
    · simp [Enabled, lastEnable, FailPoint.run, Registry.point]
    · simp [lastEnable]
    · simp [Enabled, lastEnable]
  | append_singleton calls c ih =>
    rw [run_concat_point]
    split
    · exact ih.after ‹_›
    · exact ih.other ‹_›

omit [LT Double] [DecidableLT Double] in
/-- A call that does not enable the point does nothing while it is disabled. -/
theorem Point.after_eq_self (hoff : p.enabled = false) (hnone : c.settings c.name = none) :
    p.after c = p := by
  cases c with
  | Enable name mode nth prob => simp [Call.settings, Call.name] at hnone
  | Disable name => simp [Point.after, ← hoff]
  | ShouldFire name draw => simp [Point.after, hoff]

theorem run_skip {before after : List (Call Double)} (hoff : ¬ Enabled name before)
    (hnone : c.settings name = none) :
    (run (before ++ c :: after)).point name = (run (before ++ after)).point name := by
  have hoff : ((run before).point name).enabled = false :=
    Bool.eq_false_iff.mpr (mt (Law.run name before).enabled_iff.mp hoff)
  simp only [run_point, List.filter_append, List.filter_cons, List.foldl_append]
  split
  · next hname =>
    rw [List.foldl_cons, ← run_point, Point.after_eq_self hoff]
    rwa [of_decide_eq_true hname]
  · rfl

/-- Whether the `k`-th call of `ShouldFire` fires with these settings. -/
def Settings.Fires (st : Settings Double) (k : ℕ) (draw : Double) : Prop :=
  match st.mode with
  | .ALWAYS => True
  | .ONCE => k = 1
  | .NTH => 0 < st.nth.toNat ∧ k = st.nth.toNat
  | .RANDOM => draw < st.probability

instance (st : Settings Double) (k : ℕ) (draw : Double) : Decidable (st.Fires k draw) :=
  match st with
  | ⟨.ALWAYS, _, _⟩ => .isTrue trivial
  | ⟨.ONCE, _, _⟩ => inferInstanceAs (Decidable (k = 1))
  | ⟨.NTH, nth, _⟩ => inferInstanceAs (Decidable (0 < nth.toNat ∧ k = nth.toNat))
  | ⟨.RANDOM, _, probability⟩ => inferInstanceAs (Decidable (draw < probability))

theorem Law.fires_iff (h : Law name calls p) {st : Settings Double}
    (hst : lastEnable name calls = some st) (hon : Enabled name calls) {k : ℕ}
    (hk : k = hits name calls + 1) (hlt : k < 2 ^ 64) :
    p.fires (p.hit + 1) draw = true ↔ st.Fires k draw := by
  obtain ⟨hmode, hnth, hprobability⟩ := h.settings st hst
  have hhit : p.hit + 1 = BitVec.ofNat 64 k := by
    rw [h.hit hon, hk, BitVec.ofNat_add]
    rfl
  have heq (x : BitVec 64) : p.hit + 1 = x ↔ k = x.toNat := by
    rw [hhit, ← BitVec.toNat_inj, BitVec.toNat_ofNat, Nat.mod_eq_of_lt hlt]
  rw [Point.fires, Settings.Fires, hmode, hnth, hprobability]
  cases st.mode with
  | ALWAYS => simp
  | ONCE => simpa using heq 1
  | NTH =>
    rw [Bool.and_eq_true, decide_eq_true_iff, beq_iff_eq, heq, BitVec.lt_def]
    rfl
  | RANDOM => simp

/-- The point is enabled exactly if its last `Enable` was not followed by a `Disable`, and then the
`k`-th call of `ShouldFire` since that `Enable` fires by the mode it was given; otherwise no call
fires. Calls on other names, and calls while the point is disabled, can be left out of the run. -/
theorem trigger_law (calls : List (Call Double)) (name : String) (draw : Double) :
    (((run calls).point name).enabled = true ↔ Enabled name calls) ∧
    (¬ Enabled name calls → fired calls name draw = false) ∧
    (∀ st k, lastEnable name calls = some st → Enabled name calls → k = hits name calls + 1 →
      k < 2 ^ 64 → (fired calls name draw = true ↔ st.Fires k draw)) ∧
    fired calls name draw = fired (calls.filter (·.name = name)) name draw ∧
    ∀ before c after, calls = before ++ c :: after → ¬ Enabled name before →
      c.settings name = none → fired calls name draw = fired (before ++ after) name draw := by
  have hlaw := Law.run name calls
  refine ⟨hlaw.enabled_iff, ?_, ?_, ?_, ?_⟩
  · intro hoff
    rw [fired_eq, Bool.eq_false_iff.mpr (mt hlaw.enabled_iff.mp hoff), Bool.false_and]
  · intro st k hst hon hk hlt
    rw [fired_eq, hlaw.enabled_iff.mpr hon, Bool.true_and]
    exact hlaw.fires_iff hst hon hk hlt
  · simp only [fired_eq, run_point, List.filter_filter, Bool.and_self]
  · rintro before c after rfl hoff hnone
    simp only [fired_eq, run_skip hoff hnone]

/-- Calls between a call on another name and one that comes too late, with a second `Enable`. -/
def nthCalls : List (Call ℕ) :=
  [.Enable "read" .ONCE 0 1, .ShouldFire "read" 0, .ShouldFire "write" 0, .Disable "read",
    .ShouldFire "read" 0, .Enable "read" .NTH 2 1, .Enable "write" .ALWAYS 0 1,
    .ShouldFire "read" 0, .ShouldFire "write" 0]

/-- The next call is the second since the last `Enable`. -/
theorem trigger_law_nth : fired nthCalls "read" 0 = true :=
  ((trigger_law nthCalls "read" 0).2.2.1 ⟨.NTH, 2, 1⟩ 2 (by decide +kernel) (by decide +kernel)
    (by decide +kernel) (by decide)).mpr (by decide)

end Law

end QStorage.Tools.FailPoint
