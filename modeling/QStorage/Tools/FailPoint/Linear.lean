import QStorage.Tools.FailPoint.Race
import QStorage.Lib.Progress

/-!
# Calls of `ShouldFire` at the same time (`tools/failpoint/failpoint.h`)

Any number of calls of `ShouldFire` and one of `Disable` take their accesses in any order, on a
point that is enabled and that nobody configures meanwhile. They have an order in which they could
as well have been made one after the other: the calls that count a hit, in the order of their hits,
then `Disable`, then those that find the point disabled.

## Main results

* `Crowd.Ordered.step` — every call that is past its count has its place in the order.
* `Crowd.linearizable` — the results are those of the calls made in this order, and a call that
  was over before another one began comes before it.
-/

namespace QStorage.Tools.FailPoint

open QStorage.Lib

variable {Double : Type*} [One Double] [LT Double] [DecidableLT Double]

/-- The access of `Disable` that comes next. -/
inductive DisablePc where
  | Get | enabled | done
  deriving DecidableEq, Repr

/-- One access of `Disable(name)`. -/
def DisablePc.act (name : String) (r : Registry Double) :
    DisablePc → Option (Registry Double × DisablePc)
  | .Get => some (r.Get name, .enabled)
  | .enabled => some (r.set name { r.point name with enabled := false }, .done)
  | .done => none

theorem FirePc.act_ne_hit {name : String} {r r' : Registry Double} {draw : Double}
    {pc pc' : FirePc} (h : pc.act name r draw = some (r', pc'))
    (hoff : (r.point name).enabled = false) : pc' ≠ .hit := by
  cases pc with
  | returned fires => simp [FirePc.act] at h
  | mode hit =>
    simp only [FirePc.act, Option.some.injEq, Prod.mk.injEq] at h
    rw [← h.2]
    cases (r.point name).mode <;> simp
  | nth hit =>
    simp only [FirePc.act, Option.some.injEq, Prod.mk.injEq] at h
    rw [← h.2]
    split <;> simp
  | _ =>
    simp only [FirePc.act, Option.some.injEq, Prod.mk.injEq] at h
    simp [← h.2, hoff]

/-! ## Calls one after the other -/

section Sequence

variable {ι : Type*} (name : String) (draws : ι → Double)

/-- The registry after some calls of `ShouldFire`. -/
def asked (r : Registry Double) (is : List ι) : Registry Double :=
  is.foldl (fun r i => (r.ShouldFire name (draws i)).1) r

/-- What these calls return. -/
def results : Registry Double → List ι → List (ι × Bool)
  | _, [] => []
  | r, i :: is =>
    (i, (r.ShouldFire name (draws i)).2) :: results (r.ShouldFire name (draws i)).1 is

variable {name draws} {r : Registry Double} {is : List ι} {i : ι}

theorem ShouldFire_of_enabled (h : (r.point name).enabled = true) (draw : Double) :
    (r.ShouldFire name draw).1.point name =
        { r.point name with hit := (r.point name).hit + 1 } ∧
      (r.ShouldFire name draw).2 = (r.point name).fires ((r.point name).hit + 1) draw := by
  simp [Registry.ShouldFire, h]

theorem ShouldFire_of_disabled (h : (r.point name).enabled = false) (draw : Double) :
    (r.ShouldFire name draw).1.point name = r.point name ∧ (r.ShouldFire name draw).2 = false := by
  simp [Registry.ShouldFire, h]

omit [LT Double] [DecidableLT Double] in
theorem hit_after (p : Point Double) (n : ℕ) :
    p.hit + 1 + BitVec.ofNat 64 n = p.hit + BitVec.ofNat 64 (n + 1) := by
  rw [Nat.add_comm n, BitVec.ofNat_add, BitVec.add_assoc]
  rfl

theorem asked_point (h : (r.point name).enabled = true) :
    (asked name draws r is).point name =
      { r.point name with hit := (r.point name).hit + BitVec.ofNat 64 is.length } := by
  induction is generalizing r with
  | nil => simp [asked]
  | cons i is ih =>
    obtain ⟨hpoint, -⟩ := ShouldFire_of_enabled h (draws i)
    have hrest := ih (r := (r.ShouldFire name (draws i)).1) (by rw [hpoint]; exact h)
    rw [hpoint, hit_after] at hrest
    exact hrest

theorem disabled_point (h : (r.point name).enabled = true) :
    (Disable (asked name draws r is) name).point name =
      { r.point name with
        enabled := false, hit := (r.point name).hit + BitVec.ofNat 64 is.length } := by
  simp [Disable, asked_point h]

theorem mem_results_of_enabled (h : (r.point name).enabled = true) {k : ℕ}
    (hk : is[k]? = some i) :
    (i, (r.point name).fires ((r.point name).hit + BitVec.ofNat 64 (k + 1)) (draws i)) ∈
      results name draws r is := by
  induction is generalizing r k with
  | nil => simp at hk
  | cons j is ih =>
    obtain ⟨hpoint, hfires⟩ := ShouldFire_of_enabled h (draws j)
    cases k with
    | zero =>
      obtain rfl : j = i := by simpa using hk
      rw [results, hfires]
      exact List.mem_cons_self
    | succ k =>
      have hrest := ih (r := (r.ShouldFire name (draws j)).1) (by rw [hpoint]; exact h)
        (by simpa using hk)
      rw [hpoint, hit_after] at hrest
      exact List.mem_cons_of_mem _ hrest

theorem mem_results_of_disabled (h : (r.point name).enabled = false) (hi : i ∈ is) :
    (i, false) ∈ results name draws r is := by
  induction is generalizing r with
  | nil => simp at hi
  | cons j is ih =>
    obtain ⟨hpoint, hfires⟩ := ShouldFire_of_disabled h (draws j)
    rw [results, hfires]
    rcases List.mem_cons.mp hi with rfl | hi
    · exact List.mem_cons_self
    · exact List.mem_cons_of_mem _ (ih (by rw [hpoint]; exact h) hi)

end Sequence

/-! ## The machine -/

/-- The calls at their accesses. `draws` has what a call drew last, `hits` and `misses` the calls
that counted a hit or found the point disabled, in their order. -/
structure Crowd (ι Double : Type*) [One Double] where
  registry : Registry Double
  disabling : DisablePc := .Get
  asking : ι → FirePc := fun _ => .Get
  draws : ι → Double
  hits : List ι := []
  misses : List ι := []

namespace Crowd

inductive Label (ι Double : Type*) where
  | disable
  | ask (i : ι) (draw : Double)

variable {ι : Type*} [DecidableEq ι]

def step (name : String) (s : Crowd ι Double) : Label ι Double → Option (Crowd ι Double)
  | .disable => (s.disabling.act name s.registry).map fun (r, pc) =>
    { s with registry := r, disabling := pc }
  | .ask i draw => ((s.asking i).act name s.registry draw).map fun (r, pc) =>
    { s with
      registry := r
      asking := Function.update s.asking i pc
      draws := Function.update s.draws i draw
      hits := if s.asking i = .hit then s.hits ++ [i] else s.hits
      misses := if s.asking i = .enabled ∧ pc = .returned false then s.misses ++ [i]
        else s.misses }

/-- The calls begin on the registry `r`, whose point `name` is enabled. -/
def machine (ι : Type*) [DecidableEq ι] (r : Registry Double) (name : String) :
    Machine (Crowd ι Double) (Label ι Double) where
  start s := (r.point name).enabled = true ∧ s.registry = r ∧ s.disabling = .Get ∧
    (∀ i, s.asking i = .Get) ∧ s.hits = [] ∧ s.misses = []
  step := step name

/-- The calls in the order in which they could have been made. -/
def order (s : Crowd ι Double) : List ι := s.hits ++ s.misses

/-- What the calls would have returned in this order, with `Disable` before the misses. -/
def sequential (r : Registry Double) (name : String) (s : Crowd ι Double) : List (ι × Bool) :=
  results name s.draws r s.hits ++
    results name s.draws (Disable (asked name s.draws r s.hits) name) s.misses

/-! ## Every call has its place -/

/-- The call has counted the hit `h`. -/
def Counted (p : Point Double) (s : Crowd ι Double) (i : ι) (h : BitVec 64) : Prop :=
  ∃ k, s.hits[k]? = some i ∧ h = p.hit + BitVec.ofNat 64 (k + 1)

/-- Where a call stands in the order, by its next access; `p` is the point as it was at first. -/
def Placed (p : Point Double) (s : Crowd ι Double) (i : ι) : FirePc → Prop
  | .Get | .enabled | .hit => i ∉ s.order
  | .mode h => s.Counted p i h
  | .nth h => s.Counted p i h ∧ p.mode = .NTH
  | .nthAgain h => s.Counted p i h ∧ p.mode = .NTH ∧ 0 < p.nth
  | .probability => (∃ h, s.Counted p i h) ∧ p.mode = .RANDOM
  | .returned fires =>
    (∃ h, s.Counted p i h ∧ fires = p.fires h (s.draws i)) ∨ i ∈ s.misses ∧ fires = false

structure Ordered (p : Point Double) (name : String) (s : Crowd ι Double) : Prop where
  point : s.registry.point name =
    { p with enabled := s.disabling ≠ .done, hit := p.hit + BitVec.ofNat 64 s.hits.length }
  nodup : s.order.Nodup
  missed : s.misses ≠ [] → s.disabling = .done
  placed : ∀ i, s.Placed p i (s.asking i)

variable {r : Registry Double} {p : Point Double} {name : String} {s t : Crowd ι Double}
  {l : Label ι Double} {i j : ι} {draw : Double} {pc : FirePc}

theorem step_disable (hst : (machine ι r name).step s .disable = some t) :
    s.disabling.act name s.registry = some (t.registry, t.disabling) ∧ t.asking = s.asking ∧
      t.draws = s.draws ∧ t.hits = s.hits ∧ t.misses = s.misses := by
  simp only [machine, step, Option.map_eq_some_iff] at hst
  obtain ⟨⟨r, pc⟩, hact, rfl⟩ := hst
  exact ⟨hact, rfl, rfl, rfl, rfl⟩

/-- One access of the call `i`. -/
structure Asked (name : String) (s : Crowd ι Double) (i : ι) (t : Crowd ι Double) : Prop where
  act : (s.asking i).act name s.registry (t.draws i) = some (t.registry, t.asking i)
  disabling : t.disabling = s.disabling
  asking_ne : ∀ j, j ≠ i → t.asking j = s.asking j
  draws_ne : ∀ j, j ≠ i → t.draws j = s.draws j
  hits : t.hits = if s.asking i = .hit then s.hits ++ [i] else s.hits
  misses : t.misses = if s.asking i = .enabled ∧ t.asking i = .returned false
    then s.misses ++ [i] else s.misses

theorem step_ask (hst : (machine ι r name).step s (.ask i draw) = some t) : Asked name s i t := by
  simp only [machine, step, Option.map_eq_some_iff] at hst
  obtain ⟨⟨r, pc⟩, hact, rfl⟩ := hst
  refine ⟨?_, rfl, fun j hj => Function.update_of_ne hj _ _,
    fun j hj => Function.update_of_ne hj _ _, rfl, ?_⟩
  · simpa using hact
  · simp

omit [LT Double] [DecidableLT Double] [DecidableEq ι] in
theorem Counted.mono {h : BitVec 64} (hc : s.Counted p i h) (hhits : s.hits <+: t.hits) :
    t.Counted p i h := by
  obtain ⟨k, hk, rfl⟩ := hc
  refine ⟨k, ?_, rfl⟩
  obtain ⟨later, hlater⟩ := hhits
  obtain ⟨hlt, -⟩ := List.getElem?_eq_some_iff.mp hk
  rw [← hlater, List.getElem?_append_left hlt, hk]

omit [LT Double] [DecidableLT Double] [DecidableEq ι] in
theorem Counted.mem {h : BitVec 64} (hc : s.Counted p i h) : i ∈ s.hits := by
  obtain ⟨k, hk, -⟩ := hc
  exact List.mem_of_getElem? hk

omit [DecidableEq ι] in
/-- A call keeps its place while others take theirs. -/
theorem Placed.mono (h : s.Placed p i pc) (hhits : s.hits <+: t.hits)
    (hmisses : s.misses <+: t.misses) (hdraws : t.draws i = s.draws i)
    (hfresh : i ∉ s.order → i ∉ t.order) : t.Placed p i pc := by
  cases pc with
  | Get | enabled | hit => exact hfresh h
  | mode => exact Counted.mono h hhits
  | nth => exact ⟨h.1.mono hhits, h.2⟩
  | nthAgain => exact ⟨h.1.mono hhits, h.2⟩
  | probability =>
    obtain ⟨⟨hit, hc⟩, hmode⟩ := h
    exact ⟨⟨hit, hc.mono hhits⟩, hmode⟩
  | returned fires =>
    rcases h with ⟨hit, hc, hfires⟩ | ⟨hi, hfires⟩
    · exact .inl ⟨hit, hc.mono hhits, hdraws ▸ hfires⟩
    · exact .inr ⟨hmisses.subset hi, hfires⟩

theorem Ordered.start (hs : (machine ι r name).start s) : Ordered (r.point name) name s := by
  obtain ⟨henabled, rfl, hdisabling, hasking, hhits, hmisses⟩ := hs
  refine ⟨?_, ?_, fun h => absurd hmisses h, fun i => ?_⟩
  · rw [hdisabling, hhits]
    simp [← henabled]
  · simp [order, hhits, hmisses]
  · rw [hasking]
    simp [Placed, order, hhits, hmisses]

theorem Ordered.disable (h : Ordered p name s)
    (hst : (machine ι r name).step s .disable = some t) : Ordered p name t := by
  obtain ⟨hact, hasking, hdraws, hhits, hmisses⟩ := step_disable hst
  have horder : t.order = s.order := by rw [order, hhits, hmisses, order]
  refine ⟨?_, horder ▸ h.nodup, ?_, fun i => ?_⟩
  · rw [hhits]
    cases hpc : s.disabling with
    | Get | enabled =>
      have hpoint := h.point
      rw [hpc] at hact hpoint
      simp only [DisablePc.act, Option.some.injEq, Prod.mk.injEq] at hact
      simp [← hact.1, ← hact.2, hpoint]
    | done => simp [hpc, DisablePc.act] at hact
  · rw [hmisses]
    intro hne
    simp [h.missed hne, DisablePc.act] at hact
  · rw [hasking]
    exact (h.placed i).mono (hhits ▸ List.prefix_rfl) (hmisses ▸ List.prefix_rfl)
      (congrFun hdraws i) (horder ▸ id)

omit [DecidableEq ι] in
/-- A call that has no place yet gets the next one, among the hits or the misses. -/
theorem Ordered.place (h : Ordered p name s) (hask : Asked name s i t) (hi : i ∉ s.order)
    (hadd : (t.hits = s.hits ++ [i] ∧ t.misses = s.misses) ∨
      t.hits = s.hits ∧ t.misses = s.misses ++ [i]) :
    t.order.Nodup ∧ ∀ j, j ≠ i → t.Placed p j (t.asking j) := by
  have hperm : t.order.Perm (i :: s.order) := by
    rcases hadd with ⟨hhits, hmisses⟩ | ⟨hhits, hmisses⟩
    · rw [order, hhits, hmisses, List.append_assoc]
      exact List.perm_middle
    · rw [order, hhits, hmisses, ← List.append_assoc]
      exact List.perm_append_singleton _ _
  refine ⟨hperm.nodup_iff.mpr (List.nodup_cons.mpr ⟨hi, h.nodup⟩), fun j hj => ?_⟩
  rw [hask.asking_ne j hj]
  refine (h.placed j).mono ?_ ?_ (hask.draws_ne j hj) ?_
  · rcases hadd with ⟨hhits, -⟩ | ⟨hhits, -⟩
    · exact hhits ▸ List.prefix_append _ _
    · exact hhits ▸ List.prefix_rfl
  · rcases hadd with ⟨-, hmisses⟩ | ⟨-, hmisses⟩
    · exact hmisses ▸ List.prefix_rfl
    · exact hmisses ▸ List.prefix_append _ _
  · rw [hperm.mem_iff, List.mem_cons, not_or]
    exact fun hfresh => ⟨hj, hfresh⟩

/-- The access that counts: the call is the last of the hits so far. -/
theorem Ordered.hit (h : Ordered p name s) (hask : Asked name s i t)
    (hpc : s.asking i = .hit) : Ordered p name t := by
  have hact := hask.act
  rw [hpc] at hact
  obtain ⟨hpoint, hnext⟩ := FirePc.act_hit hact
  have hhits : t.hits = s.hits ++ [i] := by rw [hask.hits, if_pos hpc]
  have hmisses : t.misses = s.misses := by simp [hask.misses, hpc]
  have hi : i ∉ s.order := by
    have hplaced := h.placed i
    rwa [hpc] at hplaced
  obtain ⟨hnodup, hothers⟩ := h.place hask hi (.inl ⟨hhits, hmisses⟩)
  have hcount : (s.registry.point name).hit + 1 =
      p.hit + BitVec.ofNat 64 (s.hits.length + 1) := by
    rw [h.point, BitVec.ofNat_add, BitVec.add_assoc]
    rfl
  refine ⟨?_, hnodup, ?_, fun j => ?_⟩
  · rw [hpoint, hcount, hhits, List.length_append, List.length_singleton, hask.disabling, h.point]
  · rw [hmisses, hask.disabling]
    exact h.missed
  · by_cases hj : j = i
    · subst hj
      rw [hnext, hcount]
      exact ⟨s.hits.length, by simp [hhits], rfl⟩
    · exact hothers j hj

/-- The access that finds the point disabled: the call is the last of the misses so far. -/
theorem Ordered.miss (h : Ordered p name s) (hask : Asked name s i t)
    (hpc : s.asking i = .enabled) (hnext : t.asking i = .returned false) : Ordered p name t := by
  have hact := hask.act
  have hpoint := FirePc.act_point hact (by simp [hpc])
  have hhits : t.hits = s.hits := by simp [hask.hits, hpc]
  have hmisses : t.misses = s.misses ++ [i] := by rw [hask.misses, if_pos ⟨hpc, hnext⟩]
  have hi : i ∉ s.order := by
    have hplaced := h.placed i
    rwa [hpc] at hplaced
  obtain ⟨hnodup, hothers⟩ := h.place hask hi (.inr ⟨hhits, hmisses⟩)
  have hdone : s.disabling = .done := by
    rw [hpc, hnext] at hact
    simp only [FirePc.act, h.point, Option.some.injEq, Prod.mk.injEq] at hact
    by_contra hopen
    simp [hopen] at hact
  refine ⟨?_, hnodup, fun _ => hask.disabling.trans hdone, fun j => ?_⟩
  · rw [hpoint, hhits, hask.disabling, h.point]
  · by_cases hj : j = i
    · subst hj
      rw [hnext]
      exact .inr ⟨by simp [hmisses], rfl⟩
    · exact hothers j hj

/-- An access by which no call gets a place. -/
theorem Ordered.look (h : Ordered p name s) (hask : Asked name s i t) (hpc : s.asking i ≠ .hit)
    (hnext : ¬ (s.asking i = .enabled ∧ t.asking i = .returned false)) : Ordered p name t := by
  have hpoint := FirePc.act_point hask.act hpc
  have hhits : t.hits = s.hits := by rw [hask.hits, if_neg hpc]
  have hmisses : t.misses = s.misses := by rw [hask.misses, if_neg hnext]
  have horder : t.order = s.order := by rw [order, hhits, hmisses, order]
  have hcounted {hit : BitVec 64} (hc : s.Counted p i hit) : t.Counted p i hit :=
    hc.mono (hhits ▸ List.prefix_rfl)
  refine ⟨?_, horder ▸ h.nodup, ?_, fun j => ?_⟩
  · rw [hpoint, hhits, hask.disabling, h.point]
  · rw [hmisses, hask.disabling]
    exact h.missed
  · by_cases hj : j = i
    · subst hj
      have hact := hask.act
      have hplaced := h.placed j
      -- the mode, `nth` and the probability are as they were at first
      cases hat : s.asking j with
      | hit => exact absurd hat hpc
      | returned fires => simp [hat, FirePc.act] at hact
      | Get =>
        rw [hat] at hact hplaced
        simp only [FirePc.act, Option.some.injEq, Prod.mk.injEq] at hact
        rw [← hact.2]
        exact fun hmem => hplaced (horder ▸ hmem)
      | enabled =>
        rw [hat] at hact hplaced
        simp only [FirePc.act, Option.some.injEq, Prod.mk.injEq] at hact
        cases hon : (s.registry.point name).enabled with
        | false => exact absurd ⟨hat, by rw [← hact.2, hon]; rfl⟩ hnext
        | true =>
          rw [← hact.2, if_pos hon]
          exact fun hmem => hplaced (horder ▸ hmem)
      | mode hit =>
        rw [hat] at hact hplaced
        have hc := hcounted hplaced
        simp only [FirePc.act, h.point, Option.some.injEq, Prod.mk.injEq] at hact
        rw [← hact.2]
        cases hmode : p.mode with
        | ALWAYS | ONCE => exact .inl ⟨hit, hc, by simp [Point.fires, hmode]⟩
        | NTH => exact ⟨hc, hmode⟩
        | RANDOM => exact ⟨⟨hit, hc⟩, hmode⟩
      | nth hit =>
        rw [hat] at hact hplaced
        obtain ⟨hc, hmode⟩ := hplaced
        simp only [FirePc.act, h.point, Option.some.injEq, Prod.mk.injEq] at hact
        rw [← hact.2]
        by_cases hpos : 0 < p.nth
        · rw [if_pos hpos]
          exact ⟨hcounted hc, hmode, hpos⟩
        · rw [if_neg hpos]
          exact .inl ⟨hit, hcounted hc, by simp only [Point.fires, hmode, hpos, decide_false,
            Bool.false_and]⟩
      | nthAgain hit =>
        rw [hat] at hact hplaced
        obtain ⟨hc, hmode, hpos⟩ := hplaced
        simp only [FirePc.act, h.point, Option.some.injEq, Prod.mk.injEq] at hact
        rw [← hact.2]
        exact .inl ⟨hit, hcounted hc, by simp only [Point.fires, hmode, hpos, decide_true,
          Bool.true_and]⟩
      | probability =>
        rw [hat] at hact hplaced
        obtain ⟨⟨hit, hc⟩, hmode⟩ := hplaced
        simp only [FirePc.act, h.point, Option.some.injEq, Prod.mk.injEq] at hact
        rw [← hact.2]
        exact .inl ⟨hit, hcounted hc, by simp [Point.fires, hmode]⟩
    · rw [hask.asking_ne j hj]
      exact (h.placed j).mono (hhits ▸ List.prefix_rfl) (hmisses ▸ List.prefix_rfl)
        (hask.draws_ne j hj) (horder ▸ id)

theorem Ordered.step (h : Ordered p name s) (hst : (machine ι r name).step s l = some t) :
    Ordered p name t := by
  cases l with
  | disable => exact h.disable hst
  | ask i draw =>
    have hask := step_ask hst
    by_cases hpc : s.asking i = .hit
    · exact h.hit hask hpc
    · by_cases hnext : s.asking i = .enabled ∧ t.asking i = .returned false
      · exact h.miss hask hnext.1 hnext.2
      · exact h.look hask hpc hnext

theorem Ordered.reachable (h : (machine ι r name).Reachable s) :
    Ordered (r.point name) name s := by
  induction h using Machine.Reachable.induction with
  | init s hs => exact .start hs
  | next s l t _ hst ih => exact ih.step hst

omit [DecidableEq ι] in
/-- A call that has returned is in the order. -/
theorem Ordered.mem_order (h : Ordered p name s) {fires : Bool}
    (hi : s.asking i = .returned fires) : i ∈ s.order := by
  have hplaced := h.placed i
  rw [hi] at hplaced
  rcases hplaced with ⟨hit, hc, -⟩ | ⟨hmiss, -⟩
  · exact List.mem_append_left _ hc.mem
  · exact List.mem_append_right _ hmiss

/-- The lists of hits and misses only grow. -/
theorem grows {tr : List (Crowd ι Double × Label ι Double)} (h : (machine ι r name).Trace s tr t) :
    s.hits <+: t.hits ∧ s.misses <+: t.misses := by
  refine h.keep (I := fun u => s.hits <+: u.hits ∧ s.misses <+: u.misses) ?_
    ⟨List.prefix_rfl, List.prefix_rfl⟩
  rintro u (_ | ⟨i, draw⟩) v ⟨hhits, hmisses⟩ hst
  · obtain ⟨-, -, -, hhits', hmisses'⟩ := step_disable hst
    rw [hhits', hmisses']
    exact ⟨hhits, hmisses⟩
  · have hask := step_ask hst
    rw [hask.hits, hask.misses]
    constructor
    · split
      · exact hhits.trans (List.prefix_append _ _)
      · exact hhits
    · split
      · exact hmisses.trans (List.prefix_append _ _)
      · exact hmisses

/-- A call that begins after `Disable` does not count a hit. -/
theorem not_hits {tr : List (Crowd ι Double × Label ι Double)}
    (hs : (machine ι r name).Reachable s) (h : (machine ι r name).Trace s tr t)
    (hdone : s.disabling = .done) (hj : s.asking j = .Get) : j ∉ t.hits := by
  have hfresh : j ∉ s.hits := by
    have hplaced := (Ordered.reachable hs).placed j
    rw [hj] at hplaced
    exact fun hmem => hplaced (List.mem_append_left _ hmem)
  refine (h.keep (I := fun u => Ordered (r.point name) name u ∧ u.disabling = .done ∧
    u.asking j ≠ .hit ∧ j ∉ u.hits) ?_
    ⟨.reachable hs, hdone, by simp [hj], hfresh⟩).2.2.2
  rintro u (_ | ⟨i, draw⟩) v ⟨hordered, hdone, hpc, hout⟩ hst
  · obtain ⟨hact, -⟩ := step_disable hst
    simp [hdone, DisablePc.act] at hact
  · have hask := step_ask hst
    refine ⟨hordered.step hst, hask.disabling.trans hdone, ?_, ?_⟩
    · by_cases hji : j = i
      · subst hji
        exact FirePc.act_ne_hit hask.act (by simp [hordered.point, hdone])
      · rw [hask.asking_ne j hji]
        exact hpc
    · rw [hask.hits]
      split
      · rename_i hhit
        have hji : j ≠ i := by
          rintro rfl
          exact hpc hhit
        simp [hout, hji]
      · exact hout

omit [DecidableEq ι] in
/-- What a call has returned is what it would have returned in the order. -/
theorem Ordered.mem_sequential (h : Ordered (r.point name) name s)
    (henabled : (r.point name).enabled = true) {fires : Bool} (hi : s.asking i = .returned fires) :
    (i, fires) ∈ s.sequential r name := by
  have hplaced := h.placed i
  rw [hi] at hplaced
  rcases hplaced with ⟨hit, ⟨k, hk, rfl⟩, rfl⟩ | ⟨hmiss, rfl⟩
  · exact List.mem_append_left _ (mem_results_of_enabled henabled hk)
  · refine List.mem_append_right _ (mem_results_of_disabled ?_ hmiss)
    rw [disabled_point henabled]

/-- A call that was over before another one began comes before it. -/
theorem precedes {tr : List (Crowd ι Double × Label ι Double)} {fires : Bool}
    (hs : (machine ι r name).Reachable s) (h : (machine ι r name).Trace s tr t)
    (hi : s.asking i = .returned fires) (hj : s.asking j = .Get) (hmem : j ∈ t.order) :
    [i, j].Sublist t.order := by
  have hordered := Ordered.reachable hs
  have hfresh : j ∉ s.order := by
    have hplaced := hordered.placed j
    rwa [hj] at hplaced
  obtain ⟨⟨hits, hhits⟩, ⟨misses, hmisses⟩⟩ := grows h
  rw [order, ← hhits, ← hmisses] at hmem ⊢
  rw [order, List.mem_append, not_or] at hfresh
  rcases List.mem_append.mp (hordered.mem_order hi) with hhit | hmiss
  · rw [List.append_assoc] at hmem ⊢
    have hlater := (List.mem_append.mp hmem).resolve_left hfresh.1
    exact (List.singleton_sublist.mpr hhit).append (List.singleton_sublist.mpr hlater)
  · have hdone : s.disabling = .done := hordered.missed (List.ne_nil_of_mem hmiss)
    have hnot := not_hits hs h hdone hj
    rw [← hhits] at hnot
    have hlater := (List.mem_append.mp ((List.mem_append.mp hmem).resolve_left hnot)).resolve_left
      hfresh.2
    exact ((List.singleton_sublist.mpr hmiss).append
      (List.singleton_sublist.mpr hlater)).trans (List.sublist_append_right _ _)

/-- Calls of `ShouldFire` on an enabled point, and one of `Disable` among them, are linearizable.
The calls in `order` are distinct and return what the calls of that sequence return, one after the
other, with `Disable` after the hits; the point is as that sequence leaves it. A call that was over
before another one began comes before it, and the same holds of the calls and `Disable`. -/
theorem linearizable {tr : List (Crowd ι Double × Label ι Double)}
    (hs : (machine ι r name).Reachable s) (h : (machine ι r name).Trace s tr t) :
    (t.order.Nodup ∧ ∀ i fires, t.asking i = .returned fires →
      (i, fires) ∈ t.sequential r name) ∧
    t.registry.point name =
      (if t.disabling = .done then Disable (asked name t.draws r t.hits) name
        else asked name t.draws r t.hits).point name ∧
    (∀ i j fires, s.asking i = .returned fires → s.asking j = .Get → j ∈ t.order →
      [i, j].Sublist t.order) ∧
    (s.disabling = .done → ∀ j, s.asking j = .Get → j ∉ t.hits) ∧
    (s.disabling = .Get → ∀ i fires, s.asking i = .returned fires → i ∈ t.hits) := by
  have henabled : (r.point name).enabled = true := by
    obtain ⟨start, -, hstart, -⟩ := hs
    exact hstart.1
  have hordered := Ordered.reachable (hs.trace h)
  refine ⟨⟨hordered.nodup, fun i fires hi => hordered.mem_sequential henabled hi⟩, ?_,
    fun i j fires hi hj hmem => precedes hs h hi hj hmem, fun hdone j hj => not_hits hs h hdone hj,
    fun hopen i fires hi => ?_⟩
  · rw [hordered.point]
    by_cases hdone : t.disabling = .done
    · rw [if_pos hdone, disabled_point henabled]
      simp [hdone]
    · rw [if_neg hdone, asked_point henabled]
      simp [hdone, henabled]
  · have hbefore := Ordered.reachable hs
    have hnone : s.misses = [] := by
      by_contra hne
      have hdone := hbefore.missed hne
      rw [hopen] at hdone
      cases hdone
    have hmem := hbefore.mem_order hi
    rw [order, hnone, List.append_nil] at hmem
    exact (grows h).1.subset hmem

/-- A point with `ONCE`. -/
def onceRegistry : Registry ℕ := Enable {} "read" .ONCE

/-- Call 0 finds the point enabled, call 1 counts before it and is over, and `Disable` returns. -/
def untilDisabled : List (Label (Fin 3) ℕ) :=
  [.ask 0 0, .ask 0 0] ++ List.replicate 4 (.ask 1 0) ++ [.disable, .disable]

/-- Call 2 finds the point disabled; call 0 counts after it. -/
def afterDisabled : List (Label (Fin 3) ℕ) := [.ask 2 0, .ask 2 0, .ask 0 0, .ask 0 0]

/-- Call 0 counts when the point is disabled and call 2 is over, yet it has its place before
them. -/
theorem linearizable_late : ∃ t : Crowd (Fin 3) ℕ,
    (machine (Fin 3) onceRegistry "read").Reachable t ∧ t.hits = [1, 0] ∧ t.misses = [2] ∧
    (0, false) ∈ t.sequential onceRegistry "read" ∧
    (1, true) ∈ t.sequential onceRegistry "read" ∧ [1, 2].Sublist t.order := by
  have hbefore : ((machine (Fin 3) onceRegistry "read").run
      { registry := onceRegistry, draws := fun _ => 0 } untilDisabled).any (fun s =>
        s.asking 1 = .returned true ∧ s.asking 2 = .Get ∧
        ((machine (Fin 3) onceRegistry "read").run s afterDisabled).any (fun t =>
          t.asking 0 = .returned false ∧ t.asking 1 = .returned true ∧ t.hits = [1, 0] ∧
          t.misses = [2])) = true := by decide +kernel
  obtain ⟨s, hs, hover, hidle, hafter⟩ := Machine.exists_of_run hbefore
  obtain ⟨t, ht, hlost, hwon, hhits, hmisses⟩ := Machine.exists_of_run hafter
  obtain ⟨tr, htr, -⟩ := Machine.Trace.of_run ht
  have hreach : (machine (Fin 3) onceRegistry "read").Reachable s :=
    .of_run ⟨by decide +kernel, rfl, rfl, fun _ => rfl, rfl, rfl⟩ hs
  obtain ⟨⟨-, hresults⟩, -, hprecedes, -⟩ := linearizable hreach htr
  refine ⟨t, hreach.trace htr, hhits, hmisses, hresults 0 false hlost, hresults 1 true hwon,
    hprecedes 1 2 true hover hidle ?_⟩
  simp [order, hmisses]

end Crowd

end QStorage.Tools.FailPoint
