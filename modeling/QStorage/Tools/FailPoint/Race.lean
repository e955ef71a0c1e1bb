import QStorage.Lib.Machine
import QStorage.Tools.FailPoint
import Mathlib.Data.Fintype.Card
import Mathlib.Logic.Relation

/-!
# Enabling a failpoint while it is asked for (`tools/failpoint/failpoint_config.h`)

`Enable` writes the five members of a point one after the other and the calls of `ShouldFire` read
them one after the other; a label is one such access. `Enable` sets `enabled` first and resets `hit`
last, so a call may count a hit in between, under whatever mode it finds.

## Main results

* `EnablePc.acts`, `FirePc.acts` — the accesses of a call that is not interrupted.
* `Race.Once.step` — what a step preserves while every hit is counted after the reset.
* `Race.Early.step` — what stays true once a hit was counted before the reset.
* `Race.fires_once` — a point enabled with `ONCE` fires once where no hit is counted too early, and
  can fire twice after any hit that is.
-/

namespace QStorage.Tools.FailPoint

open QStorage.Lib

variable {Double : Type*} [One Double] [LT Double] [DecidableLT Double]

/-- The access of `Enable` that comes next. -/
inductive EnablePc where
  | Get | enabled | mode | nth | probability | hit | done
  deriving DecidableEq, Repr

/-- The access of `ShouldFire` that comes next; `h` is the hit it has counted. -/
inductive FirePc where
  | Get
  | enabled
  | hit
  | mode (h : BitVec 64)
  | nth (h : BitVec 64)
  | nthAgain (h : BitVec 64)
  | probability
  | returned (fires : Bool)
  deriving DecidableEq, Repr

/-- One access of `Enable(name, st)`. -/
def EnablePc.act (name : String) (st : Settings Double) (r : Registry Double) :
    EnablePc → Option (Registry Double × EnablePc)
  | .Get => some (r.Get name, .enabled)
  | .enabled => some (r.set name { r.point name with enabled := true }, .mode)
  | .mode => some (r.set name { r.point name with mode := st.mode }, .nth)
  | .nth => some (r.set name { r.point name with nth := st.nth }, .probability)
  | .probability => some (r.set name { r.point name with probability := st.probability }, .hit)
  | .hit => some (r.set name { r.point name with hit := 0 }, .done)
  | .done => none

/-- One access of `ShouldFire(name)`. -/
def FirePc.act (name : String) (r : Registry Double) (draw : Double) :
    FirePc → Option (Registry Double × FirePc)
  | .Get => some (r.Get name, .enabled)
  | .enabled => some (r, if (r.point name).enabled then .hit else .returned false)
  | .hit =>
    let h := (r.point name).hit + 1
    some (r.set name { r.point name with hit := h }, .mode h)
  | .mode h => some (r, match (r.point name).mode with
    | .ALWAYS => .returned true
    | .ONCE => .returned (h == 1)
    | .NTH => .nth h
    | .RANDOM => .probability)
  | .nth h => some (r, if 0 < (r.point name).nth then .nthAgain h else .returned false)
  | .nthAgain h => some (r, .returned (h == (r.point name).nth))
  | .probability => some (r, .returned (decide (draw < (r.point name).probability)))
  | .returned _ => none

/-- One call of `Enable` and the calls of `ShouldFire`, all on the same name. -/
structure Race (ι Double : Type*) [One Double] where
  registry : Registry Double := {}
  enabling : EnablePc := .Get
  asking : ι → FirePc := fun _ => .Get

namespace Race

inductive Label (ι Double : Type*) where
  | enable
  | ask (i : ι) (draw : Double)

variable {ι : Type*} [DecidableEq ι]

def step (name : String) (st : Settings Double) (s : Race ι Double) :
    Label ι Double → Option (Race ι Double)
  | .enable => (s.enabling.act name st s.registry).map fun (r, pc) =>
    { s with registry := r, enabling := pc }
  | .ask i draw => ((s.asking i).act name s.registry draw).map fun (r, pc) =>
    { s with registry := r, asking := Function.update s.asking i pc }

/-- `Enable(name, ONCE)` on a point that was never enabled before. -/
def machine (ι Double : Type*) [One Double] [LT Double] [DecidableLT Double] [DecidableEq ι]
    (name : String) : Machine (Race ι Double) (Label ι Double) where
  start s := s.registry.point name = {} ∧ s.enabling = .Get ∧ ∀ i, s.asking i = .Get
  step := step name ⟨.ONCE, 0, 1⟩

/-- No hit is counted before `Enable` has reset the count. -/
def Late (s : Race ι Double) : Label ι Double → Prop
  | .enable => True
  | .ask i _ => s.asking i = .hit → s.enabling = .done

instance (s : Race ι Double) : (l : Label ι Double) → Decidable (Late s l)
  | .enable => .isTrue trivial
  | .ask i _ => inferInstanceAs (Decidable (s.asking i = .hit → s.enabling = .done))

/-- At most one call has returned true. -/
def AtMostOne (s : Race ι Double) : Prop :=
  ∀ i j, s.asking i = .returned true → s.asking j = .returned true → i = j

end Race

/-! ## What one access does -/

section Accesses

variable {name : String} {r r' : Registry Double} {draw : Double} {pc pc' : FirePc}

/-- The call has returned true, or will in mode `ONCE`. -/
def FirePc.Wins : FirePc → Prop
  | .mode h => h = 1
  | .returned fires => fires = true
  | _ => False

/-- The call has not counted a hit. -/
def FirePc.Quiet : FirePc → Prop
  | .Get | .enabled | .hit | .returned false => True
  | _ => False

/-- The call is past the access that counts, or over. -/
def FirePc.past : FirePc → Bool
  | .Get | .enabled | .hit => false
  | _ => true

/-- Where a call can be that finds no other mode than `ALWAYS` and `ONCE`. -/
def FirePc.Plain : FirePc → Prop
  | .nth _ | .nthAgain _ | .probability => False
  | _ => True

/-- The mode and the switch of the point while `Enable(name, ONCE)` is at an access. -/
def EnablePc.Stage (p : Point Double) : EnablePc → Prop
  | .Get | .enabled => p.mode = .ALWAYS ∧ p.enabled = false
  | .mode => p.mode = .ALWAYS ∧ p.enabled = true
  | .nth | .probability | .hit | .done => p.mode = .ONCE ∧ p.enabled = true

omit [LT Double] [DecidableLT Double] in
theorem EnablePc.Stage.mode {p : Point Double} {pc : EnablePc} (h : pc.Stage p) :
    p.mode = .ALWAYS ∨ p.mode = .ONCE := by
  cases pc <;> simp_all [EnablePc.Stage]

omit [LT Double] [DecidableLT Double] in
theorem EnablePc.Stage.congr {p q : Point Double} {pc : EnablePc} (h : pc.Stage p)
    (hmode : q.mode = p.mode) (henabled : q.enabled = p.enabled) : pc.Stage q := by
  cases pc <;> simp_all [EnablePc.Stage]

theorem FirePc.Quiet.not_wins (h : pc.Quiet) : ¬ pc.Wins := by
  cases pc with
  | returned fires => cases fires <;> simp_all [FirePc.Quiet, FirePc.Wins]
  | _ => simp_all [FirePc.Quiet, FirePc.Wins]

omit [LT Double] [DecidableLT Double] in
/-- The accesses of `Enable`, one right after the other, are the call. -/
theorem EnablePc.acts (name : String) (st : Settings Double) (r : Registry Double) :
    Relation.ReflTransGen (fun x y => EnablePc.act name st x.1 x.2 = some y) (r, .Get)
      (Enable r name st.mode st.nth st.probability, .done) := by
  refine .head rfl (.head rfl (.head rfl (.head rfl (.head rfl (.single ?_)))))
  rfl

/-- The accesses of `ShouldFire`, one right after the other, are the call. -/
theorem FirePc.acts (name : String) (draw : Double) (r : Registry Double) :
    Relation.ReflTransGen (fun x y => FirePc.act name x.1 draw x.2 = some y) (r, .Get)
      ((r.ShouldFire name draw).1, .returned (r.ShouldFire name draw).2) := by
  refine .head rfl ?_
  cases hon : ((r.Get name).point name).enabled with
  | false =>
    refine .single ?_
    simp only [FirePc.act, Registry.ShouldFire, hon]
    rfl
  | true =>
    have hfires : r.ShouldFire name draw =
        ((r.Get name).set name { (r.Get name).point name with
            hit := ((r.Get name).point name).hit + 1 },
          ((r.Get name).point name).fires (((r.Get name).point name).hit + 1) draw) := by
      simp only [Registry.ShouldFire, hon]
      rfl
    have hhit : FirePc.act name (r.Get name) draw .enabled = some (r.Get name, .hit) := by
      simp only [FirePc.act, hon]
      rfl
    rw [hfires]
    refine .head hhit (.head rfl ?_)
    generalize (r.Get name).point name = p
    generalize hset : (r.Get name).set name { p with hit := p.hit + 1 } = r'
    have hpoint : r'.point name = { p with hit := p.hit + 1 } := by
      rw [← hset, Registry.set_point_self]
    cases hmode : p.mode with
    | ALWAYS | ONCE =>
      refine .single ?_
      simp only [FirePc.act, Point.fires, hpoint, hmode]
    | NTH =>
      have hnth : FirePc.act name r' draw (.mode (p.hit + 1)) = some (r', .nth (p.hit + 1)) := by
        simp only [FirePc.act, hpoint, hmode]
      refine .head hnth ?_
      by_cases hpos : 0 < p.nth
      · have hagain : FirePc.act name r' draw (.nth (p.hit + 1)) =
            some (r', .nthAgain (p.hit + 1)) := by
          simp only [FirePc.act, hpoint, if_pos hpos]
        refine .head hagain (.single ?_)
        simp only [FirePc.act, Point.fires, hpoint, hmode, hpos, decide_true, Bool.true_and]
      · refine .single ?_
        simp only [FirePc.act, Point.fires, hpoint, hmode, hpos, if_false, decide_false,
          Bool.false_and]
    | RANDOM =>
      have hrandom : FirePc.act name r' draw (.mode (p.hit + 1)) = some (r', .probability) := by
        simp only [FirePc.act, hpoint, hmode]
      refine .head hrandom (.single ?_)
      simp only [FirePc.act, Point.fires, hpoint, hmode]

/-- The access that counts a hit. -/
theorem FirePc.act_hit (h : FirePc.hit.act name r draw = some (r', pc')) :
    r'.point name = { r.point name with hit := (r.point name).hit + 1 } ∧
      pc' = .mode ((r.point name).hit + 1) := by
  simp only [FirePc.act, Option.some.injEq, Prod.mk.injEq] at h
  obtain ⟨rfl, rfl⟩ := h
  simp

/-- No other access writes to the point. -/
theorem FirePc.act_point (h : pc.act name r draw = some (r', pc')) (hpc : pc ≠ .hit) :
    r'.point name = r.point name := by
  cases pc with
  | hit => exact absurd rfl hpc
  | returned fires => simp [FirePc.act] at h
  | _ =>
    simp only [FirePc.act, Option.some.injEq, Prod.mk.injEq] at h
    simp [← h.1]

/-- A call that wins does not lose again. -/
theorem FirePc.Wins.act (hwins : pc.Wins) (h : pc.act name r draw = some (r', pc'))
    (hmode : (r.point name).mode = .ALWAYS ∨ (r.point name).mode = .ONCE) : pc'.Wins := by
  cases pc with
  | mode hit =>
    obtain rfl : hit = 1 := hwins
    simp only [FirePc.act, Option.some.injEq, Prod.mk.injEq] at h
    rcases hmode with hmode | hmode <;> simp [← h.2, hmode, FirePc.Wins]
  | returned fires => simp [FirePc.act] at h
  | _ => exact hwins.elim

/-- In mode `ONCE` only the access that counts makes a winner, and quiet calls stay quiet. -/
theorem FirePc.act_plain (h : pc.act name r draw = some (r', pc')) (hpc : pc ≠ .hit)
    (hplain : pc.Plain) (hmode : (r.point name).mode = .ONCE ∨ pc.Quiet) :
    pc'.Plain ∧ (pc'.Wins → pc.Wins) ∧ (pc.Quiet → pc'.Quiet) ∧
      (pc.past = true → pc'.past = true) := by
  cases pc with
  | hit => exact absurd rfl hpc
  | returned fires => simp [FirePc.act] at h
  | nth | nthAgain | probability => exact hplain.elim
  | Get =>
    simp only [FirePc.act, Option.some.injEq, Prod.mk.injEq] at h
    obtain ⟨-, rfl⟩ := h
    exact ⟨trivial, id, id, id⟩
  | enabled =>
    simp only [FirePc.act, Option.some.injEq, Prod.mk.injEq] at h
    obtain ⟨-, rfl⟩ := h
    split
    · exact ⟨trivial, id, id, id⟩
    · exact ⟨trivial, fun hwins => (Bool.false_ne_true hwins).elim, id, fun _ => rfl⟩
  | mode hit =>
    have hmode : (r.point name).mode = .ONCE := hmode.resolve_right id
    simp only [FirePc.act, hmode, Option.some.injEq, Prod.mk.injEq] at h
    obtain ⟨-, rfl⟩ := h
    exact ⟨trivial, fun hwins => eq_of_beq hwins, fun hquiet => hquiet.elim, fun _ => rfl⟩

end Accesses

namespace Race

variable {ι : Type*} [DecidableEq ι] {name : String} {s t : Race ι Double} {l : Label ι Double}
  {i : ι} {draw : Double}

theorem step_enable (hst : (machine ι Double name).step s .enable = some t) :
    s.enabling.act name ⟨.ONCE, 0, 1⟩ s.registry = some (t.registry, t.enabling) ∧
      t.asking = s.asking := by
  simp only [machine, step, Option.map_eq_some_iff] at hst
  obtain ⟨⟨r, pc⟩, hact, rfl⟩ := hst
  exact ⟨hact, rfl⟩

theorem step_ask (hst : (machine ι Double name).step s (.ask i draw) = some t) :
    (s.asking i).act name s.registry draw = some (t.registry, t.asking i) ∧
      t.enabling = s.enabling ∧ ∀ j, j ≠ i → t.asking j = s.asking j := by
  simp only [machine, step, Option.map_eq_some_iff] at hst
  obtain ⟨⟨r, pc⟩, hact, rfl⟩ := hst
  exact ⟨hact.trans (by simp), rfl, fun j hj => Function.update_of_ne hj _ _⟩

omit [One Double] [LT Double] [DecidableLT Double] in
/-- A property of calls is kept if the call that takes the access keeps it. -/
theorem keep_asking {f g : ι → FirePc} {P : FirePc → Prop} (hother : ∀ j, j ≠ i → g j = f j)
    (hself : P (f i) → P (g i)) {j : ι} (hj : P (f j)) : P (g j) := by
  by_cases hji : j = i
  · subst hji
    exact hself hj
  · rwa [hother j hji]

omit [LT Double] [DecidableLT Double] in
/-- What an access of `Enable` does to the mode, the switch and the count. -/
theorem enable_act {r r' : Registry Double} {pc pc' : EnablePc}
    (h : pc.act name ⟨.ONCE, 0, 1⟩ r = some (r', pc')) (hstage : pc.Stage (r.point name)) :
    pc ≠ .done ∧ pc'.Stage (r'.point name) ∧
      (r'.point name).hit = if pc' = .done then 0 else (r.point name).hit := by
  cases pc with
  | done => simp [EnablePc.act] at h
  | _ =>
    simp only [EnablePc.act, Option.some.injEq, Prod.mk.injEq] at h
    obtain ⟨rfl, rfl⟩ := h
    simp only [EnablePc.Stage] at hstage
    simp [EnablePc.Stage, hstage]

theorem stage_step (h : s.enabling.Stage (s.registry.point name))
    (hst : (machine ι Double name).step s l = some t) :
    t.enabling.Stage (t.registry.point name) := by
  cases l with
  | enable =>
    obtain ⟨hact, -⟩ := step_enable hst
    exact (enable_act hact h).2.1
  | ask i draw =>
    obtain ⟨hact, henabling, -⟩ := step_ask hst
    rw [henabling]
    by_cases hpc : s.asking i = .hit
    · rw [hpc] at hact
      obtain ⟨hpoint, -⟩ := FirePc.act_hit hact
      exact h.congr (by rw [hpoint]) (by rw [hpoint])
    · rw [FirePc.act_point hact hpc]
      exact h

/-! ## Runs in which every hit is counted after the reset -/

section Once

variable [Fintype ι]

/-- The calls that are past the access that counts. -/
def pastCalls (s : Race ι Double) : Finset ι := Finset.univ.filter fun i => (s.asking i).past = true

/-- Before the reset no call counts, and after it the first call to count is the only winner. -/
structure Once (name : String) (s : Race ι Double) : Prop where
  stage : s.enabling.Stage (s.registry.point name)
  early : s.enabling ≠ .done → (s.registry.point name).hit = 0 ∧ ∀ i, (s.asking i).Quiet
  plain : ∀ i, (s.asking i).Plain
  unique : ∀ i j, (s.asking i).Wins → (s.asking j).Wins → i = j
  count : ∃ n ≤ s.pastCalls.card, (s.registry.point name).hit = BitVec.ofNat 64 n ∧
    (n = 0 → ∀ i, ¬ (s.asking i).Wins)

theorem Once.start (hs : (machine ι Double name).start s) : Once name s := by
  obtain ⟨hpoint, henabling, hasking⟩ := hs
  have hquiet (i : ι) : (s.asking i).Quiet := by
    rw [hasking]
    trivial
  have hlost (i : ι) : ¬ (s.asking i).Wins := (hquiet i).not_wins
  refine ⟨?_, fun _ => ⟨by rw [hpoint], hquiet⟩, ?_, fun i _ hi => absurd hi (hlost i), 0,
    Nat.zero_le _, by rw [hpoint]; rfl, fun _ => hlost⟩
  · rw [hpoint, henabling]
    exact ⟨rfl, rfl⟩
  · intro i
    rw [hasking]
    trivial

theorem Once.enable (h : Once name s) (hst : (machine ι Double name).step s .enable = some t) :
    Once name t := by
  obtain ⟨hact, hasking⟩ := step_enable hst
  obtain ⟨hopen, hstage, hhit⟩ := enable_act hact h.stage
  obtain ⟨hzero, hquiet⟩ := h.early hopen
  have hzero' : (t.registry.point name).hit = 0 := by rw [hhit, hzero, ite_self]
  rw [← hasking] at hquiet
  refine ⟨hstage, fun _ => ⟨hzero', hquiet⟩, ?_, ?_, 0, Nat.zero_le _, hzero',
    fun _ i => (hquiet i).not_wins⟩
  · rw [hasking]
    exact h.plain
  · rw [hasking]
    exact h.unique

omit [LT Double] [DecidableLT Double] [DecidableEq ι] in
theorem mem_pastCalls : i ∈ s.pastCalls ↔ (s.asking i).past = true := by simp [pastCalls]

omit [LT Double] [DecidableLT Double] [DecidableEq ι] in
theorem pastCalls_mono {s t : Race ι Double}
    (h : ∀ i, (s.asking i).past = true → (t.asking i).past = true) :
    s.pastCalls ⊆ t.pastCalls := by
  intro i hi
  rw [mem_pastCalls] at hi ⊢
  exact h i hi

/-- An access that does not count. -/
theorem Once.look (h : Once name s) (hst : (machine ι Double name).step s (.ask i draw) = some t)
    (hpc : s.asking i ≠ .hit) : Once name t := by
  obtain ⟨hact, henabling, hother⟩ := step_ask hst
  have hpoint := FirePc.act_point hact hpc
  have hmode : (s.registry.point name).mode = .ONCE ∨ (s.asking i).Quiet := by
    by_cases hdone : s.enabling = .done
    · have hstage := h.stage
      rw [hdone] at hstage
      exact .inl hstage.1
    · exact .inr ((h.early hdone).2 i)
  obtain ⟨hplain, hwins, hquiet, hpast⟩ := FirePc.act_plain hact hpc (h.plain i) hmode
  have hback {j : ι} (hj : (t.asking j).Wins) : (s.asking j).Wins :=
    keep_asking (fun k hk => (hother k hk).symm) hwins hj
  obtain ⟨n, hn, hcount, hnone⟩ := h.count
  refine ⟨stage_step h.stage hst, ?_, ?_, ?_, n, ?_, ?_, ?_⟩
  · intro hopen
    obtain ⟨hzero, hbefore⟩ := h.early (henabling ▸ hopen)
    exact ⟨by rw [hpoint, hzero], fun j => keep_asking hother hquiet (hbefore j)⟩
  · exact fun j => keep_asking hother (fun _ => hplain) (h.plain j)
  · exact fun j k hj hk => h.unique j k (hback hj) (hback hk)
  · refine hn.trans (Finset.card_le_card (pastCalls_mono fun j hj => ?_))
    exact keep_asking (P := fun pc => pc.past = true) hother hpast hj
  · rw [hpoint, hcount]
  · exact fun hzero j hj => hnone hzero j (hback hj)

/-- The access that counts, after the reset: the first one makes the winner. -/
theorem Once.hit (h : Once name s) (hfew : Fintype.card ι < 2 ^ 64)
    (hst : (machine ι Double name).step s (.ask i draw) = some t) (hpc : s.asking i = .hit)
    (hdone : s.enabling = .done) : Once name t := by
  obtain ⟨hact, henabling, hother⟩ := step_ask hst
  rw [hpc] at hact
  obtain ⟨hpoint, hself⟩ := FirePc.act_hit hact
  obtain ⟨n, hn, hcount, hnone⟩ := h.count
  have hfresh : i ∉ s.pastCalls := by
    rw [mem_pastCalls, hpc]
    exact Bool.false_ne_true
  have hroom : s.pastCalls.card < Fintype.card ι := Finset.card_lt_univ_of_notMem hfresh
  have hwins {j : ι} (hj : (t.asking j).Wins) : n = 0 ∧ j = i ∨ (s.asking j).Wins := by
    by_cases hji : j = i
    · subst hji
      rw [hself] at hj
      have hone : (s.registry.point name).hit + 1 = 1 := hj
      have hnat := congrArg BitVec.toNat hone
      simp only [hcount, BitVec.toNat_add, BitVec.toNat_ofNat, BitVec.ofNat_eq_ofNat] at hnat
      exact .inl ⟨by omega, rfl⟩
    · rw [hother j hji] at hj
      exact .inr hj
  have hsub : insert i s.pastCalls ⊆ t.pastCalls := by
    intro j hj
    rw [mem_pastCalls]
    by_cases hji : j = i
    · rw [hji, hself]
      rfl
    · rw [Finset.mem_insert, or_iff_right hji, mem_pastCalls] at hj
      rwa [hother j hji]
  refine ⟨stage_step h.stage hst, fun hopen => absurd (henabling.trans hdone) hopen, ?_, ?_,
    n + 1, ?_, ?_, ?_⟩
  · intro j
    refine keep_asking hother (fun _ => ?_) (h.plain j)
    rw [hself]
    trivial
  · intro j k hj hk
    rcases hwins hj with ⟨hzero, rfl⟩ | hj
    · rcases hwins hk with ⟨-, rfl⟩ | hk
      · rfl
      · exact absurd hk (hnone hzero k)
    · rcases hwins hk with ⟨hzero, rfl⟩ | hk
      · exact absurd hj (hnone hzero j)
      · exact h.unique j k hj hk
  · calc n + 1 ≤ s.pastCalls.card + 1 := Nat.succ_le_succ hn
      _ = (insert i s.pastCalls).card := (Finset.card_insert_of_notMem hfresh).symm
      _ ≤ t.pastCalls.card := Finset.card_le_card hsub
  · rw [hpoint, BitVec.ofNat_add, ← hcount]
    rfl
  · exact fun hzero => absurd hzero (Nat.succ_ne_zero n)

theorem Once.step (h : Once name s) (hfew : Fintype.card ι < 2 ^ 64) (hlate : Late s l)
    (hst : (machine ι Double name).step s l = some t) : Once name t := by
  cases l with
  | enable => exact h.enable hst
  | ask i draw =>
    by_cases hpc : s.asking i = .hit
    · exact h.hit hfew hst hpc (hlate hpc)
    · exact h.look hst hpc

omit [LT Double] [DecidableLT Double] [DecidableEq ι] in
theorem Once.atMostOne (h : Once name s) : AtMostOne s := by
  intro i j hi hj
  apply h.unique i j
  · rw [hi]
    rfl
  · rw [hj]
    rfl

end Once

/-! ## Runs in which a hit is counted before the reset -/

/-- Some call wins, and as soon as the count is reset the next call to count wins as well. -/
structure Early (name : String) (s : Race ι Double) : Prop where
  stage : s.enabling.Stage (s.registry.point name)
  first : ∃ i, (s.asking i).Wins
  second : s.enabling = .done → (s.registry.point name).hit = 0 ∨
    ∃ i j, i ≠ j ∧ (s.asking i).Wins ∧ (s.asking j).Wins

/-- A winner stays one. -/
theorem wins_step (h : s.enabling.Stage (s.registry.point name))
    (hst : (machine ι Double name).step s l = some t) (hwins : (s.asking i).Wins) :
    (t.asking i).Wins := by
  cases l with
  | enable =>
    obtain ⟨-, hasking⟩ := step_enable hst
    rwa [hasking]
  | ask j draw =>
    obtain ⟨hact, -, hother⟩ := step_ask hst
    exact keep_asking hother (fun hwins => hwins.act hact h.mode) hwins

theorem Early.step (h : Early name s) (hst : (machine ι Double name).step s l = some t) :
    Early name t := by
  obtain ⟨i, hi⟩ := h.first
  refine ⟨stage_step h.stage hst, ⟨i, wins_step h.stage hst hi⟩, ?_⟩
  intro hdone
  cases l with
  | enable =>
    obtain ⟨hact, -⟩ := step_enable hst
    obtain ⟨-, -, hhit⟩ := enable_act hact h.stage
    exact .inl (by rw [hhit, if_pos hdone])
  | ask k draw =>
    obtain ⟨hact, henabling, -⟩ := step_ask hst
    rcases h.second (henabling ▸ hdone) with hzero | ⟨i, j, hne, hi, hj⟩
    · by_cases hpc : s.asking k = .hit
      · -- the call `k` counts the first hit after the reset
        rw [hpc] at hact
        obtain ⟨-, hself⟩ := FirePc.act_hit hact
        have hk : (t.asking k).Wins := by
          rw [hself, hzero]
          rfl
        have hne : i ≠ k := by
          rintro rfl
          rw [hpc] at hi
          exact hi
        exact .inr ⟨i, k, hne, wins_step h.stage hst hi, hk⟩
      · exact .inl (by rw [FirePc.act_point hact hpc, hzero])
    · exact .inr ⟨i, j, hne, wins_step h.stage hst hi, wins_step h.stage hst hj⟩

/-- The first hit is counted too early. -/
theorem Once.spoil [Fintype ι] (h : Once name s) (hbad : ¬ Late s l)
    (hst : (machine ι Double name).step s l = some t) : Early name t := by
  cases l with
  | enable => exact absurd trivial hbad
  | ask i draw =>
    obtain ⟨hpc, hopen⟩ := Classical.not_imp.mp hbad
    obtain ⟨hact, henabling, -⟩ := step_ask hst
    rw [hpc] at hact
    obtain ⟨-, hself⟩ := FirePc.act_hit hact
    refine ⟨stage_step h.stage hst, ⟨i, ?_⟩, fun hdone => absurd (henabling.symm.trans hdone) hopen⟩
    rw [hself, (h.early hopen).1]
    rfl

/-- What a run has come to, with and without an early hit. -/
theorem once_or_early [Fintype ι] (hfew : Fintype.card ι < 2 ^ 64)
    {tr : List (Race ι Double × Label ι Double)} (hs : (machine ι Double name).start s)
    (htr : (machine ι Double name).Trace s tr t) :
    ((∀ p ∈ tr, Late p.1 p.2) ∧ Once name t) ∨ ((¬ ∀ p ∈ tr, Late p.1 p.2) ∧ Early name t) := by
  induction htr with
  | nil => exact .inl ⟨by simp, .start hs⟩
  | @snoc u v l tr htr hst ih =>
    rcases ih with ⟨hlate, hu⟩ | ⟨hbad, hu⟩
    · by_cases hl : Late u l
      · refine .inl ⟨?_, hu.step hfew hl hst⟩
        exact List.forall_mem_append.mpr ⟨hlate, List.forall_mem_singleton.mpr hl⟩
      · exact .inr ⟨fun hall => hl (hall (u, l) (by simp)), hu.spoil hl hst⟩
    · exact .inr ⟨fun hall => hbad fun p hp => hall p (List.mem_append_left _ hp), hu.step hst⟩

/-! ### The second winner -/

/-- How many accesses `Enable` has left. -/
def enableLeft : EnablePc → ℕ
  | .Get => 6
  | .enabled => 5
  | .mode => 4
  | .nth => 3
  | .probability => 2
  | .hit => 1
  | .done => 0

omit [LT Double] [DecidableLT Double] in
theorem exists_enable_act (name : String) (r : Registry Double) {pc : EnablePc} {n : ℕ}
    (h : enableLeft pc = n + 1) : ∃ r' pc', pc.act name ⟨.ONCE, 0, 1⟩ r = some (r', pc') ∧
      enableLeft pc' = n := by
  cases pc <;> simp_all [enableLeft, EnablePc.act]

/-- `Enable` can go on to its end. -/
theorem exists_done (name : String) (s : Race ι Double) :
    ∃ t, (machine ι Double name).Leads Late s t ∧ t.enabling = .done ∧ t.asking = s.asking := by
  induction hn : enableLeft s.enabling generalizing s with
  | zero =>
    refine ⟨s, .refl s, ?_, rfl⟩
    cases hpc : s.enabling <;> simp_all [enableLeft]
  | succ n ih =>
    obtain ⟨r, pc, hact, hleft⟩ := exists_enable_act name s.registry hn
    have hst : (machine ι Double name).step s .enable =
        some { s with registry := r, enabling := pc } := by
      simp only [machine, step, hact, Option.map_some]
    obtain ⟨t, ht, hdone, hasking⟩ := ih { s with registry := r, enabling := pc } hleft
    exact ⟨t, (Machine.Leads.step trivial hst).trans ht, hdone, hasking⟩

/-- A call can take its next access. -/
theorem exists_ask (draw : Double) {r : Registry Double} {pc : FirePc}
    (hlate : Late s (.ask i draw)) (hact : (s.asking i).act name s.registry draw = some (r, pc)) :
    ∃ t, (machine ι Double name).Leads Late s t ∧ t.registry = r ∧ t.enabling = s.enabling ∧
      t.asking i = pc ∧ ∀ j, j ≠ i → t.asking j = s.asking j := by
  have hst : (machine ι Double name).step s (.ask i draw) =
      some { s with registry := r, asking := Function.update s.asking i pc } := by
    simp [machine, step, hact]
  exact ⟨_, .step hlate hst, rfl, rfl, Function.update_self .., fun j hj =>
    Function.update_of_ne hj ..⟩

/-- A call that wins can go on to return. -/
theorem exists_returned (h : s.enabling.Stage (s.registry.point name)) (hwins : (s.asking i).Wins) :
    ∃ t, (machine ι Double name).Leads Late s t ∧ t.asking i = .returned true ∧
      t.enabling.Stage (t.registry.point name) ∧ ∀ j, j ≠ i → t.asking j = s.asking j := by
  cases hpc : s.asking i with
  | mode hit =>
    rw [hpc] at hwins
    obtain rfl : hit = 1 := hwins
    have hact : (s.asking i).act name s.registry 1 = some (s.registry, .returned true) := by
      rcases h.mode with hmode | hmode <;> simp [hpc, FirePc.act, hmode]
    obtain ⟨t, ht, hregistry, henabling, hself, hother⟩ :=
      exists_ask 1 (fun heq => by rw [hpc] at heq; cases heq) hact
    exact ⟨t, ht, hself, by rwa [hregistry, henabling], hother⟩
  | returned fires =>
    rw [hpc] at hwins
    obtain rfl : fires = true := hwins
    exact ⟨s, .refl s, hpc, h, fun _ _ => rfl⟩
  | _ =>
    rw [hpc] at hwins
    exact hwins.elim

/-- A call that starts after the reset wins if no other one has counted since then. -/
theorem exists_counted (h : s.enabling.Stage (s.registry.point name)) (hdone : s.enabling = .done)
    (hzero : (s.registry.point name).hit = 0) (hidle : s.asking i = .Get) :
    ∃ t, (machine ι Double name).Leads Late s t ∧ (t.asking i).Wins ∧
      ∀ j, j ≠ i → t.asking j = s.asking j := by
  obtain ⟨t, ht, htregistry, htdone, htself, htother⟩ :=
    exists_ask (i := i) 1 (fun _ => hdone) (by rw [hidle]; rfl)
  have htpoint : t.registry.point name = s.registry.point name := by
    rw [htregistry, Registry.Get_point]
  have hon : (t.registry.point name).enabled = true := by
    rw [hdone] at h
    rw [htpoint, h.2]
  have hact : (t.asking i).act name t.registry 1 = some (t.registry, .hit) := by
    rw [htself]
    simp [FirePc.act, hon]
  obtain ⟨u, hu, huregistry, hudone, huself, huother⟩ :=
    exists_ask 1 (fun _ => htdone.trans hdone) hact
  obtain ⟨v, hv, -, -, hvself, hvother⟩ := exists_ask (i := i) 1
    (fun _ => hudone.trans (htdone.trans hdone)) (by rw [huself]; rfl)
  refine ⟨v, ht.trans (hu.trans hv), ?_, ?_⟩
  · rw [hvself, huregistry, htpoint, hzero]
    rfl
  · intro j hj
    rw [hvother j hj, huother j hj, htother j hj]

theorem Early.of_leads {ok : Race ι Double → Label ι Double → Prop} (h : Early name s)
    (hleads : (machine ι Double name).Leads ok s t) : Early name t := by
  obtain ⟨tr, htr, -⟩ := hleads
  induction htr with
  | nil => exact h
  | snoc _ hst ih => exact ih.step hst

/-- After an early hit, a call that has not started can be the second one to return true. -/
theorem Early.exists_two (h : Early name s) (hidle : s.asking i = .Get) :
    ∃ t, (machine ι Double name).Leads Late s t ∧ ¬ AtMostOne t := by
  -- two winners first, and then their returns
  obtain ⟨u, hu, hstage, j, k, hne, hj, hk⟩ : ∃ u, (machine ι Double name).Leads Late s u ∧
      u.enabling.Stage (u.registry.point name) ∧
      ∃ j k, j ≠ k ∧ (u.asking j).Wins ∧ (u.asking k).Wins := by
    obtain ⟨t, ht, hdone, hasking⟩ := exists_done name s
    have hearly := h.of_leads ht
    rcases hearly.second hdone with hzero | htwo
    · obtain ⟨j, hj⟩ := hearly.first
      rw [← hasking] at hidle
      have hne : j ≠ i := by
        rintro rfl
        rw [hidle] at hj
        exact hj
      obtain ⟨u, hu, hi, hother⟩ := exists_counted hearly.stage hdone hzero hidle
      exact ⟨u, ht.trans hu, (hearly.of_leads hu).stage, j, i, hne, by rwa [hother j hne], hi⟩
    · exact ⟨t, ht, hearly.stage, htwo⟩
  obtain ⟨v, hv, hvj, hstage, hvother⟩ := exists_returned hstage hj
  rw [← hvother k hne.symm] at hk
  obtain ⟨w, hw, hwk, -, hwother⟩ := exists_returned hstage hk
  refine ⟨w, hu.trans (hv.trans hw), fun hone => hne (hone j k ?_ hwk)⟩
  rw [hwother j hne, hvj]

/-- A point that is enabled with `ONCE` fires once at most in every run in which no call counts a
hit before `Enable` has reset the count; and after any other run, as long as some call has not
started, two calls can still return true. -/
theorem fires_once [Fintype ι] (name : String) (hfew : Fintype.card ι < 2 ^ 64) :
    (∀ t, (machine ι Double name).ReachableVia Late t → AtMostOne t) ∧
    ∀ s t tr, (machine ι Double name).start s → (machine ι Double name).Trace s tr t →
      (¬ ∀ p ∈ tr, Late p.1 p.2) → (∃ i, t.asking i = .Get) →
      ∃ u, (machine ι Double name).Leads Late t u ∧ ¬ AtMostOne u := by
  constructor
  · rintro t ⟨s, tr, hs, htr, hlate⟩
    rcases once_or_early hfew hs htr with ⟨-, honce⟩ | ⟨hbad, -⟩
    · exact honce.atMostOne
    · exact absurd hlate hbad
  · rintro s t tr hs htr hbad ⟨i, hidle⟩
    rcases once_or_early hfew hs htr with ⟨hlate, -⟩ | ⟨-, hearly⟩
    · exact absurd hlate hbad
    · exact hearly.exists_two hidle

/-- `Enable` alone, and then two calls, `false` and `true`, in turns. -/
def lateRun : List (Label Bool ℕ) :=
  List.replicate 6 .enable ++
    [.ask false 0, .ask true 0, .ask false 0, .ask true 0, .ask true 0, .ask false 0,
      .ask false 0, .ask true 0]

/-- A call is about to count a hit before `Enable` has set the mode. -/
def earlyRun : List (Label Bool ℕ) := [.ask false 0, .enable, .enable, .ask false 0]

/-- The two calls fire once where they come late, and can fire twice where one comes early. -/
theorem fires_once_two :
    (∃ t, (machine Bool ℕ "read").run {} lateRun = some t ∧ t.asking false = .returned false ∧
      t.asking true = .returned true ∧ AtMostOne t) ∧
    ∃ t t', (machine Bool ℕ "read").run {} earlyRun = some t ∧
      (machine Bool ℕ "read").step t (.ask false 0) = some t' ∧
      ∃ u, (machine Bool ℕ "read").Leads Late t' u ∧ ¬ AtMostOne u := by
  have hfires := @fires_once ℕ _ _ _ Bool _ _ "read" (by decide)
  have hstart : (machine Bool ℕ "read").start {} := ⟨rfl, rfl, fun _ => rfl⟩
  constructor
  · have hrun : (((machine Bool ℕ "read").restrict Late).run {} lateRun).any (fun t =>
        t.asking false = .returned false ∧ t.asking true = .returned true) = true := by
      decide +kernel
    obtain ⟨t, ht, hlost, hwon⟩ := Machine.exists_of_run hrun
    exact ⟨t, (Machine.run_of_restrict ht).1, hlost, hwon, hfires.1 t (.of_run hstart ht)⟩
  · have hrun : ((machine Bool ℕ "read").run {} earlyRun).any (fun t =>
        ¬ Late t (.ask false 0) ∧ t.asking true = .Get ∧
        ((machine Bool ℕ "read").step t (.ask false 0)).isSome = true) = true := by
      decide +kernel
    obtain ⟨t, ht, hbad, hidle, hnext⟩ := Machine.exists_of_run hrun
    obtain ⟨t', hst⟩ := Option.isSome_iff_exists.mp hnext
    obtain ⟨tr, htr, -⟩ := Machine.Trace.of_run ht
    obtain ⟨-, -, hother⟩ := step_ask hst
    refine ⟨t, t', ht, hst, hfires.2 {} t' _ hstart (htr.snoc hst) ?_
      ⟨true, (hother true (by decide)).trans hidle⟩⟩
    intro hall
    exact hbad (hall (t, .ask false 0) (by simp))

/-- One call fires in mode `ALWAYS`, before `Enable` has set the mode, and the other one in mode
`ONCE`, after the count was reset. -/
theorem not_fires_once : ¬ ∀ t, (machine Bool ℕ "read").Reachable t → AtMostOne t := by
  intro h
  have hrun : ((machine Bool ℕ "read").run {}
      (earlyRun ++ [.ask false 0, .ask false 0] ++ List.replicate 4 .enable ++
        List.replicate 4 (.ask true 0))).any (fun t =>
      t.asking false = .returned true ∧ t.asking true = .returned true) = true := by decide +kernel
  obtain ⟨t, ht, hfirst, hsecond⟩ := Machine.exists_of_run hrun
  have heq := h t (.of_run ⟨rfl, rfl, fun _ => rfl⟩ ht) false true hfirst hsecond
  cases heq

end Race

end QStorage.Tools.FailPoint
