import Mathlib.Data.List.Nodup
import Mathlib.Logic.Function.Basic

/-!
# Linked segments

`Segment f p xs q` says that following the links `f` from the pointer `p` visits `xs` in order
and then stands at `q`, where `none` is the null pointer. `Doubly` is a list that is linked in
both directions.

## Main results

* `Segment.unique`, `Segment.nodup` — a walk that ends at null determines what it visits, and
  visits nothing twice.
* `Doubly.cons`, `Doubly.unlink` — the two ways to change a doubly linked list in place; the
  same at its other end follows by `Doubly.symm`.
-/

namespace QStorage.Lib

variable {α : Type*}

/-- Following `f` from `p` visits `xs` and then stands at `q`. -/
def Segment (f : α → Option α) : Option α → List α → Option α → Prop
  | p, [], q => p = q
  | p, x :: xs, q => p = some x ∧ Segment f (f x) xs q

/-- The elements visited from `p` on, or `none` if the walk has not ended after `fuel` steps. -/
def walk (f : α → Option α) : ℕ → Option α → Option (List α)
  | _, none => some []
  | 0, some _ => none
  | fuel + 1, some x => (walk f fuel (f x)).map (x :: ·)

/-- Store the link `v` in the element behind the pointer, if it is not null. -/
def relink [DecidableEq α] (f : α → Option α) (p : Option α) (v : Option α) : α → Option α :=
  match p with
  | some a => Function.update f a v
  | none => f

@[simp] theorem relink_none [DecidableEq α] (f : α → Option α) (v : Option α) :
    relink f none v = f := rfl

@[simp] theorem relink_some [DecidableEq α] (f : α → Option α) (a : α) (v : Option α) :
    relink f (some a) v = Function.update f a v := rfl

namespace Segment

variable {f g : α → Option α} {p q r : Option α} {x e : α} {xs ys l : List α}

@[simp] theorem nil_iff : Segment f p [] q ↔ p = q := Iff.rfl

@[simp] theorem cons_iff : Segment f p (x :: xs) q ↔ p = some x ∧ Segment f (f x) xs q := Iff.rfl

theorem append_iff : Segment f p (xs ++ ys) q ↔ ∃ r, Segment f p xs r ∧ Segment f r ys q := by
  induction xs generalizing p with
  | nil => simp
  | cons x xs ih => simp [ih, and_assoc]

/-- Only the links of the visited elements count. -/
theorem congr (hfg : ∀ a ∈ xs, f a = g a) (h : Segment f p xs q) : Segment g p xs q := by
  induction xs generalizing p with
  | nil => exact h
  | cons x xs ih =>
    obtain ⟨hp, hrest⟩ := h
    refine ⟨hp, ih (fun a ha => hfg a (List.mem_cons_of_mem x ha)) ?_⟩
    rwa [← hfg x List.mem_cons_self]

theorem start_eq (h : Segment f p xs none) : p = xs.head? := by
  cases xs with
  | nil => exact h
  | cons x xs => exact h.1

/-- A walk to null is determined by where it starts. -/
theorem unique (hx : Segment f p xs none) (hy : Segment f p ys none) : xs = ys := by
  induction xs generalizing p ys with
  | nil =>
    cases hx
    cases ys with
    | nil => rfl
    | cons y ys => cases hy.1
  | cons x xs ih =>
    obtain ⟨rfl, hx⟩ := hx
    cases ys with
    | nil => cases hy
    | cons y ys =>
      obtain ⟨heq, hy⟩ := hy
      cases heq
      rw [ih hx hy]

/-- A walk to null does not come back: the rest of it would be as long as the whole. -/
theorem nodup (h : Segment f p xs none) : xs.Nodup := by
  induction xs generalizing p with
  | nil => exact List.nodup_nil
  | cons x xs ih =>
    obtain ⟨hp, hrest⟩ := h
    refine List.nodup_cons.mpr ⟨?_, ih hrest⟩
    intro hx
    obtain ⟨l, r, rfl⟩ := List.append_of_mem hx
    obtain ⟨s, hl, hs⟩ := append_iff.mp hrest
    have heq : r = l ++ x :: r := unique hs.2 hrest
    have hlen := congrArg List.length heq
    simp only [List.length_append, List.length_cons] at hlen
    omega

theorem walk_eq (h : Segment f p xs none) {fuel : ℕ} (hfuel : xs.length ≤ fuel) :
    walk f fuel p = some xs := by
  induction xs generalizing p fuel with
  | nil =>
    cases h
    cases fuel <;> rfl
  | cons x xs ih =>
    obtain ⟨rfl, hrest⟩ := h
    cases fuel with
    | zero => simp at hfuel
    | succ fuel => simp [walk, ih hrest (Nat.le_of_succ_le_succ hfuel)]

variable [DecidableEq α]

/-- The last link of a segment can be stored anew. -/
theorem update_last {v : Option α} (hl : e ∉ l) (h : Segment f p (l ++ [e]) q) :
    Segment (Function.update f e v) p (l ++ [e]) v := by
  obtain ⟨r, hpre, hlast⟩ := append_iff.mp h
  refine append_iff.mpr ⟨r, hpre.congr ?_, hlast.1, by simp⟩
  intro a ha
  exact (Function.update_of_ne (ne_of_mem_of_not_mem ha hl) _ _).symm

/-- Behind the elements `l` of a segment another link `v` can be stored. -/
theorem relink_last {v : Option α} (hl : l.Nodup) (h : Segment f p l q) :
    Segment (relink f l.getLast? v) (if l = [] then v else p) l v := by
  obtain rfl | ⟨l, e, rfl⟩ := List.eq_nil_or_concat' l
  · rfl
  · have he : e ∉ l := fun hmem => (List.nodup_append.mp hl).2.2 e hmem e (by simp) rfl
    rw [List.getLast?_concat, if_neg (by simp)]
    exact h.update_last he

theorem relink_apply_of_ne {p v : Option α} {a : α} (h : p ≠ some a) : relink f p v a = f a := by
  cases p with
  | none => rfl
  | some b => exact Function.update_of_ne (fun hab => h (by rw [hab])) _ _

/-- To take `e` out, the link that led to it is replaced by its own. -/
theorem unlink {r : List α} (hnodup : (l ++ e :: r).Nodup) (h : Segment f p (l ++ e :: r) q) :
    Segment (relink f l.getLast? (f e)) (if l = [] then f e else p) (l ++ r) q := by
  obtain ⟨_, hl, rfl, hr⟩ := append_iff.mp h
  obtain ⟨hnodupl, -, hdisjoint⟩ := List.nodup_append.mp hnodup
  refine append_iff.mpr ⟨f e, hl.relink_last hnodupl, hr.congr ?_⟩
  intro a ha
  have hne : l.getLast? ≠ some a := by
    intro hlast
    exact hdisjoint a (List.mem_of_getLast? hlast) a (List.mem_cons_of_mem e ha) rfl
  exact (relink_apply_of_ne hne).symm

/-- To put `x` behind `e`, it takes over the link of `e`, which then leads to `x`. -/
theorem link_after {r : List α} (hnodup : (l ++ e :: r).Nodup) (hx : x ∉ l ++ e :: r)
    (h : Segment f p (l ++ e :: r) q) :
    Segment (Function.update (Function.update f x (f e)) e (some x)) p (l ++ e :: x :: r) q := by
  obtain ⟨_, hl, rfl, hr⟩ := append_iff.mp h
  obtain ⟨hnotin, -⟩ := List.nodup_cons.mp (List.nodup_middle.mp hnodup)
  have hother : ∀ a ∈ l ++ r,
      f a = Function.update (Function.update f x (f e)) e (some x) a := by
    intro a ha
    have hae : a ≠ e := ne_of_mem_of_not_mem ha hnotin
    have hax : a ≠ x := by
      rintro rfl
      simp only [List.mem_append, List.mem_cons] at ha hx
      tauto
    rw [Function.update_of_ne hae, Function.update_of_ne hax]
  have hxe : x ≠ e := fun hxe => hx (by simp [hxe])
  refine append_iff.mpr ⟨some e, hl.congr fun a ha => hother a (List.mem_append_left r ha), rfl, ?_⟩
  rw [Function.update_self]
  refine ⟨rfl, ?_⟩
  rw [Function.update_of_ne hxe, Function.update_self]
  exact hr.congr fun a ha => hother a (List.mem_append_right l ha)

end Segment

/-- A list linked in both directions, from `first` by `next` and from `last` by `prev`. -/
structure Doubly (next prev : α → Option α) (first last : Option α) (xs : List α) : Prop where
  forward : Segment next first xs none
  backward : Segment prev last xs.reverse none

namespace Doubly

variable {next prev next' prev' : α → Option α} {first last : Option α} {e : α} {xs l r : List α}

theorem nil : Doubly next prev none none [] := ⟨rfl, rfl⟩

theorem symm (h : Doubly next prev first last xs) : Doubly prev next last first xs.reverse :=
  ⟨h.backward, by rw [List.reverse_reverse]; exact h.forward⟩

theorem nodup (h : Doubly next prev first last xs) : xs.Nodup := h.forward.nodup

theorem first_eq (h : Doubly next prev first last xs) : first = xs.head? := h.forward.start_eq

theorem last_eq (h : Doubly next prev first last xs) : last = xs.getLast? := by
  rw [h.backward.start_eq, List.head?_reverse]

theorem first_ne (h : Doubly next prev first last xs) (he : e ∉ xs) : first ≠ some e := by
  rw [h.first_eq]
  exact fun hhead => he (List.mem_of_head? hhead)

theorem last_ne (h : Doubly next prev first last xs) (he : e ∉ xs) : last ≠ some e :=
  h.symm.first_ne (mt List.mem_reverse.mp he)

/-- Links of other elements do not matter. -/
theorem congr (hnext : ∀ a ∈ xs, next a = next' a) (hprev : ∀ a ∈ xs, prev a = prev' a)
    (h : Doubly next prev first last xs) : Doubly next' prev' first last xs :=
  ⟨h.forward.congr hnext, h.backward.congr fun a ha => hprev a (List.mem_reverse.mp ha)⟩

theorem reverse_split : (l ++ e :: r).reverse = r.reverse ++ e :: l.reverse := by simp

/-- Before an element of the list stands the one visited before it. -/
theorem prev_eq (h : Doubly next prev first last (l ++ e :: r)) : prev e = l.getLast? := by
  have hback := h.backward
  rw [reverse_split] at hback
  obtain ⟨_, -, -, hrest⟩ := Segment.append_iff.mp hback
  rw [hrest.start_eq, List.head?_reverse]

theorem next_eq (h : Doubly next prev first last (l ++ e :: r)) : next e = r.head? := by
  obtain ⟨_, -, -, hrest⟩ := Segment.append_iff.mp h.forward
  exact hrest.start_eq

variable [DecidableEq α]

/-- Link a new element in at the front. -/
theorem cons (he : e ∉ xs) (h : Doubly next prev first last xs) :
    Doubly (Function.update next e first) (relink (Function.update prev e none) first (some e))
      (some e) (if last = none then some e else last) (e :: xs) := by
  have hne {f : α → Option α} {v : Option α} : ∀ a ∈ xs, f a = Function.update f e v a :=
    fun a ha => (Function.update_of_ne (ne_of_mem_of_not_mem ha he) _ _).symm
  constructor
  · refine ⟨rfl, ?_⟩
    rw [Function.update_self]
    exact h.forward.congr hne
  · have hback : Segment (Function.update prev e none) last xs.reverse none :=
      h.backward.congr fun a ha => hne a (List.mem_reverse.mp ha)
    have hlink := hback.relink_last (v := some e) (List.nodup_reverse.mpr h.nodup)
    rw [List.getLast?_reverse, ← h.first_eq] at hlink
    have hlast : xs.reverse = [] ↔ last = none := by rw [h.last_eq]; simp
    simp only [hlast] at hlink
    rw [List.reverse_cons]
    refine Segment.append_iff.mpr ⟨some e, hlink, rfl, ?_⟩
    rw [Segment.nil_iff, Segment.relink_apply_of_ne (h.first_ne he), Function.update_self]

/-- Unlink an element, whatever its place in the list. -/
theorem unlink (h : Doubly next prev first last (l ++ e :: r)) :
    Doubly (relink next (prev e) (next e)) (relink prev (next e) (prev e))
      (if prev e = none then next e else first) (if next e = none then prev e else last)
      (l ++ r) := by
  constructor
  · have hforward := h.forward.unlink h.nodup
    rw [← h.prev_eq] at hforward
    have hl : l = [] ↔ prev e = none := by rw [h.prev_eq]; simp
    simpa only [hl] using hforward
  · have hnodup := List.nodup_reverse.mpr h.nodup
    have hback := h.backward
    rw [reverse_split] at hback hnodup
    have hunlink := hback.unlink hnodup
    rw [List.getLast?_reverse, ← h.next_eq] at hunlink
    have hr : r.reverse = [] ↔ next e = none := by rw [h.next_eq]; simp
    rw [List.reverse_append]
    simpa only [hr] using hunlink

end Doubly

end QStorage.Lib
