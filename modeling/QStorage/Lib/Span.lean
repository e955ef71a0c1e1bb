import Mathlib.Order.Interval.Finset.Nat
import Mathlib.Algebra.BigOperators.Group.List.Basic
import Mathlib.Tactic.Ring

/-!
# Spans and windows of a stream

A stream is numbered by unbounded positions. `Span` is a stretch of positions,
`Tiles a xs b` says that the spans `xs` cut `[a, b)` into consecutive pieces, and
`Window K` is a stretch short enough to be kept in `K` cells, position `p` in
cell `p % K`.
-/

namespace QStorage.Lib

/-- The positions `start, …, start + len - 1`. -/
structure Span where
  start : Nat
  len : Nat
  deriving DecidableEq, Repr

namespace Span

def stop (s : Span) : Nat := s.start + s.len

@[simp] theorem stop_mk (a n : Nat) : (Span.mk a n).stop = a + n := rfl

end Span

/-- The spans `xs` follow each other without gap from `a` to `b`. -/
def Tiles : Nat → List Span → Nat → Prop
  | a, [], b => a = b
  | a, s :: xs, b => s.start = a ∧ Tiles s.stop xs b

@[simp] theorem tiles_nil {a b : Nat} : Tiles a [] b ↔ a = b := Iff.rfl

@[simp] theorem tiles_cons {a b : Nat} {s : Span} {xs : List Span} :
    Tiles a (s :: xs) b ↔ s.start = a ∧ Tiles s.stop xs b := Iff.rfl

theorem tiles_append {a c : Nat} {xs ys : List Span} :
    Tiles a (xs ++ ys) c ↔ ∃ b, Tiles a xs b ∧ Tiles b ys c := by
  induction xs generalizing a with
  | nil => simp
  | cons s xs ih => simp [ih, and_assoc]

/-- A tiling grows by the span that starts where it ends. -/
theorem Tiles.snoc {a b : Nat} {xs : List Span} (h : Tiles a xs b) (n : Nat) :
    Tiles a (xs ++ [⟨b, n⟩]) (b + n) :=
  tiles_append.mpr ⟨b, h, rfl, rfl⟩

theorem Tiles.sum {a b : Nat} {xs : List Span} (h : Tiles a xs b) :
    a + (xs.map Span.len).sum = b := by
  induction xs generalizing a with
  | nil => simpa using h
  | cons s xs ih =>
    obtain ⟨rfl, htail⟩ := h
    have := ih htail
    simp only [List.map_cons, List.sum_cons, Span.stop] at this ⊢
    omega

theorem Tiles.le {a b : Nat} {xs : List Span} (h : Tiles a xs b) : a ≤ b := by
  have := h.sum
  omega

theorem Tiles.mem_bounds {a b : Nat} {xs : List Span} (h : Tiles a xs b) {s : Span}
    (hs : s ∈ xs) : a ≤ s.start ∧ s.stop ≤ b := by
  obtain ⟨ys, zs, rfl⟩ := List.append_of_mem hs
  obtain ⟨c, hys, rfl, hzs⟩ := tiles_append.mp h
  exact ⟨hys.le, hzs.le⟩

/-- A tiling of `[a, b)` covers it and nothing else. -/
theorem Tiles.mem_iff {a b p : Nat} {xs : List Span} (h : Tiles a xs b) :
    (∃ s ∈ xs, s.start ≤ p ∧ p < s.stop) ↔ a ≤ p ∧ p < b := by
  induction xs generalizing a with
  | nil =>
    obtain rfl := h
    simp only [List.not_mem_nil, false_and, exists_false, false_iff]
    omega
  | cons s xs ih =>
    obtain ⟨rfl, htail⟩ := h
    have hle := htail.le
    have hstop : s.start ≤ s.stop := Nat.le_add_right _ _
    simp only [List.mem_cons, exists_eq_or_imp, ih htail]
    omega

/-- Later spans of a tiling start at or after the end of earlier ones. -/
theorem Tiles.pairwise {a b : Nat} {xs : List Span} (h : Tiles a xs b) :
    xs.Pairwise (fun s t => s.stop ≤ t.start) := by
  induction xs generalizing a with
  | nil => exact .nil
  | cons s xs ih =>
    obtain ⟨rfl, htail⟩ := h
    exact .cons (fun t ht => (htail.mem_bounds ht).1) (ih htail)

/-- Each span of a tiling starts where the one before it ends. -/
theorem Tiles.isChain {a b : Nat} {xs : List Span} (h : Tiles a xs b) :
    xs.IsChain (fun s t => s.stop = t.start) := by
  induction xs generalizing a with
  | nil => exact .nil
  | cons s xs ih =>
    obtain ⟨rfl, htail⟩ := h
    cases xs with
    | nil => exact .singleton s
    | cons t xs => exact .cons_cons htail.1.symm (ih htail)

/-- A window `[tail, head)` of a stream that fits into `K` cells. -/
structure Window (K : Nat) where
  tail : Nat
  head : Nat
  tail_le : tail ≤ head
  fits : head ≤ tail + K

namespace Window

variable {K : Nat} (w : Window K)

/-- Positions in use never share a cell. -/
theorem cell_injOn : Set.InjOn (· % K) (Set.Ico w.tail w.head) := by
  have hsub : Set.Ico w.tail w.head ⊆ ↑(Finset.Ico w.tail (w.tail + K)) := by
    intro p hp
    have := w.fits
    simp only [Set.mem_Ico, Finset.coe_Ico] at hp ⊢
    omega
  exact (Nat.mod_injOn_Ico w.tail K).mono hsub

end Window

end QStorage.Lib
