import Mathlib.Algebra.Order.Ring.Nat
import Mathlib.Tactic.Ring

/-!
# Pieces cut at every `n` units

A list of pieces is cut into chunks of `n` units each, the last of which may be shorter. A piece
that a cut falls into is divided. Pieces of no length go with the chunk before them.

## Main results

* `Pieces.cut_cut` — what a shorter cut leaves can be cut on.
* `Pieces.Chunked.unique` — there is one way to cut.
* `Pieces.Chunked.refine` — chunks that are cut again, at a divisor, are the chunks of the divisor.
-/

namespace QStorage.Lib

/-- Things that have a length and can be divided. -/
structure Pieces (π : Type*) where
  len : π → ℕ
  fragment : π → ℕ → ℕ → π
  len_fragment : ∀ v off n, off + n ≤ len v → len (fragment v off n) = n
  fragment_fragment : ∀ v off n off' n', fragment (fragment v off n) off' n' =
    fragment v (off + off') n'

namespace Pieces

variable {π : Type*} (P : Pieces π)

def total (vs : List π) : ℕ := (vs.map P.len).sum

/-- The first `n` units, and the rest. -/
def cut : ℕ → List π → List π × List π
  | _, [] => ([], [])
  | n, v :: vs =>
    if P.len v ≤ n then (v :: (cut (n - P.len v) vs).1, (cut (n - P.len v) vs).2)
    else (if 0 < n then [P.fragment v 0 n] else [], P.fragment v n (P.len v - n) :: vs)

variable {P} {n m k off : ℕ} {v : π} {vs a r : List π}

@[simp] theorem total_nil : P.total [] = 0 := rfl

@[simp] theorem total_cons : P.total (v :: vs) = P.len v + P.total vs := rfl

theorem total_append (vs ws : List π) : P.total (vs ++ ws) = P.total vs + P.total ws := by
  simp [total]

theorem cut_nil : P.cut n [] = ([], []) := by unfold cut; rfl

theorem cut_fits (h : P.len v ≤ n) :
    P.cut n (v :: vs) = (v :: (P.cut (n - P.len v) vs).1, (P.cut (n - P.len v) vs).2) := by
  rw [cut, if_pos h]

theorem cut_divides (h : n < P.len v) : P.cut n (v :: vs) =
    (if 0 < n then [P.fragment v 0 n] else [], P.fragment v n (P.len v - n) :: vs) := by
  rw [cut, if_neg (Nat.not_le.mpr h)]

/-- Pieces that all fit into the cut. -/
theorem cut_append (ws : List π) (h : P.total vs + m = n) :
    P.cut n (vs ++ ws) = (vs ++ (P.cut m ws).1, (P.cut m ws).2) := by
  induction vs generalizing n with
  | nil =>
    obtain rfl : m = n := by simpa using h
    rfl
  | cons v vs ih =>
    rw [total_cons] at h
    rw [List.cons_append, cut_fits (by omega), ih (show P.total vs + m = n - P.len v by omega)]
    rfl

/-- A cut that leaves something is full. -/
theorem total_cut (vs : List π) (n : ℕ) :
    ((P.cut n vs).2 ≠ [] → P.total (P.cut n vs).1 = n) ∧
      ((P.cut n vs).2 = [] → (P.cut n vs).1 = vs) := by
  induction vs generalizing n with
  | nil => simp [cut_nil]
  | cons v vs ih =>
    by_cases h : P.len v ≤ n
    · rw [cut_fits h]
      obtain ⟨hfull, hall⟩ := ih (n - P.len v)
      refine ⟨fun hne => ?_, fun heq => ?_⟩
      · have hrest := hfull hne
        simp only [total_cons, hrest]
        omega
      · simp only [hall heq]
    · rw [cut_divides (by omega)]
      refine ⟨fun _ => ?_, by simp⟩
      by_cases hpos : 0 < n
      · have hlen := P.len_fragment v 0 n (by omega)
        simp [hpos, hlen]
      · simp [show n = 0 by omega]

/-- Pieces of no length are not left over. -/
theorem cut_zero_rest (vs : List π) (n : ℕ) : P.cut 0 (P.cut n vs).2 = ([], (P.cut n vs).2) := by
  induction vs generalizing n with
  | nil => simp [cut_nil]
  | cons v vs ih =>
    by_cases h : P.len v ≤ n
    · rw [cut_fits h]
      exact ih _
    · have hlen := P.len_fragment v n (P.len v - n) (by omega)
      rw [cut_divides (by omega), cut_divides (by rw [hlen]; omega), hlen]
      simp [P.fragment_fragment]

/-- To cut off `m` units, cut off `n` of them first. The shorter cut of the front is that of the
whole. -/
theorem cut_cut (h : n ≤ m) (vs : List π) :
    P.cut n (P.cut m vs).1 = ((P.cut n vs).1, (P.cut (m - n) (P.cut n vs).2).1) ∧
      (P.cut m vs).2 = (P.cut (m - n) (P.cut n vs).2).2 := by
  induction vs generalizing n m with
  | nil => simp [cut_nil]
  | cons v vs ih =>
    by_cases hn : P.len v ≤ n
    · obtain ⟨hfront, hrest⟩ := ih (show n - P.len v ≤ m - P.len v by omega)
      have hsub : m - P.len v - (n - P.len v) = m - n := by omega
      rw [hsub] at hfront hrest
      rw [cut_fits hn, cut_fits (hn.trans h), cut_fits hn, hfront]
      exact ⟨rfl, hrest⟩
    · have hlen := P.len_fragment v n (P.len v - n) (by omega)
      rw [cut_divides (by omega : n < P.len v)]
      by_cases hm : P.len v ≤ m
      · have hsub : m - n - (P.len v - n) = m - P.len v := by omega
        rw [cut_fits hm, cut_divides (by omega), cut_fits (by rw [hlen]; omega), hlen, hsub]
        exact ⟨rfl, rfl⟩
      · -- the piece is longer than both cuts
        have hsub : P.len v - n - (m - n) = P.len v - m := by omega
        have hadd : n + (m - n) = m := by omega
        rw [cut_divides (by omega), cut_divides (by rw [hlen]; omega), hlen]
        simp only [P.fragment_fragment, Nat.add_zero, hsub, hadd, and_true]
        rcases Nat.eq_zero_or_pos m with rfl | hpos
        · obtain rfl : n = 0 := by omega
          simp [cut_nil]
        · have hfront := P.len_fragment v 0 m (by omega)
          rw [if_pos hpos]
          rcases Nat.lt_or_eq_of_le h with hlt | rfl
          · rw [cut_divides (by rw [hfront]; exact hlt), hfront]
            simp [P.fragment_fragment, hlt]
          · rw [cut_fits (by rw [hfront]), hfront]
            simp [cut_nil, hpos]

/-! ## Chunks -/

/-- The pieces `vs`, which start at `off`, in chunks of `n` units, each with its offset. -/
inductive Chunked (P : Pieces π) (n : ℕ) : ℕ → List π → List (ℕ × List π) → Prop
  | nil (off : ℕ) : Chunked P n off [] []
  | last (off : ℕ) {vs : List π} (hne : vs ≠ []) (hlast : (P.cut n vs).2 = []) :
      Chunked P n off vs [(off, vs)]
  | more {off : ℕ} {vs : List π} {cs : List (ℕ × List π)} (hmore : (P.cut n vs).2 ≠ [])
      (hrest : Chunked P n (off + n) (P.cut n vs).2 cs) :
      Chunked P n off vs ((off, (P.cut n vs).1) :: cs)

namespace Chunked

variable {cs cs' : List (ℕ × List π)}

theorem unique (h : P.Chunked n off vs cs) (h' : P.Chunked n off vs cs') : cs = cs' := by
  induction h generalizing cs' with
  | nil off =>
    cases h' with
    | nil => rfl
    | last _ hne => exact absurd rfl hne
    | more hmore => exact absurd (by rw [cut_nil]) hmore
  | last off hne hlast =>
    cases h' with
    | nil => exact absurd rfl hne
    | last => rfl
    | more hmore => exact absurd hlast hmore
  | more hmore hrest ih =>
    cases h' with
    | nil => exact absurd (by rw [cut_nil]) hmore
    | last _ _ hlast => exact absurd hlast hmore
    | more _ hrest' => rw [ih hrest']

theorem shift (h : P.Chunked n off vs cs) (o : ℕ) :
    P.Chunked n (o + off) vs (cs.map fun c => (o + c.1, c.2)) := by
  induction h with
  | nil off => exact .nil _
  | last off hne hlast => exact .last _ hne hlast
  | @more off vs cs hmore _ ih =>
    rw [← Nat.add_assoc] at ih
    exact .more hmore ih

/-- The chunks of a front of `k + 1` times `n` units, and the chunks of what is left. -/
theorem append (hn : 0 < n) (hcut : P.cut ((k + 1) * n) vs = (a, r)) (hr : r ≠ [])
    (ha : P.Chunked n off a cs) (hrest : P.Chunked n (off + (k + 1) * n) r cs') :
    P.Chunked n off vs (cs ++ cs') := by
  induction k generalizing off vs a cs with
  | zero =>
    rw [Nat.zero_add, Nat.one_mul] at hcut hrest
    have hnone := cut_zero_rest (P := P) vs n
    obtain ⟨hself, -⟩ := cut_cut (P := P) (Nat.le_refl n) vs
    obtain ⟨hfull, -⟩ := total_cut (P := P) vs n
    rw [Nat.sub_self, hnone] at hself
    rw [hcut] at hself hfull
    have hne : a ≠ [] := by
      rintro rfl
      exact hn.ne (hfull hr)
    obtain rfl := ha.unique (.last off hne (by rw [hself]))
    have hmore : (P.cut n vs).2 ≠ [] := by rwa [hcut]
    have hrest : P.Chunked n (off + n) (P.cut n vs).2 cs' := by rwa [hcut]
    have hall : P.Chunked n off vs ((off, (P.cut n vs).1) :: cs') := .more hmore hrest
    rwa [hcut] at hall
  | succ k ih =>
    have hsub : (k + 1 + 1) * n - n = (k + 1) * n := by
      rw [Nat.succ_mul (k + 1)]
      exact Nat.add_sub_cancel _ _
    have hle : n ≤ (k + 1 + 1) * n := Nat.le_mul_of_pos_left n (Nat.succ_pos _)
    obtain ⟨hfront, hback⟩ := cut_cut (P := P) hle vs
    obtain ⟨hfull, -⟩ := total_cut (P := P) (P.cut n vs).2 ((k + 1) * n)
    rw [hcut, hsub] at hfront hback
    have hback : r = (P.cut ((k + 1) * n) (P.cut n vs).2).2 := hback
    have hmore : (P.cut n vs).2 ≠ [] := by
      intro hnil
      rw [hnil, cut_nil] at hback
      exact hr hback
    have hne : (P.cut ((k + 1) * n) (P.cut n vs).2).1 ≠ [] := by
      intro hnil
      rw [hnil] at hfull
      have hzero := hfull (hback ▸ hr)
      have hpos : 0 < (k + 1) * n := Nat.mul_pos (Nat.succ_pos k) hn
      exact hpos.ne hzero
    cases ha with
    | nil =>
      rw [cut_nil] at hfront
      exact absurd (congrArg Prod.snd hfront).symm hne
    | last _ _ hlast =>
      rw [hfront] at hlast
      exact absurd hlast hne
    | @more _ _ cs hmore' hcs =>
      rw [hfront] at hcs ⊢
      have hoff : off + (k + 1 + 1) * n = off + n + (k + 1) * n := by ring
      rw [hoff] at hrest
      exact .more hmore (ih (Prod.ext rfl hback.symm) hcs hrest)

/-- Chunks of `m` units, each cut into chunks of `n` units, are the chunks of `n` units, if `n`
divides `m`. -/
theorem refine (hn : 0 < n) (hm : 0 < m) (hdvd : n ∣ m) (h : P.Chunked m off vs cs)
    {sub : ℕ × List π → List (ℕ × List π)} (hsub : ∀ c ∈ cs, P.Chunked n c.1 c.2 (sub c)) :
    P.Chunked n off vs (cs.flatMap sub) := by
  obtain ⟨k, rfl⟩ : ∃ k, m = (k + 1) * n := by
    obtain ⟨k, rfl⟩ := hdvd
    obtain ⟨k, rfl⟩ := Nat.exists_eq_add_one_of_ne_zero (Nat.pos_of_mul_pos_left hm).ne'
    exact ⟨k, Nat.mul_comm _ _⟩
  induction h with
  | nil off => exact .nil off
  | last off hne hlast => simpa using hsub _ (List.mem_singleton_self _)
  | more hmore _ ih =>
    rw [List.flatMap_cons]
    exact append hn rfl hmore (hsub _ List.mem_cons_self)
      (ih fun c hc => hsub c (List.mem_cons_of_mem _ hc))

end Chunked

end Pieces

end QStorage.Lib
