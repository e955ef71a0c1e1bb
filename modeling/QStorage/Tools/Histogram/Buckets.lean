import QStorage.Tools.Histogram

/-!
# The bucket of a datum

`Insert` halves the window `[lo, hi]` and leaves out the middle on either side: a datum above the
bound in the middle goes to the right of it, although it may belong to the bucket which that bound
begins. So the result depends on whether the last bound below the datum is ever in the middle of a
window, which only depends on its index.

## Main results

* `Histogram.searchLoop_eq` — where the loop ends.
* `Histogram.placed_iff` — when the counter of a bucket that contains the datum is incremented.
-/

namespace QStorage.Tools

namespace Histogram

/-- `j` is in the middle of some window of more than one index that the halving of `[lo, hi]`
comes to. -/
inductive Midpoint : ℤ → ℤ → ℤ → Prop
  | middle {lo hi : ℤ} : lo < hi → Midpoint lo hi (lo + (hi - lo) / 2)
  | left {lo hi j : ℤ} : lo < hi → Midpoint lo (lo + (hi - lo) / 2 - 1) j → Midpoint lo hi j
  | right {lo hi j : ℤ} : lo < hi → Midpoint (lo + (hi - lo) / 2 + 1) hi j → Midpoint lo hi j

theorem Midpoint.mem_window {lo hi j : ℤ} (h : Midpoint lo hi j) : lo ≤ j ∧ j < hi := by
  induction h with
  | middle hlt => omega
  | left hlt _ ih => omega
  | right hlt _ ih => omega

/-- To the left of the middle, only the left half matters. -/
theorem midpoint_left {lo hi j : ℤ} (hlt : lo < hi) (hj : j < lo + (hi - lo) / 2) :
    Midpoint lo hi j ↔ Midpoint lo (lo + (hi - lo) / 2 - 1) j := by
  constructor
  · intro h
    cases h with
    | middle => omega
    | left _ h => exact h
    | right _ h =>
      have hmem := h.mem_window
      omega
  · exact .left hlt

theorem midpoint_right {lo hi j : ℤ} (hlt : lo < hi) (hj : lo + (hi - lo) / 2 < j) :
    Midpoint lo hi j ↔ Midpoint (lo + (hi - lo) / 2 + 1) hi j := by
  constructor
  · intro h
    cases h with
    | middle => omega
    | left _ h =>
      have hmem := h.mem_window
      omega
    | right _ h => exact h
  · exact .right hlt

/-- Where the loop ends if exactly the bounds with an index less than `k` are below the datum: at
`k` if it compared with the last of them and took it out of the window, else at that one. -/
theorem searchLoop_eq {data_ : ℤ → BitVec 32} {d : BitVec 32} {n k lo hi : ℤ} {fuel : ℕ}
    (hbelow : ∀ i, 0 ≤ i → i < n → (data_ i < d ↔ i < k)) (hlo : 0 ≤ lo) (hhi : hi < n)
    (hle : lo ≤ k) (hlt : k ≤ hi + 1) (hfuel : (hi - lo).toNat < fuel) :
    (lo = k ∨ Midpoint lo hi (k - 1) →
      (searchLoop data_ d fuel lo hi).map Prod.fst = some k) ∧
    (lo < k ∧ ¬ Midpoint lo hi (k - 1) →
      (searchLoop data_ d fuel lo hi).map Prod.fst = some (k - 1)) := by
  induction fuel generalizing lo hi with
  | zero => omega
  | succ fuel ih =>
    rw [searchLoop]
    by_cases hwindow : lo < hi
    · rw [if_pos hwindow]
      simp only [hbelow (lo + (hi - lo) / 2) (by omega) (by omega), Option.map_map]
      by_cases hmid : lo + (hi - lo) / 2 < k
      · rw [if_pos hmid]
        obtain ⟨hout, hin⟩ := ih (show 0 ≤ lo + (hi - lo) / 2 + 1 by omega) hhi
          (by omega) hlt (by omega)
        by_cases hlast : lo + (hi - lo) / 2 + 1 = k
        · have hmiddle : Midpoint lo hi (k - 1) := by
            rw [← hlast, add_sub_cancel_right]
            exact .middle hwindow
          exact ⟨fun _ => hout (.inl hlast), fun h => absurd hmiddle h.2⟩
        · rw [midpoint_right hwindow (by omega)]
          refine ⟨fun h => hout (h.imp_left (by omega)), fun h => hin ⟨by omega, h.2⟩⟩
      · rw [if_neg hmid, midpoint_left hwindow (by omega)]
        exact ih hlo (by omega) hle (by omega) (by omega)
    · rw [if_neg hwindow]
      have hnot : ¬ Midpoint lo hi (k - 1) := by
        intro h
        have hmem := h.mem_window
        omega
      constructor
      · rintro (rfl | h)
        · rfl
        · exact absurd h hnot
      · intro h
        rw [show lo = k - 1 by omega, Option.map_some]

/-! ## The bounds -/

/-- The histogram was made for `bounds`. -/
structure HasBounds (h : Histogram) (bounds : List (BitVec 32)) : Prop where
  num : h.num_buckets_ = BitVec.ofNat 32 bounds.length
  bound : ∀ (i : ℕ) (hi : i < bounds.length), h.data_ i = bounds[i]

theorem construct_hasBounds (mem : ℤ → BitVec 32) (bounds : List (BitVec 32)) :
    (construct mem bounds).HasBounds bounds where
  num := rfl
  bound i hi := by
    have hrange : (0 : ℤ) ≤ i ∧ (i : ℤ) < bounds.length := by omega
    simp [construct, hrange, hi]

variable {h : Histogram} {bounds : List (BitVec 32)} {d : BitVec 32}

theorem HasBounds.n_eq (hb : h.HasBounds bounds) (hn : bounds.length < 2 ^ 31) :
    h.n = bounds.length :=
  n_eq_length hb.num hn

/-- The number of bounds below `d`, if they increase. -/
def below (bounds : List (BitVec 32)) (d : BitVec 32) : ℕ := bounds.findIdx fun b => d ≤ b

theorem below_le (bounds : List (BitVec 32)) (d : BitVec 32) : below bounds d ≤ bounds.length :=
  List.findIdx_le_length

theorem getElem_lt_of_lt_below {i : ℕ} (hi : i < bounds.length) (hlt : i < below bounds d) :
    bounds[i].toNat < d.toNat := by
  have hnot := List.not_of_lt_findIdx hlt
  rw [decide_eq_false_iff_not, BitVec.le_def] at hnot
  omega

theorem le_getElem_below (hlt : below bounds d < bounds.length) :
    d.toNat ≤ bounds[below bounds d].toNat := by
  have hle := List.findIdx_getElem (w := hlt)
  rwa [decide_eq_true_eq, BitVec.le_def] at hle

theorem getElem_le_getElem (hsorted : bounds.Pairwise (· < ·)) {i j : ℕ} (hij : i ≤ j)
    (hj : j < bounds.length) : bounds[i].toNat ≤ bounds[j].toNat := by
  rcases Nat.lt_or_eq_of_le hij with hlt | rfl
  · exact (BitVec.lt_def.mp (List.pairwise_iff_getElem.mp hsorted i j _ hj hlt)).le
  · exact le_rfl

/-- The bounds below `d` are the first ones. -/
theorem getElem_lt_iff (hsorted : bounds.Pairwise (· < ·)) {i : ℕ} (hi : i < bounds.length) :
    bounds[i] < d ↔ i < below bounds d := by
  rw [BitVec.lt_def]
  constructor
  · intro hlt
    by_contra hge
    have hk := le_getElem_below (show below bounds d < bounds.length by omega)
    have hle := getElem_le_getElem hsorted (Nat.le_of_not_lt hge) hi
    omega
  · exact getElem_lt_of_lt_below hi

/-- The range that `Print` shows for bucket `i` contains `d`. -/
def InBucket (bounds : List (BitVec 32)) (d : BitVec 32) (i : ℕ) : Prop :=
  (i = 0 ∨ bounds.getD i 0 ≤ d) ∧ (i + 1 = bounds.length ∨ d ≤ bounds.getD (i + 1) 0)

theorem getD_toNat {i : ℕ} (hi : i < bounds.length) :
    (bounds.getD i 0).toNat = bounds[i].toNat := by
  simp [hi]

/-- The bucket that the last bound below `d` begins. -/
theorem inBucket_pred (hpos : 0 < below bounds d) : InBucket bounds d (below bounds d - 1) := by
  have hle := below_le bounds d
  constructor
  · have hlt := getElem_lt_of_lt_below (show below bounds d - 1 < bounds.length by omega)
      (show _ < below bounds d by omega)
    rw [BitVec.le_def, getD_toNat (by omega)]
    exact .inr hlt.le
  · rw [Nat.sub_add_cancel hpos]
    rcases Nat.lt_or_eq_of_le hle with hlt | heq
    · rw [BitVec.le_def, getD_toNat hlt]
      exact .inr (le_getElem_below hlt)
    · exact .inl heq

/-- The first bucket also counts what is below its bound. -/
theorem inBucket_zero (hsorted : bounds.Pairwise (· < ·)) (hne : bounds ≠ [])
    (hzero : below bounds d = 0) : InBucket bounds d 0 := by
  have hlen := List.length_pos_iff.mpr hne
  refine ⟨.inl rfl, ?_⟩
  rcases Nat.lt_or_ge 1 bounds.length with hlt | hge
  · have hnot := mt (getElem_lt_iff hsorted hlt (d := d)).mp (by omega)
    rw [BitVec.lt_def] at hnot
    rw [BitVec.le_def, getD_toNat hlt]
    exact .inr (by omega)
  · exact .inl (by omega)

/-- The bucket behind it contains `d` only if its bound is `d`. -/
theorem inBucket_below_iff (hsorted : bounds.Pairwise (· < ·)) (hpos : 0 < below bounds d)
    (hlt : below bounds d < bounds.length) : InBucket bounds d (below bounds d) ↔ d ∈ bounds := by
  have hk := le_getElem_below hlt
  constructor
  · rintro ⟨hzero | hle, -⟩
    · omega
    · rw [BitVec.le_def, getD_toNat hlt] at hle
      have heq : bounds[below bounds d] = d := BitVec.eq_of_toNat_eq (by omega)
      exact List.mem_of_getElem heq
  · intro hmem
    obtain ⟨i, hi, heq⟩ := List.mem_iff_getElem.mp hmem
    have hge : below bounds d ≤ i := by
      by_contra hless
      have hbelow := getElem_lt_of_lt_below hi (Nat.lt_of_not_le hless)
      rw [heq] at hbelow
      omega
    have hle := getElem_le_getElem hsorted hge hi
    rw [heq] at hle
    constructor
    · rw [BitVec.le_def, getD_toNat hlt]
      exact .inr hle
    · rcases Nat.lt_or_ge (below bounds d + 1) bounds.length with hnext | hlast
      · rw [BitVec.le_def, getD_toNat hnext]
        exact .inr (hk.trans (getElem_le_getElem hsorted (Nat.le_succ _) hnext))
      · exact .inl (by omega)

/-! ## `Insert` -/

/-- `Insert` increments the counter of a bucket that contains `d`, and no other word. -/
def Placed (h : Histogram) (bounds : List (BitVec 32)) (d : BitVec 32) : Prop :=
  ∃ h', h.Insert d = some h' ∧ ∃ i < bounds.length, InBucket bounds d i ∧
    h'.data_ = Function.update h.data_ (bounds.length + i) (h.data_ (bounds.length + i) + 1)

theorem int32_eq_some {v w : ℤ} : int32 v = some w ↔ (-2 ^ 31 ≤ v ∧ v < 2 ^ 31) ∧ v = w := by
  rw [int32, Option.ite_none_right_eq_some, Option.some.injEq]

/-- What `Insert` does to the words. -/
theorem Insert_data {h' : Histogram} (hinsert : h.Insert d = some h') :
    ∃ r, h.search d = some r ∧ r + h.n < 2 ^ 31 ∧
      h'.data_ = Function.update h.data_ (r + h.n) (h.data_ (r + h.n) + 1) := by
  simp only [Insert, Option.bind_eq_bind, Option.bind_eq_some_iff, Option.some.injEq,
    int32_eq_some] at hinsert
  obtain ⟨r, hr, i, ⟨hrange, rfl⟩, rfl⟩ := hinsert
  exact ⟨r, hr, hrange.2, rfl⟩

/-- An increment tells its index. -/
theorem update_succ_inj {data_ : ℤ → BitVec 32} {i j : ℤ}
    (heq : Function.update data_ i (data_ i + 1) = Function.update data_ j (data_ j + 1)) :
    i = j := by
  by_contra hne
  have hi := congrFun heq i
  rw [Function.update_self, Function.update_of_ne hne] at hi
  have hone : data_ i + 1 ≠ data_ i := by
    intro hsame
    have hnat := congrArg BitVec.toNat hsame
    rw [BitVec.toNat_add, show (1 : BitVec 32).toNat = 1 from rfl] at hnat
    omega
  exact hone hi

theorem lt_of_placed (hplaced : h.Placed bounds d) : bounds.length < 2 ^ 31 := by
  obtain ⟨h', hinsert, i, -, -, hdata⟩ := hplaced
  obtain ⟨r, -, hrange, hdata'⟩ := Insert_data hinsert
  have hindex := update_succ_inj (hdata'.symm.trans hdata)
  omega

theorem placed_iff_search (hb : h.HasBounds bounds) (hn : bounds.length < 2 ^ 31) {r : ℕ}
    (hr : h.search d = some (r : ℤ)) (hlt : r < bounds.length) :
    h.Placed bounds d ↔ bounds.length + r < 2 ^ 31 ∧ InBucket bounds d r := by
  have hlen := hb.n_eq hn
  constructor
  · rintro ⟨h', hinsert, i, -, hbucket, hdata⟩
    obtain ⟨r', hr', hrange, hdata'⟩ := Insert_data hinsert
    obtain rfl := Option.some.inj (hr.symm.trans hr')
    have hindex := update_succ_inj (hdata'.symm.trans hdata)
    obtain rfl : i = r := by omega
    exact ⟨by omega, hbucket⟩
  · rintro ⟨hrange, hbucket⟩
    have hindex : int32 (r + h.n) = some (r + h.n) := int32_eq_some.mpr ⟨by omega, rfl⟩
    refine ⟨_, by rw [Insert, hr, Option.bind_eq_bind, Option.bind_some, hindex]; rfl,
      r, hlt, hbucket, ?_⟩
    rw [hlen, add_comm (r : ℤ)]

/-- Where `Insert` comes to on increasing bounds. -/
theorem search_below (hb : h.HasBounds bounds) (hsorted : bounds.Pairwise (· < ·))
    (hn : bounds.length < 2 ^ 31) (d : BitVec 32) :
    (below bounds d = 0 ∨ Midpoint 0 (bounds.length - 1) (below bounds d - 1) →
      h.search d = some (below bounds d : ℤ)) ∧
    (0 < below bounds d ∧ ¬ Midpoint 0 (bounds.length - 1) (below bounds d - 1) →
      h.search d = some ((below bounds d - 1 : ℕ) : ℤ)) := by
  have hk := below_le bounds d
  have hbelow : ∀ i, 0 ≤ i → i < (bounds.length : ℤ) →
      (h.data_ i < d ↔ i < (below bounds d : ℤ)) := by
    intro i hpos hlt
    obtain ⟨i, rfl⟩ := Int.eq_ofNat_of_zero_le hpos
    rw [Int.ofNat_lt] at hlt
    rw [hb.bound i hlt, getElem_lt_iff hsorted hlt, Int.ofNat_lt]
  rw [search, searched, hb.n_eq hn]
  obtain ⟨hout, hin⟩ := searchLoop_eq hbelow le_rfl
    (show (bounds.length : ℤ) - 1 < bounds.length by omega) (by omega) (by omega)
    (show _ < (bounds.length : ℤ).toNat + 1 by omega)
  constructor
  · intro h
    exact hout (h.imp_left (by omega))
  · rintro ⟨hpos, hmid⟩
    rw [hin ⟨by omega, hmid⟩, Nat.cast_pred hpos]

/-- No bound is below `d`; or the last one below it is never in the middle of a window; or it is,
and `d` is the bound behind it. The index of the counter has to fit an `int`. -/
def Clear (bounds : List (BitVec 32)) (d : BitVec 32) : Prop :=
  below bounds d = 0 ∧ bounds.length < 2 ^ 31 ∨
  0 < below bounds d ∧ ¬ Midpoint 0 (bounds.length - 1) (below bounds d - 1) ∧
    bounds.length + (below bounds d - 1) < 2 ^ 31 ∨
  Midpoint 0 (bounds.length - 1) (below bounds d - 1) ∧ d ∈ bounds ∧
    bounds.length + below bounds d < 2 ^ 31

theorem placed_iff (hb : h.HasBounds bounds) (hsorted : bounds.Pairwise (· < ·))
    (hne : bounds ≠ []) (d : BitVec 32) : h.Placed bounds d ↔ Clear bounds d := by
  have hlen := List.length_pos_iff.mpr hne
  have hk := below_le bounds d
  by_cases hn : bounds.length < 2 ^ 31
  · obtain ⟨hout, hin⟩ := search_below hb hsorted hn d
    by_cases hmid : Midpoint 0 (bounds.length - 1) (below bounds d - 1)
    · -- the loop passes over the bucket that the last bound below `d` begins
      have hwindow := hmid.mem_window
      rw [placed_iff_search hb hn (hout (.inr hmid)) (by omega),
        inBucket_below_iff hsorted (by omega) (by omega)]
      constructor
      · rintro ⟨hrange, hmem⟩
        exact .inr (.inr ⟨hmid, hmem, hrange⟩)
      · rintro (⟨hzero, -⟩ | ⟨-, hnot, -⟩ | ⟨-, hmem, hrange⟩)
        · omega
        · exact absurd hmid hnot
        · exact ⟨hrange, hmem⟩
    · rcases Nat.eq_zero_or_pos (below bounds d) with hzero | hpos
      · have hsearch := hout (.inl hzero)
        rw [hzero] at hsearch
        have hbucket := inBucket_zero hsorted hne hzero
        rw [placed_iff_search hb hn hsearch hlen]
        exact iff_of_true ⟨hn, hbucket⟩ (.inl ⟨hzero, hn⟩)
      · have hbucket := inBucket_pred hpos
        rw [placed_iff_search hb hn (hin ⟨hpos, hmid⟩) (by omega)]
        constructor
        · rintro ⟨hrange, -⟩
          exact .inr (.inl ⟨hpos, hmid, hrange⟩)
        · rintro (⟨hzero, -⟩ | ⟨-, -, hrange⟩ | ⟨hmid', -, -⟩)
          · omega
          · exact ⟨hrange, hbucket⟩
          · exact absurd hmid' hmid
  · apply iff_of_false
    · exact fun hplaced => hn (lt_of_placed hplaced)
    · intro hclear
      simp only [Clear] at hclear
      omega

/-- 20 is not in the middle of `[0, 1]`, so 25 is counted where it belongs. -/
theorem placed_iff_two : twoBuckets.Placed [10, 20] 25 := by
  refine (placed_iff (construct_hasBounds _ _) (by decide) (by decide) 25).mpr (.inr (.inl ?_))
  refine ⟨by decide, ?_, by decide⟩
  intro hmid
  have hwindow := hmid.mem_window
  revert hwindow
  decide

/-- 15 is counted as a datum below 10. -/
theorem not_placed : ¬ ∀ (h : Histogram) (bounds : List (BitVec 32)) (d : BitVec 32),
    h.HasBounds bounds → bounds.Pairwise (· < ·) → bounds ≠ [] → h.Placed bounds d := by
  intro h
  obtain ⟨h', hinsert, i, hi, hbucket, hdata⟩ := h twoBuckets [10, 20] 15
    (construct_hasBounds _ _) (by decide) (by decide)
  have hcounters : (twoBuckets.Insert 15).map (fun h => (h.data_ 2, h.data_ 3)) = some (0, 1) := by
    decide +kernel
  rw [hinsert, Option.map_some, Option.some.injEq, Prod.mk.injEq, hdata] at hcounters
  match i, hi with
  | 0, _ =>
    have hfst := hcounters.1
    revert hfst
    decide +kernel
  | 1, _ =>
    revert hbucket
    simp only [InBucket]
    decide

end Histogram

end QStorage.Tools
