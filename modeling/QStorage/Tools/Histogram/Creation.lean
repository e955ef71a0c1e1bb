import QStorage.Lib.Tally
import QStorage.Tools.Histogram.Buckets

/-!
# A histogram from its creation on

`CreateHistogram` writes the bounds to the block it has allocated, and leaves what is behind them
as it is. So the counters start with what the block held before.

## Main results

* `Histogram.Grown.tallied` — what a run makes of counters that start with zero.
* `Histogram.countsFromCreation_iff` — when the counters tell what was inserted.
-/

namespace QStorage.Tools

namespace Histogram

open QStorage.Lib

/-- The block that the allocator returned has the words `mem` from `data_` on. -/
def CreateHistogram (mem : ℤ → BitVec 32) (buckets : List (BitVec 32)) : Histogram :=
  construct mem buckets

variable {mem : ℤ → BitVec 32} {buckets xs : List (BitVec 32)} {h h' : Histogram} {d : BitVec 32}

/-- The sum of the counters of `n` buckets. -/
def counters (h : Histogram) (n : ℕ) : ℕ :=
  ((List.range n).map fun i : ℕ => (h.data_ (n + i)).toNat).sum

/-- The counters sum to the number of data, and the other fields say what they were. -/
structure Tallied (h : Histogram) (n : ℕ) (xs : List (BitVec 32)) : Prop where
  counters : h.counters n = h.num_.toNat
  num : h.num_.toNat = xs.length
  total : h.total_.toNat = (xs.map BitVec.toNat).sum
  max : h.max_.toNat = peak xs

/-- Whatever is inserted from the creation on is tallied. -/
def CountsFromCreation (mem : ℤ → BitVec 32) (buckets : List (BitVec 32)) : Prop :=
  ∀ xs : List (BitVec 32), xs.length < 2 ^ 32 → (xs.map BitVec.toNat).sum < 2 ^ 64 →
    ∃ h, (CreateHistogram mem buckets).insertAll xs = some h ∧ h.Tallied buckets.length xs

/-! ## A block of zeros -/

/-- Every datum is counted in one of the buckets. -/
theorem sum_hits (hn : 1 ≤ h.n) (xs : List (BitVec 32)) :
    ((List.range h.n.toNat).map fun i : ℕ => h.hits xs i).sum = xs.length := by
  have hkey : ∀ i : ℕ, h.hits xs i = xs.countP fun d => (h.bucket d).toNat = i := by
    intro i
    refine List.countP_congr fun d _ => ?_
    obtain ⟨-, hpos, -⟩ := search_eq hn d
    simp only [decide_eq_true_eq]
    omega
  simp only [hkey, sum_countP_range]
  apply List.countP_eq_length.mpr
  intro d _
  obtain ⟨-, hpos, hlt⟩ := search_eq hn d
  simp only [decide_eq_true_eq]
  omega

theorem Grown.tallied (hn : 1 ≤ h.n) (hz : h.Zero) (hlen : xs.length < 2 ^ 32)
    (hsum : (xs.map BitVec.toNat).sum < 2 ^ 64) (hx : h.Grown xs h') :
    h'.Tallied h.n.toNat xs := by
  have hh := hx.holds hz
  have hnum : h'.num_.toNat = xs.length := by
    rw [hh.num, BitVec.toNat_ofNat, Nat.mod_eq_of_lt (by omega)]
  refine ⟨?_, hnum, ?_, hh.max⟩
  · have hcounter : ∀ i ∈ List.range h.n.toNat,
        (h'.data_ (h.n.toNat + i)).toNat = h.hits xs i := by
      intro i hi
      have hlt := List.mem_range.mp hi
      have hhits : h.hits xs i ≤ xs.length := List.countP_le_length
      have hdata := hh.counter i (by omega) (by rw [← hx.bounds.n_eq]; omega)
      rw [← hx.bounds.n_eq, ← hx.bounds.hits_eq] at hdata
      rw [Int.toNat_of_nonneg (by omega), hdata, BitVec.toNat_ofNat, Nat.mod_eq_of_lt (by omega)]
    rw [hnum, ← sum_hits hn xs, counters, List.map_congr_left hcounter]
  · rw [hh.total, BitVec.toNat_ofNat, Nat.mod_eq_of_lt hsum]

/-! ## Any block -/

/-- Without an `Insert`, the counters show what the block held. -/
theorem CountsFromCreation.mem_eq (hcounts : CountsFromCreation mem buckets) {i : ℕ}
    (hi : i < buckets.length) : mem (buckets.length + i) = 0 := by
  obtain ⟨h, hrun, htallied⟩ := hcounts [] (by simp) (by simp)
  obtain rfl := Option.some.inj hrun
  have hsum : (CreateHistogram mem buckets).counters buckets.length = 0 :=
    htallied.counters.trans htallied.num
  have hzero := List.sum_eq_zero_iff_forall_eq_nat.mp hsum _
    (List.mem_map_of_mem (List.mem_range.mpr hi))
  rw [CreateHistogram, construct_counter] at hzero
  exact BitVec.eq_of_toNat_eq hzero

/-- One `Insert` has to increment a counter. -/
theorem CountsFromCreation.length_lt (hcounts : CountsFromCreation mem buckets) :
    buckets.length < 2 ^ 31 := by
  by_contra hge
  obtain ⟨h, hrun, htallied⟩ := hcounts [0] (by simp) (by simp)
  have hinsert : (CreateHistogram mem buckets).Insert 0 = some h := by
    simpa [insertAll] using hrun
  obtain ⟨r, -, hrange, hdata⟩ := Insert_data hinsert
  have hcounter : ∀ i ∈ List.range buckets.length,
      (h.data_ (buckets.length + i)).toNat = 0 := by
    intro i hi
    rw [hdata, Function.update_of_ne (by omega), CreateHistogram, construct_counter,
      hcounts.mem_eq (List.mem_range.mp hi)]
    rfl
  have hsum : h.counters buckets.length = 1 := htallied.counters.trans htallied.num
  rw [counters, List.map_congr_left hcounter] at hsum
  simp at hsum

theorem CountsFromCreation.fits (hcounts : CountsFromCreation mem buckets) (hne : buckets ≠ [])
    (d : BitVec 32) : (CreateHistogram mem buckets).Fits d := by
  have hlen := List.length_pos_iff.mpr hne
  obtain ⟨h, hrun, -⟩ := hcounts [d] (by simp) (by
    have hlt := d.isLt
    simp only [List.map_cons, List.map_nil, List.sum_singleton]
    omega)
  have hinsert : (CreateHistogram mem buckets).Insert d = some h := by
    simpa [insertAll] using hrun
  obtain ⟨r, hr, hrange, -⟩ := Insert_data hinsert
  have hn : (CreateHistogram mem buckets).n = buckets.length :=
    n_eq_length rfl hcounts.length_lt
  obtain ⟨hsearch, -, -⟩ := search_eq (h := CreateHistogram mem buckets) (by omega) d
  obtain rfl := Option.some.inj (hr.symm.trans hsearch)
  exact hrange

/-- The words behind the bounds have to be zero, and the index of every counter that a datum comes
to has to fit an `int`. -/
theorem countsFromCreation_iff (hne : buckets ≠ []) :
    CountsFromCreation mem buckets ↔ (∀ i < buckets.length, mem (buckets.length + i) = 0) ∧
      buckets.length < 2 ^ 31 ∧ ∀ d, (CreateHistogram mem buckets).Fits d := by
  have hlen := List.length_pos_iff.mpr hne
  constructor
  · intro hcounts
    exact ⟨fun i hi => hcounts.mem_eq hi, hcounts.length_lt, hcounts.fits hne⟩
  · rintro ⟨hmem, hlt, hfits⟩ xs hshort hsum
    have hn : (CreateHistogram mem buckets).n = buckets.length := n_eq_length rfl hlt
    obtain ⟨h, hrun, hgrown⟩ := insertAll_grown (by omega)
      (show ∀ d ∈ xs, (CreateHistogram mem buckets).Fits d from fun d _ => hfits d)
    refine ⟨h, hrun, ?_⟩
    have hzero : (CreateHistogram mem buckets).Zero := construct_zero hlt hmem
    have htallied := hgrown.tallied (by omega) hzero hshort hsum
    rwa [hn, Int.toNat_natCast] at htallied

theorem countsFromCreation_zeroed : CountsFromCreation (fun _ => 0) [10, 20] :=
  (countsFromCreation_iff (by decide)).mpr ⟨fun _ _ => rfl, by decide,
    .of_le (by decide) (by decide)⟩

/-- A block that was in use before: the counter of the only bucket starts with 1. -/
theorem not_countsFromCreation : ¬ ∀ (mem : ℤ → BitVec 32) (buckets : List (BitVec 32)),
    buckets ≠ [] → CountsFromCreation mem buckets := by
  intro h
  have hcounter := (h (fun _ => 1) [10] (by decide)).mem_eq (i := 0) (by decide)
  exact absurd hcounter (by decide)

end Histogram

end QStorage.Tools
