import Mathlib.Tactic.Ring
import Mathlib.Logic.Function.Basic

/-!
# Histograms (`tools/histogram.h`)

The words behind `data_` are a function of the index: the bounds of the `n` buckets at `[0, n)`
and their counters at `[n, 2n)`. An `int` expression that overflows has no value.

## Main results

* `Histogram.insertAll_spec` — what a run of `Insert` adds, field by field.
* `Histogram.merge_iff` — when merging gives the histogram of both sequences.
-/

namespace QStorage.Tools

structure Histogram where
  num_buckets_ : BitVec 32
  max_ : BitVec 32 := 0
  num_ : BitVec 64 := 0
  total_ : BitVec 64 := 0
  data_ : ℤ → BitVec 32

/-- The value of an `int` expression. -/
def int32 (v : ℤ) : Option ℤ := if -2 ^ 31 ≤ v ∧ v < 2 ^ 31 then some v else none

namespace Histogram

/-- The number of buckets, an `int32_t`. -/
def n (h : Histogram) : ℤ := h.num_buckets_.toInt

/-- The constructor on the words of the memory block. -/
def construct (mem : ℤ → BitVec 32) (bucket : List (BitVec 32)) : Histogram :=
  { num_buckets_ := BitVec.ofNat 32 bucket.length
    data_ := fun i => if 0 ≤ i ∧ i < bucket.length then bucket.getD i.toNat 0 else mem i }

/-- The loop of `Insert`, with the indices that it reads; `none` is a loop that has not ended. -/
def searchLoop (data_ : ℤ → BitVec 32) (datum : BitVec 32) : ℕ → ℤ → ℤ → Option (ℤ × List ℤ)
  | 0, _, _ => none
  | fuel + 1, lo, hi =>
    if lo < hi then
      let mid := lo + (hi - lo) / 2
      (if data_ mid < datum then searchLoop data_ datum fuel (mid + 1) hi
        else searchLoop data_ datum fuel lo (mid - 1)).map fun r => (r.1, mid :: r.2)
    else some (lo, [])

/-- The loop as `Insert` starts it. -/
def searched (h : Histogram) (datum : BitVec 32) : Option (ℤ × List ℤ) :=
  searchLoop h.data_ datum (h.n.toNat + 1) 0 (h.n - 1)

/-- Where the loop of `Insert` leaves `lo`. -/
def search (h : Histogram) (datum : BitVec 32) : Option ℤ := (h.searched datum).map Prod.fst

def Insert (h : Histogram) (datum : BitVec 32) : Option Histogram := do
  let lo ← h.search datum
  let i ← int32 (lo + h.n)
  some { h with
    data_ := Function.update h.data_ i (h.data_ i + 1)
    max_ := if h.max_ < datum then datum else h.max_
    total_ := h.total_ + datum.setWidth 64
    num_ := h.num_ + 1 }

def insertAll (h : Histogram) (xs : List (BitVec 32)) : Option Histogram := xs.foldlM Insert h

/-- `data_[i] += h.data_[i]` for the `k` indices from `i` on. -/
def addCounters (data_ other : ℤ → BitVec 32) (i : ℤ) : ℕ → ℤ → BitVec 32
  | 0 => data_
  | k + 1 =>
    let data_ := addCounters data_ other i k
    Function.update data_ (i + k) (data_ (i + k) + other (i + k))

/-- The two histograms have the same buckets. -/
def Merge (a h : Histogram) : Option Histogram := do
  let stop ← int32 (h.n * 2)
  some { a with
    max_ := if h.max_ < a.max_ then h.max_ else a.max_
    total_ := a.total_ + h.total_
    num_ := a.num_ + h.num_
    data_ := addCounters a.data_ h.data_ a.n (stop - a.n).toNat }

/-! ## The search -/

variable {h h' : Histogram} {d : BitVec 32} {xs ys : List (BitVec 32)}

/-- Each step shrinks the window `[lo, hi]`, which stays to the left of `n`; its middle is read
only when `lo < hi`. -/
theorem searchLoop_spec {data_ : ℤ → BitVec 32} {n lo hi : ℤ} {fuel : ℕ} (hlo : 0 ≤ lo)
    (hlt : lo < n) (hhi : hi < n) (hfuel : (hi - lo).toNat < fuel) :
    ∃ r reads, searchLoop data_ d fuel lo hi = some (r, reads) ∧ (0 ≤ r ∧ r < n) ∧
      ∀ i ∈ reads, 0 ≤ i ∧ i < n := by
  induction fuel generalizing lo hi with
  | zero => omega
  | succ fuel ih =>
    rw [searchLoop]
    split
    · next hwindow =>
      have hmid : 0 ≤ lo + (hi - lo) / 2 ∧ lo + (hi - lo) / 2 < n := by omega
      obtain ⟨r, reads, hr, hrange, hreads⟩ : ∃ r reads,
          (if data_ (lo + (hi - lo) / 2) < d then
            searchLoop data_ d fuel (lo + (hi - lo) / 2 + 1) hi
          else searchLoop data_ d fuel lo (lo + (hi - lo) / 2 - 1)) = some (r, reads) ∧
            (0 ≤ r ∧ r < n) ∧ ∀ i ∈ reads, 0 ≤ i ∧ i < n := by
        split
        · exact ih (by omega) (by omega) hhi (by omega)
        · exact ih hlo hlt (by omega) (by omega)
      simp only [hr, Option.map_some]
      exact ⟨r, _, rfl, hrange, List.forall_mem_cons.mpr ⟨hmid, hreads⟩⟩
    · exact ⟨lo, [], rfl, ⟨hlo, hlt⟩, by simp⟩

/-- The bounds decide what the loop does. -/
theorem searchLoop_congr {data_ data_' : ℤ → BitVec 32} {n lo hi : ℤ}
    (hbounds : ∀ i, 0 ≤ i → i < n → data_ i = data_' i) (hlo : 0 ≤ lo) (hhi : hi < n) (fuel : ℕ) :
    searchLoop data_ d fuel lo hi = searchLoop data_' d fuel lo hi := by
  induction fuel generalizing lo hi with
  | zero => rfl
  | succ fuel ih =>
    rw [searchLoop, searchLoop]
    split
    · next hwindow =>
      simp only
      rw [hbounds _ (by omega) (by omega), ih (by omega) hhi, ih hlo (by omega)]
    · rfl

theorem searched_spec (hn : 1 ≤ h.n) (d : BitVec 32) :
    ∃ r reads, h.searched d = some (r, reads) ∧ (0 ≤ r ∧ r < h.n) ∧
      ∀ i ∈ reads, 0 ≤ i ∧ i < h.n :=
  searchLoop_spec le_rfl (by omega) (by omega) (by omega)

/-- The bucket that counts `d`. -/
def bucket (h : Histogram) (d : BitVec 32) : ℤ := (h.search d).getD 0

theorem search_eq (hn : 1 ≤ h.n) (d : BitVec 32) :
    h.search d = some (h.bucket d) ∧ 0 ≤ h.bucket d ∧ h.bucket d < h.n := by
  obtain ⟨r, reads, hloop, hrange, -⟩ := searched_spec hn d
  have hr : h.search d = some r := by rw [search, hloop, Option.map_some]
  rw [bucket, hr]
  exact ⟨rfl, hrange⟩

/-- The same buckets: their number and their bounds. -/
def SameBounds (h h' : Histogram) : Prop :=
  h.num_buckets_ = h'.num_buckets_ ∧ ∀ i, 0 ≤ i → i < h.n → h.data_ i = h'.data_ i

theorem SameBounds.n_eq (hsame : h.SameBounds h') : h.n = h'.n := by rw [n, n, hsame.1]

theorem SameBounds.refl (h : Histogram) : h.SameBounds h := ⟨rfl, fun _ _ _ => rfl⟩

theorem SameBounds.symm (hsame : h.SameBounds h') : h'.SameBounds h :=
  ⟨hsame.1.symm, fun i hpos hlt => (hsame.2 i hpos (hsame.n_eq ▸ hlt)).symm⟩

theorem SameBounds.trans {h'' : Histogram} (hfst : h.SameBounds h') (hsnd : h'.SameBounds h'') :
    h.SameBounds h'' :=
  ⟨hfst.1.trans hsnd.1, fun i hpos hlt =>
    (hfst.2 i hpos hlt).trans (hsnd.2 i hpos (hfst.n_eq ▸ hlt))⟩

theorem SameBounds.bucket_eq (hsame : h.SameBounds h') (d : BitVec 32) :
    h.bucket d = h'.bucket d := by
  rw [bucket, bucket, search, search, searched, searched, ← hsame.n_eq,
    searchLoop_congr hsame.2 (by omega) (by omega)]

/-! ## Runs of `Insert` -/

/-- The largest datum, 0 if there is none. -/
def peak (xs : List (BitVec 32)) : ℕ := xs.foldr (fun d m => max d.toNat m) 0

theorem peak_append : peak (xs ++ ys) = max (peak xs) (peak ys) := by
  induction xs with
  | nil => simp [peak]
  | cons d xs ih => simpa [peak, Nat.max_assoc] using congrArg (max d.toNat) ih

/-- How many of the data fall into bucket `i`. -/
def hits (h : Histogram) (xs : List (BitVec 32)) (i : ℤ) : ℕ := xs.countP fun d => h.bucket d = i

theorem hits_append (i : ℤ) : h.hits (xs ++ ys) i = h.hits xs i + h.hits ys i :=
  List.countP_append

theorem SameBounds.hits_eq (hsame : h.SameBounds h') (xs : List (BitVec 32)) (i : ℤ) :
    h.hits xs i = h'.hits xs i := by
  simp only [hits, hsame.bucket_eq]

/-- `h'` is `h` with the data `xs` added. -/
structure Grown (h : Histogram) (xs : List (BitVec 32)) (h' : Histogram) : Prop where
  bounds : h.SameBounds h'
  max : h'.max_.toNat = max h.max_.toNat (peak xs)
  num : h'.num_ = h.num_ + BitVec.ofNat 64 xs.length
  total : h'.total_ = h.total_ + BitVec.ofNat 64 (xs.map BitVec.toNat).sum
  counter : ∀ i, 0 ≤ i → i < h.n →
    h'.data_ (h.n + i) = h.data_ (h.n + i) + BitVec.ofNat 32 (h.hits xs i)

theorem Grown.refl (h : Histogram) : h.Grown [] h where
  bounds := .refl h
  max := by simp [peak]
  num := by simp
  total := by simp
  counter i _ _ := by simp [hits]

theorem Grown.trans {h'' : Histogram} (hx : h.Grown xs h') (hy : h'.Grown ys h'') :
    h.Grown (xs ++ ys) h'' where
  bounds := hx.bounds.trans hy.bounds
  max := by rw [hy.max, hx.max, peak_append, Nat.max_assoc]
  num := by rw [hy.num, hx.num, List.length_append, BitVec.ofNat_add, BitVec.add_assoc]
  total := by
    rw [hy.total, hx.total, List.map_append, List.sum_append, BitVec.ofNat_add, BitVec.add_assoc]
  counter i hpos hlt := by
    have hcounter := hy.counter i hpos (hx.bounds.n_eq ▸ hlt)
    rw [← hx.bounds.n_eq, hx.counter i hpos hlt, ← hx.bounds.hits_eq] at hcounter
    rw [hcounter, hits_append, BitVec.ofNat_add, BitVec.add_assoc]

theorem Insert_n (hinsert : h.Insert d = some h') : h'.n = h.n := by
  simp only [Insert, Option.bind_eq_bind, Option.bind_eq_some_iff, Option.some.injEq] at hinsert
  obtain ⟨_, -, _, -, rfl⟩ := hinsert
  rfl

theorem insertAll_n (hrun : h.insertAll xs = some h') : h'.n = h.n := by
  induction xs generalizing h with
  | nil => rw [Option.some.inj hrun]
  | cons d xs ih =>
    rw [insertAll, List.foldlM_cons, Option.bind_eq_bind, Option.bind_eq_some_iff] at hrun
    obtain ⟨h₁, hinsert, hrest⟩ := hrun
    exact (ih hrest).trans (Insert_n hinsert)

/-- The index of the counter for `d` fits an `int`. -/
def Fits (h : Histogram) (d : BitVec 32) : Prop := h.bucket d + h.n < 2 ^ 31

theorem Fits.of_le (hn : 1 ≤ h.n) (hle : h.n ≤ 2 ^ 30) (d : BitVec 32) : h.Fits d := by
  obtain ⟨-, -, hbucket⟩ := search_eq hn d
  simp only [Fits]
  omega

theorem SameBounds.fits (hsame : h.SameBounds h') (hfits : h.Fits d) : h'.Fits d := by
  rwa [Fits, ← hsame.bucket_eq, ← hsame.n_eq]

/-- One `Insert` of a datum whose index fits. -/
theorem Insert_grown (hn : 1 ≤ h.n) (hfits : h.Fits d) :
    ∃ h', h.Insert d = some h' ∧ h.Grown [d] h' := by
  obtain ⟨hsearch, hpos, hbucket⟩ := search_eq hn d
  simp only [Fits] at hfits
  have hindex : int32 (h.bucket d + h.n) = some (h.bucket d + h.n) := if_pos (by omega)
  refine ⟨_, by rw [Insert, hsearch, Option.bind_eq_bind, Option.bind_some, hindex]; rfl, ?_⟩
  refine ⟨⟨rfl, ?_⟩, ?_, ?_, ?_, ?_⟩
  · intro i _ hi
    exact (Function.update_of_ne (by omega) _ _).symm
  · simp only [peak, List.foldr_cons, List.foldr_nil, Nat.max_zero]
    split
    · next hless => exact (Nat.max_eq_right (BitVec.lt_def.mp hless).le).symm
    · next hless => exact (Nat.max_eq_left (Nat.le_of_not_lt (mt BitVec.lt_def.mpr hless))).symm
  · rfl
  · simp [BitVec.ofNat_toNat]
  · intro i hi hin
    by_cases hi : h.bucket d = i
    · subst hi
      simp [hits, Int.add_comm h.n]
    · have hne : h.n + i ≠ h.bucket d + h.n := by omega
      simp [hits, hi, hne]

/-- A run of `Insert` with data whose indices fit. -/
theorem insertAll_grown (hn : 1 ≤ h.n) (hfits : ∀ d ∈ xs, h.Fits d) :
    ∃ h', h.insertAll xs = some h' ∧ h.Grown xs h' := by
  induction xs generalizing h with
  | nil => exact ⟨h, rfl, .refl h⟩
  | cons d xs ih =>
    obtain ⟨h₁, hinsert, hd⟩ := Insert_grown hn (hfits d (by simp))
    have hrest : ∀ e ∈ xs, h₁.Fits e :=
      fun e he => hd.bounds.fits (hfits e (List.mem_cons_of_mem _ he))
    obtain ⟨h₂, hrun, hxs⟩ := ih (hd.bounds.n_eq ▸ hn) hrest
    refine ⟨h₂, ?_, hd.trans hxs⟩
    rw [insertAll, List.foldlM_cons, hinsert]
    exact hrun

/-- A run of `Insert` into a histogram with few enough buckets. -/
theorem insertAll_spec (hn : 1 ≤ h.n) (hlt : h.n < 2 ^ 30) (xs : List (BitVec 32)) :
    ∃ h', h.insertAll xs = some h' ∧ h.Grown xs h' :=
  insertAll_grown hn fun d _ => .of_le hn hlt.le d

/-! ## Merging -/

/-- Nothing was inserted yet. -/
structure Zero (h : Histogram) : Prop where
  max : h.max_ = 0
  num : h.num_ = 0
  total : h.total_ = 0
  counter : ∀ i, 0 ≤ i → i < h.n → h.data_ (h.n + i) = 0

theorem n_eq_length {bucket : List (BitVec 32)}
    (hnum : h.num_buckets_ = BitVec.ofNat 32 bucket.length) (hlt : bucket.length < 2 ^ 31) :
    h.n = bucket.length := by
  rw [n, hnum, BitVec.toInt_eq_toNat_of_lt] <;> rw [BitVec.toNat_ofNat] <;> omega

/-- The constructor leaves the words behind the bounds as they are. -/
theorem construct_counter (mem : ℤ → BitVec 32) (bucket : List (BitVec 32)) (i : ℕ) :
    (construct mem bucket).data_ (bucket.length + i) = mem (bucket.length + i) :=
  if_neg (by omega)

theorem construct_zero {mem : ℤ → BitVec 32} {bucket : List (BitVec 32)}
    (hlt : bucket.length < 2 ^ 31) (hmem : ∀ i < bucket.length, mem (bucket.length + i) = 0) :
    (construct mem bucket).Zero := by
  refine ⟨rfl, rfl, rfl, ?_⟩
  intro i hpos hi
  rw [n_eq_length rfl hlt] at hi ⊢
  obtain ⟨i, rfl⟩ := Int.eq_ofNat_of_zero_le hpos
  rw [construct_counter]
  exact hmem i (by omega)

/-- The same buckets, counters, maximum, count and total. -/
def Same (h h' : Histogram) : Prop :=
  h.SameBounds h' ∧ h.max_ = h'.max_ ∧ h.num_ = h'.num_ ∧ h.total_ = h'.total_ ∧
    ∀ i, 0 ≤ i → i < h.n → h.data_ (h.n + i) = h'.data_ (h'.n + i)

theorem addCounters_apply (data_ other : ℤ → BitVec 32) (i j : ℤ) (k : ℕ) :
    addCounters data_ other i k j =
      if i ≤ j ∧ j < i + k then data_ j + other j else data_ j := by
  induction k with
  | zero => rw [if_neg (by omega)]; rfl
  | succ k ih =>
    simp only [addCounters, Function.update_apply]
    split
    · next hj =>
      rw [← hj, ih, if_neg (by omega), if_pos (by omega)]
    · next hj =>
      rw [ih]
      split <;> split <;> first | rfl | omega

/-- `m` is `a` after the merge with `b`: what was counted is added up, and of the two maxima the
smaller one is kept. -/
structure Merged (a b m : Histogram) : Prop where
  bounds : a.SameBounds m
  max : m.max_.toNat = min a.max_.toNat b.max_.toNat
  num : m.num_ = a.num_ + b.num_
  total : m.total_ = a.total_ + b.total_
  counter : ∀ i, 0 ≤ i → i < a.n → m.data_ (a.n + i) = a.data_ (a.n + i) + b.data_ (a.n + i)

/-- The merge of two histograms of the same size whose indices fit an `int`. -/
theorem Merge_spec {a b : Histogram} (hlt : a.n < 2 ^ 30) (hn : 1 ≤ a.n) (hsize : a.n = b.n) :
    ∃ m, a.Merge b = some m ∧ Merged a b m := by
  have hstop : int32 (b.n * 2) = some (b.n * 2) := if_pos (by omega)
  refine ⟨_, by rw [Merge, hstop, Option.bind_eq_bind, Option.bind_some], ?_⟩
  refine ⟨⟨rfl, ?_⟩, ?_, rfl, rfl, ?_⟩
  · intro i _ hi
    simp only [addCounters_apply]
    rw [if_neg (by omega)]
  · simp only
    split
    · next hless => exact (Nat.min_eq_right (BitVec.lt_def.mp hless).le).symm
    · next hless => exact (Nat.min_eq_left (Nat.le_of_not_lt (mt BitVec.lt_def.mpr hless))).symm
  · intro i hi hin
    simp only [addCounters_apply, ← hsize]
    rw [if_pos (by omega)]

/-- A histogram that began with nothing holds exactly the data `xs`. -/
structure Holds (h : Histogram) (xs : List (BitVec 32)) : Prop where
  max : h.max_.toNat = peak xs
  num : h.num_ = BitVec.ofNat 64 xs.length
  total : h.total_ = BitVec.ofNat 64 (xs.map BitVec.toNat).sum
  counter : ∀ i, 0 ≤ i → i < h.n → h.data_ (h.n + i) = BitVec.ofNat 32 (h.hits xs i)

theorem Grown.holds (hz : h.Zero) (hx : h.Grown xs h') : h'.Holds xs where
  max := by simp [hx.max, hz.max]
  num := by simp [hx.num, hz.num]
  total := by simp [hx.total, hz.total]
  counter i hpos hlt := by
    rw [← hx.bounds.n_eq] at hlt ⊢
    rw [hx.counter i hpos hlt, hz.counter i hpos hlt, ← hx.bounds.hits_eq]
    exact BitVec.zero_add _

/-- What a histogram holds determines it up to its bounds. -/
theorem Holds.same_iff {zs : List (BitVec 32)} (hsame : h.SameBounds h') (hz : h'.Holds zs) :
    h.Same h' ↔ h.Holds zs := by
  constructor
  · rintro ⟨-, hmax, hnum, htotal, hcounter⟩
    refine ⟨hmax ▸ hz.max, hnum.trans hz.num, htotal.trans hz.total, ?_⟩
    intro i hpos hlt
    rw [hcounter i hpos hlt, hsame.hits_eq, hz.counter i hpos (hsame.n_eq ▸ hlt)]
  · intro hh
    refine ⟨hsame, ?_, hh.num.trans hz.num.symm, hh.total.trans hz.total.symm, ?_⟩
    · exact BitVec.eq_of_toNat_eq (hh.max.trans hz.max.symm)
    · intro i hpos hlt
      rw [hh.counter i hpos hlt, hsame.hits_eq, hz.counter i hpos (hsame.n_eq ▸ hlt)]

/-- Everything but the maximum is merged as it should be. -/
theorem Merged.holds_iff {a b m : Histogram} (hm : Merged a b m) (hab : a.SameBounds b)
    (hx : a.Holds xs) (hy : b.Holds ys) : m.Holds (xs ++ ys) ↔ peak xs = peak ys := by
  have hmax : m.max_.toNat = min (peak xs) (peak ys) := by rw [hm.max, hx.max, hy.max]
  constructor
  · intro hh
    have hboth := hh.max
    rw [hmax, peak_append] at hboth
    omega
  · intro hpeak
    refine ⟨?_, ?_, ?_, ?_⟩
    · rw [hmax, peak_append]
      omega
    · rw [hm.num, hx.num, hy.num, List.length_append, BitVec.ofNat_add]
    · rw [hm.total, hx.total, hy.total, List.map_append, List.sum_append, BitVec.ofNat_add]
    · intro i hpos hlt
      rw [← hm.bounds.n_eq] at hlt ⊢
      have hcounter := hy.counter i hpos (hab.n_eq ▸ hlt)
      rw [← hab.n_eq, ← hab.hits_eq] at hcounter
      rw [hm.counter i hpos hlt, hx.counter i hpos hlt, hcounter, ← hm.bounds.hits_eq,
        hits_append, BitVec.ofNat_add]

/-- Data inserted into two histograms, the second of which is merged into the first. -/
def merged (h₁ h₂ : Histogram) (xs ys : List (BitVec 32)) : Option Histogram := do
  let a ← h₁.insertAll xs
  let b ← h₂.insertAll ys
  a.Merge b

/-- Merging gives the histogram that both sequences make when inserted into `h₃`. -/
def Union (h₁ h₂ h₃ : Histogram) (xs ys : List (BitVec 32)) : Prop :=
  ∃ m s, merged h₁ h₂ xs ys = some m ∧ h₃.insertAll (xs ++ ys) = some s ∧ m.Same s

section Union

variable {h₁ h₂ h₃ : Histogram}

/-- The bound of the loop in `Merge` must fit an `int`. -/
theorem lt_of_merged {m : Histogram} (hsame : h₁.SameBounds h₂)
    (hm : merged h₁ h₂ xs ys = some m) : h₁.n < 2 ^ 30 := by
  simp only [merged, Merge, Option.bind_eq_bind, Option.bind_eq_some_iff] at hm
  obtain ⟨a, -, b, hb, stop, hstop, -⟩ := hm
  have hrange := (Option.ite_none_right_eq_some.mp hstop).1
  rw [insertAll_n hb, ← hsame.n_eq] at hrange
  omega

/-- `Merge` takes the smaller maximum of the two, and multiplies the number of buckets by 2 in an
`int`. -/
theorem merge_iff (hn : 1 ≤ h₁.n) (h₁₂ : h₁.SameBounds h₂) (h₁₃ : h₁.SameBounds h₃)
    (hz₁ : h₁.Zero) (hz₂ : h₂.Zero) (hz₃ : h₃.Zero) :
    Union h₁ h₂ h₃ xs ys ↔ h₁.n < 2 ^ 30 ∧ peak xs = peak ys := by
  suffices hiff : h₁.n < 2 ^ 30 → (Union h₁ h₂ h₃ xs ys ↔ peak xs = peak ys) by
    constructor
    · intro hunion
      have hlt : h₁.n < 2 ^ 30 := by
        obtain ⟨m, -, hm, -⟩ := hunion
        exact lt_of_merged h₁₂ hm
      exact ⟨hlt, (hiff hlt).mp hunion⟩
    · rintro ⟨hlt, hpeak⟩
      exact (hiff hlt).mpr hpeak
  intro hlt
  obtain ⟨a, hxs, ha⟩ := insertAll_spec hn hlt xs
  obtain ⟨b, hys, hb⟩ := insertAll_spec (h₁₂.n_eq ▸ hn) (h₁₂.n_eq ▸ hlt) ys
  obtain ⟨s, hboth, hs⟩ := insertAll_spec (h₁₃.n_eq ▸ hn) (h₁₃.n_eq ▸ hlt) (xs ++ ys)
  have hab : a.SameBounds b := ha.bounds.symm.trans (h₁₂.trans hb.bounds)
  obtain ⟨m, hmerge, hm⟩ := Merge_spec (ha.bounds.n_eq ▸ hlt) (ha.bounds.n_eq ▸ hn) hab.n_eq
  have hmerged : merged h₁ h₂ xs ys = some m := by
    rw [merged, hxs, hys]
    exact hmerge
  have hms : m.SameBounds s :=
    hm.bounds.symm.trans (ha.bounds.symm.trans (h₁₃.trans hs.bounds))
  calc Union h₁ h₂ h₃ xs ys ↔ m.Same s := by simp [Union, hmerged, hboth]
    _ ↔ m.Holds (xs ++ ys) := (hs.holds hz₃).same_iff hms
    _ ↔ peak xs = peak ys := hm.holds_iff hab (ha.holds hz₁) (hb.holds hz₂)

/-- Two buckets, `10~20` and `20~+Inf`. -/
def twoBuckets : Histogram := construct (fun _ => 0) [10, 20]

theorem merge_iff_twoBuckets : Union twoBuckets twoBuckets twoBuckets [15, 25] [25] :=
  have hz : twoBuckets.Zero := construct_zero (by decide) fun _ _ => rfl
  (merge_iff (by decide) (.refl _) (.refl _) hz hz hz).mpr ⟨by decide, by decide⟩

/-- Nothing is merged into a histogram that has seen 15, and its maximum drops to 0. -/
theorem not_union : ¬ ∀ (h₁ h₂ h₃ : Histogram) (xs ys : List (BitVec 32)), 1 ≤ h₁.n →
    h₁.SameBounds h₂ → h₁.SameBounds h₃ → h₁.Zero → h₂.Zero → h₃.Zero →
    xs.length + ys.length < 2 ^ 32 → ((xs ++ ys).map BitVec.toNat).sum < 2 ^ 64 →
    Union h₁ h₂ h₃ xs ys := by
  intro h
  have hz : twoBuckets.Zero := construct_zero (by decide) fun _ _ => rfl
  obtain ⟨m, s, hm, hs, -, hmax, -⟩ := h twoBuckets twoBuckets twoBuckets [15] [] (by decide)
    (.refl _) (.refl _) hz hz hz (by decide) (by decide)
  have hmerged : (merged twoBuckets twoBuckets [15] []).map max_ = some 0 := by decide +kernel
  have hboth : (twoBuckets.insertAll ([15] ++ [])).map max_ = some 15 := by decide +kernel
  rw [hm, Option.map_some, hmax] at hmerged
  rw [hs, Option.map_some, hmerged] at hboth
  revert hboth
  decide

end Union

end Histogram

end QStorage.Tools
