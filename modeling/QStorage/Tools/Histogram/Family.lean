import QStorage.Lib.Progress
import QStorage.Tools.Histogram

/-!
# Histograms that are merged into one another (`tools/histogram.h`)

Any number of histograms with the same buckets. Data are inserted into any of them, and any of them
is merged into any other one or into itself, in any order. What a histogram has counted depends on
the data that it got and not on the order in which they came to it. Its maximum does.

## Main results

* `Histogram.Counts.perm` — the counters do not tell in which order the data came.
* `Histogram.Family.merges_tallied` — what a run makes of the counters and of the maxima.
-/

namespace QStorage.Tools

open QStorage.Lib

namespace Histogram

variable {h h' a b m : Histogram} {xs ys : List (BitVec 32)}

/-- All but the maximum of a histogram that holds `xs`. -/
structure Counts (h : Histogram) (xs : List (BitVec 32)) : Prop where
  num : h.num_ = BitVec.ofNat 64 xs.length
  total : h.total_ = BitVec.ofNat 64 (xs.map BitVec.toNat).sum
  counter : ∀ i, 0 ≤ i → i < h.n → h.data_ (h.n + i) = BitVec.ofNat 32 (h.hits xs i)

theorem Zero.counts (hz : h.Zero) : h.Counts [] where
  num := hz.num
  total := hz.total
  counter := hz.counter

theorem holds_iff_counts : h.Holds xs ↔ h.Counts xs ∧ h.max_.toNat = peak xs :=
  ⟨fun hh => ⟨⟨hh.num, hh.total, hh.counter⟩, hh.max⟩,
    fun ⟨hc, hmax⟩ => ⟨hmax, hc.num, hc.total, hc.counter⟩⟩

theorem Counts.perm (hc : h.Counts xs) (hperm : xs.Perm ys) : h.Counts ys where
  num := by rw [hc.num, hperm.length_eq]
  total := by rw [hc.total, (hperm.map _).sum_nat]
  counter i hpos hlt := by rw [hc.counter i hpos hlt, hits, hits, hperm.countP_eq]

/-- What `Insert` adds to what was counted. -/
theorem Counts.grow (hc : h.Counts xs) (hgrown : h.Grown ys h') : h'.Counts (xs ++ ys) where
  num := by rw [hgrown.num, hc.num, List.length_append, BitVec.ofNat_add]
  total := by rw [hgrown.total, hc.total, List.map_append, List.sum_append, BitVec.ofNat_add]
  counter i hpos hlt := by
    rw [← hgrown.bounds.n_eq] at hlt ⊢
    rw [hgrown.counter i hpos hlt, hc.counter i hpos hlt, ← hgrown.bounds.hits_eq, hits_append,
      BitVec.ofNat_add]

/-- What `Merge` adds to what was counted. -/
theorem Counts.merge (ha : a.Counts xs) (hb : b.Counts ys) (hab : a.SameBounds b)
    (hm : Merged a b m) : m.Counts (xs ++ ys) where
  num := by rw [hm.num, ha.num, hb.num, List.length_append, BitVec.ofNat_add]
  total := by rw [hm.total, ha.total, hb.total, List.map_append, List.sum_append, BitVec.ofNat_add]
  counter i hpos hlt := by
    rw [← hm.bounds.n_eq] at hlt ⊢
    have hcounter := hb.counter i hpos (hab.n_eq ▸ hlt)
    rw [← hab.n_eq, ← hab.hits_eq] at hcounter
    rw [hm.counter i hpos hlt, ha.counter i hpos hlt, hcounter, ← hm.bounds.hits_eq, hits_append,
      BitVec.ofNat_add]

theorem Holds.grow (hh : h.Holds xs) (hgrown : h.Grown ys h') : h'.Holds (xs ++ ys) := by
  obtain ⟨hc, hmax⟩ := holds_iff_counts.mp hh
  exact holds_iff_counts.mpr ⟨hc.grow hgrown, by rw [hgrown.max, hmax, peak_append]⟩

/-- The histograms, with the data that each of them has got through `Insert` and `Merge`. -/
structure Family (ι : Type*) where
  hists : ι → Histogram
  data : ι → List (BitVec 32) := fun _ => []

namespace Family

inductive Label (ι : Type*) where
  | insert (i : ι) (datum : BitVec 32)
  /-- `hists[i].Merge(hists[j])`. -/
  | merge (i j : ι)

variable {ι : Type*} [DecidableEq ι]

def set (s : Family ι) (i : ι) (h : Histogram) (xs : List (BitVec 32)) : Family ι where
  hists := Function.update s.hists i h
  data := Function.update s.data i xs

def step (s : Family ι) : Label ι → Option (Family ι)
  | .insert i datum => ((s.hists i).Insert datum).map fun h => s.set i h (s.data i ++ [datum])
  | .merge i j => ((s.hists i).Merge (s.hists j)).map fun h => s.set i h (s.data i ++ s.data j)

/-- All histograms begin with the buckets of `h₀` and without data. -/
def machine (ι : Type*) [DecidableEq ι] (h₀ : Histogram) : Machine (Family ι) (Label ι) where
  start s := ∀ i, h₀.SameBounds (s.hists i) ∧ (s.hists i).Zero ∧ s.data i = []
  step := step

variable {h₀ : Histogram} {s t : Family ι} {l : Label ι}

/-- The step is a merge of two histograms with different maxima. -/
def Lowers (s : Family ι) : Label ι → Prop
  | .insert _ _ => False
  | .merge i j => (s.hists i).max_ ≠ (s.hists j).max_

/-- Each histogram is related to its data. -/
def All (P : Histogram → List (BitVec 32) → Prop) (s : Family ι) : Prop :=
  ∀ i, P (s.hists i) (s.data i)

theorem All.set {P : Histogram → List (BitVec 32) → Prop} {i : ι} (hall : s.All P) (hi : P h xs) :
    (s.set i h xs).All P := by
  intro j
  obtain rfl | hj := eq_or_ne j i
  · simpa [Family.set] using hi
  · simpa [Family.set, hj] using hall j

/-- Every histogram has the buckets of `h₀`, and all but the maxima is that of the data. -/
def Inv (h₀ : Histogram) (s : Family ι) : Prop := s.All fun h xs => h₀.SameBounds h ∧ h.Counts xs

/-- Every histogram is that of its data. -/
def Exact (s : Family ι) : Prop := s.All Holds

variable (hn : 1 ≤ h₀.n) (hlt : h₀.n < 2 ^ 30)

include hn hlt

theorem insert_spec (hs : Inv h₀ s) (i : ι) (datum : BitVec 32) :
    ∃ h, (machine ι h₀).step s (.insert i datum) = some (s.set i h (s.data i ++ [datum])) ∧
      (s.hists i).Grown [datum] h := by
  rw [(hs i).1.n_eq] at hn hlt
  obtain ⟨h, hinsert, hgrown⟩ := Insert_grown hn (.of_le hn hlt.le datum)
  exact ⟨h, by simp [machine, step, hinsert], hgrown⟩

theorem merge_spec (hs : Inv h₀ s) (i j : ι) :
    ∃ h, (machine ι h₀).step s (.merge i j) = some (s.set i h (s.data i ++ s.data j)) ∧
      Merged (s.hists i) (s.hists j) h := by
  have hsize : (s.hists i).n = (s.hists j).n := (hs i).1.n_eq.symm.trans (hs j).1.n_eq
  rw [(hs i).1.n_eq] at hn hlt
  obtain ⟨h, hmerge, hmerged⟩ := Merge_spec hlt hn hsize
  exact ⟨h, by simp [machine, step, hmerge], hmerged⟩

theorem Inv.enabled (h : Inv h₀ s) (l : Label ι) : ((machine ι h₀).step s l).isSome = true := by
  cases l with
  | insert i datum =>
    obtain ⟨_, hst, -⟩ := insert_spec hn hlt h i datum
    exact Option.isSome_of_eq_some hst
  | merge i j =>
    obtain ⟨_, hst, -⟩ := merge_spec hn hlt h i j
    exact Option.isSome_of_eq_some hst

theorem Inv.step (h : Inv h₀ s) (hst : (machine ι h₀).step s l = some t) : Inv h₀ t := by
  cases l with
  | insert i datum =>
    obtain ⟨h', hst', hgrown⟩ := insert_spec hn hlt h i datum
    obtain rfl := Option.some.inj (hst'.symm.trans hst)
    obtain ⟨hbounds, hcounts⟩ := h i
    exact All.set h ⟨hbounds.trans hgrown.bounds, hcounts.grow hgrown⟩
  | merge i j =>
    obtain ⟨h', hst', hmerged⟩ := merge_spec hn hlt h i j
    obtain rfl := Option.some.inj (hst'.symm.trans hst)
    obtain ⟨hbounds, hcounts⟩ := h i
    have hab := hbounds.symm.trans (h j).1
    exact All.set h ⟨hbounds.trans hmerged.bounds, hcounts.merge (h j).2 hab hmerged⟩

/-- As long as all maxima are right, a step keeps them so exactly if it does not lower one. -/
theorem Exact.step_iff (h : Inv h₀ s) (hexact : s.Exact) (hst : (machine ι h₀).step s l = some t) :
    t.Exact ↔ ¬ s.Lowers l := by
  cases l with
  | insert i datum =>
    obtain ⟨h', hst', hgrown⟩ := insert_spec hn hlt h i datum
    obtain rfl := Option.some.inj (hst'.symm.trans hst)
    exact iff_of_true (All.set hexact ((hexact i).grow hgrown)) not_false
  | merge i j =>
    obtain ⟨h', hst', hmerged⟩ := merge_spec hn hlt h i j
    obtain rfl := Option.some.inj (hst'.symm.trans hst)
    have hab := (h i).1.symm.trans (h j).1
    have hholds := hmerged.holds_iff hab (hexact i) (hexact j)
    have hpeaks : (s.hists i).max_ = (s.hists j).max_ ↔ peak (s.data i) = peak (s.data j) := by
      rw [← (hexact i).max, ← (hexact j).max, BitVec.toNat_inj]
    rw [Lowers, not_not, hpeaks, ← hholds]
    refine ⟨fun ht => ?_, fun hi => All.set hexact hi⟩
    simpa [Family.set] using ht i

/-- Every operation of a run goes through. A histogram has the counters, the count and the total
that the data it has got would have given it in any order, and all maxima are right throughout
exactly if no two histograms with different maxima are merged. -/
theorem merges_tallied {tr : List (Family ι × Label ι)} (hs : (machine ι h₀).start s)
    (htr : (machine ι h₀).Trace s tr t) :
    (∀ l, ((machine ι h₀).step t l).isSome = true) ∧
    (∀ i xs, (t.data i).Perm xs → (t.hists i).Counts xs) ∧
    ((∀ u ∈ Machine.visited tr t, u.Exact) ↔ ∀ p ∈ tr, ¬ p.1.Lowers p.2) := by
  have hstart : Inv h₀ s := by
    intro i
    obtain ⟨hbounds, hzero, hdata⟩ := hs i
    exact ⟨hbounds, hdata ▸ hzero.counts⟩
  have hexact : s.Exact := by
    intro i
    obtain ⟨-, hzero, hdata⟩ := hs i
    exact holds_iff_counts.mpr ⟨(hstart i).2, by simp [hdata, hzero.max, peak]⟩
  have hinv : Inv h₀ t := htr.keep (fun _ _ _ h hst => Inv.step hn hlt h hst) hstart
  have hkeep : ∀ u l v, (Inv h₀ u ∧ u.Exact) → ¬ u.Lowers l → (machine ι h₀).step u l = some v →
      Inv h₀ v ∧ v.Exact := by
    rintro u l v ⟨hu, hexact⟩ hok hst
    exact ⟨hu.step hn hlt hst, (hexact.step_iff hn hlt hu hst).mpr hok⟩
  have hspoil : ∀ u l v, (Inv h₀ u ∧ u.Exact) → ¬¬ u.Lowers l →
      (machine ι h₀).step u l = some v → ¬ v.Exact := by
    rintro u l v ⟨hu, hexact⟩ hbad hst hv
    exact hbad ((hexact.step_iff hn hlt hu hst).mp hv)
  exact ⟨hinv.enabled hn hlt, fun i xs hperm => (hinv i).2.perm hperm,
    htr.forall_visited_iff (fun _ h => h.2) hkeep hspoil ⟨hstart, hexact⟩⟩

omit hn hlt

/-- What has seen 25 is merged into what has seen 15. -/
theorem merges_tallied_mixed : ∃ (tr : List (Family ℕ × Label ℕ)) (t : Family ℕ),
    (machine ℕ twoBuckets).Trace { hists := fun _ => twoBuckets } tr t ∧
    tr.map Prod.snd = [.insert 0 15, .insert 1 25, .merge 0 1] ∧
    (t.hists 0).Counts [25, 15] ∧ ¬ ∀ u ∈ Machine.visited tr t, u.Exact := by
  have hrun : ((machine ℕ twoBuckets).run { hists := fun _ => twoBuckets }
      [.insert 0 15, .insert 1 25]).any (fun u => (u.hists 0).max_ ≠ (u.hists 1).max_ ∧
        ((machine ℕ twoBuckets).step u (.merge 0 1)).any fun t => t.data 0 = [15, 25]) = true := by
    decide +kernel
  obtain ⟨u, hu, hne, hmerge⟩ := Machine.exists_of_run hrun
  obtain ⟨t, ht, hdata⟩ := (Option.any_eq_true _ _).mp hmerge
  obtain ⟨tr, htr, hls⟩ := Machine.Trace.of_run hu
  have hstart : (machine ℕ twoBuckets).start { hists := fun _ => twoBuckets } := fun _ =>
    ⟨.refl _, construct_zero (by decide) fun _ _ => rfl, rfl⟩
  obtain ⟨-, hcounts, hiff⟩ := merges_tallied (by decide) (by decide) hstart (htr.snoc ht)
  refine ⟨_, t, htr.snoc ht, by rw [List.map_append, hls]; rfl, hcounts 0 _ ?_, ?_⟩
  · rw [of_decide_eq_true hdata]
    exact .swap ..
  · intro hall
    exact hiff.mp hall (u, .merge 0 1) (List.mem_append_right _ (List.mem_singleton_self _)) hne

end Family

end Histogram

end QStorage.Tools
