import QStorage.Tools.Histogram

/-!
# The words that `Insert` and `Merge` touch

Bounds and counters share one array. `Insert` reads bounds where it halves the window `[lo, hi]`,
whose ends may cross, and increments the counter `n` words behind the bound where it stops.

## Main results

* `Histogram.Insert_inserted` — the loop reads nothing but bounds, and which counter is incremented
  depends on these alone.
* `Histogram.bounds_kept` — no run of `Insert` and `Merge` changes a bound.
-/

namespace QStorage.Tools

namespace Histogram

variable {h h' : Histogram} {d : BitVec 32}

/-- Where another array agrees on what the loop reads, the loop does the same on it. -/
theorem searchLoop_reads {data_ data_' : ℤ → BitVec 32} {fuel : ℕ} {lo hi r : ℤ} {reads : List ℤ}
    (h : searchLoop data_ d fuel lo hi = some (r, reads))
    (hreads : ∀ i ∈ reads, data_ i = data_' i) :
    searchLoop data_' d fuel lo hi = some (r, reads) := by
  induction fuel generalizing lo hi reads with
  | zero => cases h
  | succ fuel ih =>
    rw [searchLoop] at h ⊢
    by_cases hwindow : lo < hi
    · simp only [if_pos hwindow, Option.map_eq_some_iff, Prod.mk.injEq] at h ⊢
      obtain ⟨⟨r', rest⟩, hrest, rfl, rfl⟩ := h
      obtain ⟨hmid, hothers⟩ := List.forall_mem_cons.mp hreads
      refine ⟨⟨r', rest⟩, ?_, rfl, rfl⟩
      rw [← hmid]
      split at hrest
      · next hless => rw [if_pos hless, ih hrest hothers]
      · next hless => rw [if_neg hless, ih hrest hothers]
    · rwa [if_neg hwindow] at h ⊢

/-- The bounds that `Insert` reads. -/
def reads (h : Histogram) (datum : BitVec 32) : List ℤ := (h.searched datum).elim [] Prod.snd

/-- The call ends with one counter incremented and no other word changed, and what it reads of the
array besides are bounds. -/
structure Inserted (h : Histogram) (d : BitVec 32) (h' : Histogram) : Prop where
  returns : h.Insert d = some h'
  reads : ∀ i ∈ h.reads d, 0 ≤ i ∧ i < h.n
  /-- Nothing else decides which counter it is. -/
  search : ∀ g : Histogram, g.n = h.n → (∀ i ∈ h.reads d, h.data_ i = g.data_ i) →
    h.search d = g.search d
  counter : ∃ i, h.n ≤ i ∧ i < 2 * h.n ∧
    h'.data_ = Function.update h.data_ i (h.data_ i + 1)

theorem Insert_inserted (hn : 1 ≤ h.n) (hlt : h.n < 2 ^ 30) (d : BitVec 32) :
    ∃ h', Inserted h d h' := by
  obtain ⟨hsearch, hpos, hbucket⟩ := search_eq hn d
  obtain ⟨r, reads, hloop, -, hmem⟩ := searched_spec hn d
  have hreads : h.reads d = reads := by rw [Histogram.reads, hloop, Option.elim]
  have hindex : int32 (h.bucket d + h.n) = some (h.bucket d + h.n) := if_pos (by omega)
  refine ⟨_, by rw [Insert, hsearch, Option.bind_eq_bind, Option.bind_some, hindex]; rfl,
    hreads ▸ hmem, ?_, h.bucket d + h.n, by omega, by omega, rfl⟩
  intro g hsize hsame
  rw [hreads] at hsame
  have hother : g.searched d = some (r, reads) := by
    rw [searched, hsize]
    exact searchLoop_reads hloop hsame
  rw [search, search, hloop, hother]

/-! ## Runs -/

inductive Op where
  | insert (datum : BitVec 32)
  | merge (other : Histogram)

def apply (h : Histogram) : Op → Option Histogram
  | .insert datum => h.Insert datum
  | .merge other => h.Merge other

/-- What is merged has `n` buckets. -/
def Op.OfSize (n : ℤ) : Op → Prop
  | .insert _ => True
  | .merge other => other.n = n

/-- What one operation preserves. -/
theorem apply_bounds (hn : 1 ≤ h.n) (hlt : h.n < 2 ^ 30) {op : Op} (hop : op.OfSize h.n) :
    ∃ h', h.apply op = some h' ∧ h.SameBounds h' := by
  cases op with
  | insert datum =>
    obtain ⟨h', hinsert, hgrown⟩ := Insert_grown hn (.of_le hn hlt.le datum)
    exact ⟨h', hinsert, hgrown.bounds⟩
  | merge other =>
    obtain ⟨h', hmerge, hmerged⟩ := Merge_spec hlt hn hop.symm
    exact ⟨h', hmerge, hmerged.bounds⟩

/-- Every `Insert` stays in its array. So no run of `Insert` and of `Merge` with histograms of the
same size changes a bound. -/
theorem bounds_kept (hn : 1 ≤ h.n) (hlt : h.n < 2 ^ 30) :
    (∀ d, ∃ h', Inserted h d h') ∧
    ∀ ops : List Op, (∀ op ∈ ops, op.OfSize h.n) →
      ∃ h', ops.foldlM apply h = some h' ∧ h.SameBounds h' := by
  refine ⟨Insert_inserted hn hlt, ?_⟩
  intro ops hops
  induction ops generalizing h with
  | nil => exact ⟨h, rfl, .refl h⟩
  | cons op ops ih =>
    obtain ⟨hop, hrest⟩ := List.forall_mem_cons.mp hops
    obtain ⟨h₁, hfst, hsame₁⟩ := apply_bounds hn hlt hop
    rw [hsame₁.n_eq] at hn hlt hrest
    obtain ⟨h₂, hall, hsame₂⟩ := ih hn hlt hrest
    refine ⟨h₂, ?_, hsame₁.trans hsame₂⟩
    rw [List.foldlM_cons, hfst]
    exact hall

/-- Bounds that do not increase. -/
def unsorted : Histogram := construct (fun _ => 0) [30, 10, 20]

theorem bounds_kept_unsorted :
    (∀ d, ∃ h', Inserted unsorted d h') ∧ ∃ h',
      [Op.insert 15, .merge unsorted, .insert 40].foldlM apply unsorted = some h' ∧
      unsorted.SameBounds h' := by
  have hkept := bounds_kept (h := unsorted) (by decide) (by decide)
  exact ⟨hkept.1, hkept.2 _ (by simp [Op.OfSize])⟩

end Histogram

end QStorage.Tools
