import Mathlib.Data.List.Range
import Mathlib.Tactic.Ring

/-!
# Lists cut into parts

A list is cut into parts of at most `n` elements, all but the last of them full. A part is of any
type; a relation says what the part with given offset and elements looks like.

## Main results

* `Chunks.flatMap_eq` — the parts hold the list, in order.
* `Chunks.map_eq_range` — where the parts begin and how long they are depends on the length only.
-/

namespace QStorage.Lib

variable {α β π : Type*} {n : ℕ}

/-- The parts hold the list `A`, which starts at `off`. -/
def Chunks (n : ℕ) (isPart : ℕ → List α → π → Prop) : ℕ → List α → List π → Prop
  | _, A, [] => A = []
  | off, A, p :: ps => ∃ B C, A = B ++ C ∧ isPart off B p ∧ B.length ≤ n ∧
      (ps ≠ [] → B.length = n ∧ C ≠ []) ∧ Chunks n isPart (off + B.length) C ps

namespace Chunks

variable {isPart : ℕ → List α → π → Prop} {off : ℕ} {A : List α} {ps : List π}

/-- The list is one part. -/
theorem single {p : π} (h : isPart off A p) (hlen : A.length ≤ n) : Chunks n isPart off A [p] :=
  ⟨A, [], by simp, h, hlen, by simp, rfl⟩

theorem flatMap_eq {f : π → List α} (hpart : ∀ off B p, isPart off B p → f p = B)
    (h : Chunks n isPart off A ps) : ps.flatMap f = A := by
  induction ps generalizing off A with
  | nil => exact h.symm
  | cons p ps ih =>
    obtain ⟨B, C, rfl, hp, -, -, hps⟩ := h
    rw [List.flatMap_cons, hpart off B p hp, ih hps]

/-- What holds of every part, its offset and its elements. The offset and the length of a part are
multiples of what divides the size of the parts, the offset and the length of the list. -/
theorem forall_mem {d : ℕ} {Q : π → Prop} (hn : d ∣ n) (hoff : d ∣ off) (hA : d ∣ A.length)
    (hpart : ∀ o B p, isPart o B p → B.length ≤ n → d ∣ o → d ∣ B.length →
      o + B.length ≤ off + A.length → Q p)
    (h : Chunks n isPart off A ps) : ∀ p ∈ ps, Q p := by
  induction ps generalizing off A with
  | nil => simp
  | cons p ps ih =>
    obtain ⟨B, C, rfl, hp, hle, hfull, hps⟩ := h
    rw [List.length_append] at hA hpart
    have hB : d ∣ B.length := by
      cases ps with
      | nil =>
        obtain rfl : C = [] := hps
        exact hA
      | cons q qs => exact (hfull (by simp)).1 ▸ hn
    have hC : d ∣ C.length := (Nat.dvd_add_right hB).mp hA
    intro q hq
    rcases List.mem_cons.mp hq with rfl | hq
    · exact hpart off B q hp hle hoff hB (by omega)
    · refine ih (Nat.dvd_add hoff hB) hC ?_ hps q hq
      intro o B' p' hp' hle' ho hB' hend
      exact hpart o B' p' hp' hle' ho hB' (by omega)

/-- A part of a list that is not empty is not empty. -/
theorem ne_nil {Q : π → Prop} (hn : 0 < n) (hA : A ≠ [])
    (hpart : ∀ o B p, isPart o B p → B ≠ [] → Q p)
    (h : Chunks n isPart off A ps) : ∀ p ∈ ps, Q p := by
  induction ps generalizing off A with
  | nil => simp
  | cons p ps ih =>
    obtain ⟨B, C, rfl, hp, hle, hfull, hps⟩ := h
    intro q hq
    rcases List.mem_cons.mp hq with rfl | hq
    · apply hpart off B q hp
      rintro rfl
      cases ps with
      | nil =>
        obtain rfl : C = [] := hps
        exact hA rfl
      | cons q qs => exact hn.ne (hfull (by simp)).1
    · exact ih (hfull (List.ne_nil_of_mem hq)).2 hps q hq

/-- A part stands behind the elements of the parts before it. -/
theorem getElem? {size : π → ℕ} {Q : ℕ → π → Prop}
    (hpart : ∀ o B p, isPart o B p → size p = B.length ∧ Q o p)
    (h : Chunks n isPart off A ps) {k : ℕ} {p : π} (hk : ps[k]? = some p) :
    Q (off + ((ps.take k).map size).sum) p := by
  induction ps generalizing off A k with
  | nil => simp at hk
  | cons q qs ih =>
    obtain ⟨B, C, -, hq, -, -, hqs⟩ := h
    obtain ⟨hsize, hQ⟩ := hpart off B q hq
    cases k with
    | zero =>
      obtain rfl : q = p := by simpa using hk
      exact hQ
    | succ k =>
      have hrest := ih hqs (by simpa using hk)
      rw [List.take_succ_cons, List.map_cons, List.sum_cons, hsize, ← Nat.add_assoc]
      exact hrest

/-- The parts that have the same elements mapped. -/
theorem map {isPart' : ℕ → List β → π → Prop} (f : α → β)
    (hpart : ∀ o B p, p ∈ ps → isPart o B p → isPart' o (B.map f) p)
    (h : Chunks n isPart off A ps) : Chunks n isPart' off (A.map f) ps := by
  induction ps generalizing off A with
  | nil =>
    obtain rfl : A = [] := h
    rfl
  | cons p ps ih =>
    obtain ⟨B, C, rfl, hp, hle, hfull, hps⟩ := h
    refine ⟨B.map f, C.map f, List.map_append, hpart off B p (by simp) hp, by simpa using hle,
      ?_, ?_⟩
    · simpa using hfull
    · rw [List.length_map]
      exact ih (fun o B q hq => hpart o B q (List.mem_cons_of_mem _ hq)) hps

/-- As many parts as it takes, each as long as the list allows. -/
theorem map_eq_range {γ : Type*} {g : π → γ} (f : ℕ → ℕ → γ) (hn : 0 < n) (hA : A ≠ [])
    (hpart : ∀ o B p, isPart o B p → g p = f o B.length) (h : Chunks n isPart off A ps) :
    ps.map g = (List.range ((A.length + n - 1) / n)).map fun i =>
      f (off + i * n) (min n (A.length - i * n)) := by
  induction ps generalizing off A with
  | nil => exact absurd h hA
  | cons p ps ih =>
    obtain ⟨B, C, rfl, hp, hle, hfull, hps⟩ := h
    rw [List.map_cons, hpart off B p hp]
    cases ps with
    | nil =>
      obtain rfl : C = [] := hps
      rw [List.append_nil] at hA ⊢
      have hpos := List.length_pos_iff.mpr hA
      have hone : (B.length + n - 1) / n = 1 := by
        rw [Nat.div_eq_iff hn]
        omega
      simp [hone, Nat.min_eq_right hle]
    | cons q qs =>
      obtain ⟨hB, hC⟩ := hfull (by simp)
      have hpos := List.length_pos_iff.mpr hC
      have hcount : ((B ++ C).length + n - 1) / n = (C.length + n - 1) / n + 1 := by
        rw [List.length_append, hB, show n + C.length + n - 1 = C.length + n - 1 + n by omega,
          Nat.add_div_right _ hn]
      rw [ih hC hps, hcount, List.range_succ_eq_map, List.map_cons, List.map_map, hB,
        List.length_append, hB]
      congr 1
      · congr 1 <;> simp
      · apply List.map_congr_left
        intro i _
        have hnext : (i + 1) * n = n + i * n := by ring
        simp only [Function.comp_apply, Nat.succ_eq_add_one, hnext]
        congr 1 <;> omega

end Chunks

end QStorage.Lib
