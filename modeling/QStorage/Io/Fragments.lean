import QStorage.Io.IoRequest
import QStorage.Lib.Chunks

/-!
# Cutting buffers

`SplitIovec` copies its buffers to the parts, cutting a buffer where a part is full. A buffer is
the list of its bytes' addresses, which wrap around at `2 ^ 64`; what a part gets of it is a
fragment. `Cutting` is the invariant of the loop.

## Main results

* `ReadvOp.Cutting.take`, `ReadvOp.Cutting.cut` — the two branches of the loop keep the invariant.
* `ReadvOp.splitIovecLoop_chunks` — the parts are chunks of the bytes of the buffers.
-/

namespace QStorage.Io

open QStorage.Lib

variable {max_length : ℕ}

/-- The addresses of a buffer's bytes, in order. -/
def Iovec.bytes (v : Iovec) : List (BitVec 64) :=
  (List.range v.iov_len.toNat).map fun k => v.iov_base + BitVec.ofNat 64 k

/-- `n` bytes of a buffer, from byte `off` on. -/
def Iovec.fragment (v : Iovec) (off n : ℕ) : Iovec :=
  ⟨v.iov_base + BitVec.ofNat 64 off, BitVec.ofNat 64 n⟩

section Buffer

variable (v : Iovec) {off n : ℕ}

@[simp] theorem Iovec.length_bytes : v.bytes.length = v.iov_len.toNat := by
  simp [bytes]

theorem Iovec.toNat_fragment_len (h : off + n ≤ v.iov_len.toNat) :
    (v.fragment off n).iov_len.toNat = n := by
  have hlt := v.iov_len.isLt
  exact (BitVec.toNat_ofNat n 64).trans (Nat.mod_eq_of_lt (by omega))

theorem Iovec.bytes_fragment (h : off + n ≤ v.iov_len.toNat) :
    (v.fragment off n).bytes = (v.bytes.drop off).take n := by
  apply List.ext_getElem
  · rw [length_bytes, v.toNat_fragment_len h, List.length_take, List.length_drop, length_bytes]
    omega
  · intro k _ _
    simp [bytes, fragment, BitVec.add_assoc, BitVec.ofNat_add]

/-- What is left of a buffer. -/
theorem Iovec.bytes_fragment_rest (h : off ≤ v.iov_len.toNat) :
    (v.fragment off (v.iov_len.toNat - off)).bytes = v.bytes.drop off := by
  rw [v.bytes_fragment (by omega), List.take_of_length_le (by simp)]

end Buffer

namespace ReadvOp

/-- The bytes of a vectored request. -/
def bytes (op : ReadvOp) : List (BitVec 64) := (op.iovec.take op.iov_len).flatMap Iovec.bytes

/-- The part whose buffers, all of which meet `Q`, hold the bytes `B`. -/
def IsPiece (op : ReadvOp) (Q : Iovec → Prop) (off : ℕ) (B : List (BitVec 64)) (p : IoPart) :
    Prop :=
  ∃ vecs, (∀ w ∈ vecs, Q w) ∧ B = vecs.flatMap Iovec.bytes ∧
    p = ⟨op.SubReqIovec off vecs, B.length, vecs⟩

/-- The loop with the buffers `cur` left, `off` bytes of the first of them already copied, and the
fragments `vecs` in a part that has room for `remaining` more bytes. Fragments begin and end at
multiples of `d` if the buffers do. -/
structure Cutting (d max_length : ℕ) (Q : Iovec → Prop) (cur : List Iovec) (remaining off : ℕ)
    (vecs : List Iovec) : Prop where
  off_le : ∀ v vs, cur = v :: vs → off ≤ v.iov_len.toNat
  filled : (vecs.flatMap Iovec.bytes).length + remaining = max_length
  max_dvd : d ∣ max_length
  len_dvd : ∀ v ∈ cur, d ∣ v.iov_len.toNat
  off_dvd : d ∣ off
  remaining_dvd : d ∣ remaining
  fragment : ∀ v ∈ cur, ∀ o n, d ∣ o → d ∣ n → o + n ≤ v.iov_len.toNat → Q (v.fragment o n)
  vecs_mem : ∀ w ∈ vecs, Q w

variable {d : ℕ} {Q : Iovec → Prop} {v : Iovec} {vs vecs : List Iovec} {remaining off : ℕ}

/-- What is left of the first buffer goes into the part. -/
theorem Cutting.take (h : Cutting d max_length Q (v :: vs) remaining off vecs)
    (hfits : v.iov_len.toNat - off ≤ remaining) :
    Cutting d max_length Q vs (remaining - (v.iov_len.toNat - off)) 0
      (vecs ++ [v.fragment off (v.iov_len.toNat - off)]) := by
  have hle := h.off_le v vs rfl
  have hrest := Nat.dvd_sub (h.len_dvd v (by simp)) h.off_dvd
  constructor
  · exact fun _ _ _ => Nat.zero_le _
  · have hfilled := h.filled
    rw [List.flatMap_append, List.flatMap_singleton, v.bytes_fragment_rest hle,
      List.length_append, List.length_drop, Iovec.length_bytes]
    omega
  · exact h.max_dvd
  · exact fun w hw => h.len_dvd w (List.mem_cons_of_mem _ hw)
  · exact Nat.dvd_zero d
  · exact Nat.dvd_sub h.remaining_dvd hrest
  · exact fun w hw => h.fragment w (List.mem_cons_of_mem _ hw)
  · intro w hw
    rcases List.mem_append.mp hw with hold | hnew
    · exact h.vecs_mem w hold
    · obtain rfl := List.mem_singleton.mp hnew
      exact h.fragment v (by simp) off _ h.off_dvd hrest (by omega)

/-- The part that is full, with what it took of the first buffer, and the loop that begins the
next one. -/
theorem Cutting.cut (h : Cutting d max_length Q (v :: vs) remaining off vecs)
    (hlong : remaining < v.iov_len.toNat - off) :
    let vecs' := if remaining > 0 then vecs ++ [v.fragment off remaining] else vecs
    (∀ w ∈ vecs', Q w) ∧
      vecs'.flatMap Iovec.bytes = vecs.flatMap Iovec.bytes ++ (v.bytes.drop off).take remaining ∧
      (vecs'.flatMap Iovec.bytes).length = max_length ∧
      Cutting d max_length Q (v :: vs) max_length (off + remaining) [] := by
  intro vecs'
  have hbytes : vecs'.flatMap Iovec.bytes =
      vecs.flatMap Iovec.bytes ++ (v.bytes.drop off).take remaining := by
    by_cases hsome : remaining > 0
    · simp only [vecs', if_pos hsome, List.flatMap_append, List.flatMap_singleton]
      rw [v.bytes_fragment (by omega)]
    · obtain rfl : remaining = 0 := by omega
      simp [vecs']
  refine ⟨?_, hbytes, ?_, ?_⟩
  · intro w hw
    by_cases hsome : remaining > 0
    · rw [show vecs' = _ from if_pos hsome] at hw
      rcases List.mem_append.mp hw with hold | hnew
      · exact h.vecs_mem w hold
      · obtain rfl := List.mem_singleton.mp hnew
        exact h.fragment v (by simp) off remaining h.off_dvd h.remaining_dvd (by omega)
    · rw [show vecs' = _ from if_neg hsome] at hw
      exact h.vecs_mem w hw
  · have hfilled := h.filled
    rw [hbytes, List.length_append, List.length_take, List.length_drop, Iovec.length_bytes]
    omega
  · refine { h with off_le := ?_, filled := by simp, off_dvd := ?_, remaining_dvd := h.max_dvd,
                    vecs_mem := by simp }
    · rintro w ws ⟨rfl, rfl⟩
      omega
    · exact Nat.dvd_add h.off_dvd h.remaining_dvd

theorem splitIovecLoop_chunks (op : ReadvOp) {fuel pos : ℕ} {cur : List Iovec}
    {parts res : List IoPart} (h : Cutting d max_length Q cur remaining off vecs)
    (hloop : op.splitIovecLoop max_length fuel cur remaining pos off vecs parts = .ok res) :
    ∃ ps, res = parts ++ ps ∧ Chunks max_length (op.IsPiece Q) pos
      (vecs.flatMap Iovec.bytes ++ (cur.flatMap Iovec.bytes).drop off) ps := by
  induction fuel generalizing cur remaining pos off vecs parts with
  | zero => simp [splitIovecLoop] at hloop
  | succ fuel ih =>
    cases cur with
    | nil =>
      have hfilled := h.filled
      simp only [splitIovecLoop] at hloop
      rw [List.flatMap_nil, List.drop_nil, List.append_nil]
      split_ifs at hloop with hany
      · obtain rfl := Except.ok.inj hloop
        have hlen : max_length - remaining = (vecs.flatMap Iovec.bytes).length := by omega
        rw [hlen]
        exact ⟨_, rfl, .single ⟨vecs, h.vecs_mem, rfl, rfl⟩ (by omega)⟩
      · obtain rfl := Except.ok.inj hloop
        obtain rfl : vecs = [] := by simpa using hany
        exact ⟨[], by simp, rfl⟩
    | cons v vs =>
      have hle := h.off_le v vs rfl
      have hsplit : ((v :: vs).flatMap Iovec.bytes).drop off =
          v.bytes.drop off ++ vs.flatMap Iovec.bytes := by
        rw [List.flatMap_cons, List.drop_append_of_le_length (by simpa using hle)]
      simp only [splitIovecLoop] at hloop
      by_cases hfits : v.iov_len.toNat - off ≤ remaining
      · rw [if_pos hfits] at hloop
        obtain ⟨ps, rfl, hps⟩ := ih (h.take hfits) hloop
        refine ⟨ps, rfl, ?_⟩
        rw [hsplit, ← List.append_assoc]
        rwa [List.flatMap_append, List.flatMap_singleton, v.bytes_fragment_rest hle,
          List.drop_zero] at hps
      · rw [if_neg hfits] at hloop
        obtain ⟨hmem, hbytes, hfull, hnext⟩ := h.cut (Nat.lt_of_not_le hfits)
        obtain ⟨ps, rfl, hps⟩ := ih hnext hloop
        -- the bytes that the full part took are the first of those that are left
        have hrest : ((v :: vs).flatMap Iovec.bytes).drop off = (v.bytes.drop off).take remaining ++
            ((v :: vs).flatMap Iovec.bytes).drop (off + remaining) := by
          have hshort : remaining ≤ (v.bytes.drop off).length := by
            rw [List.length_drop, Iovec.length_bytes]
            omega
          rw [← List.drop_drop, hsplit, List.drop_append_of_le_length hshort, ← List.append_assoc,
            List.take_append_drop]
        refine ⟨_ :: ps, by rw [List.append_assoc]; rfl, _,
          ((v :: vs).flatMap Iovec.bytes).drop (off + remaining), ?_, ⟨_, hmem, rfl, ?_⟩, hfull.le,
          fun _ => ⟨hfull, ?_⟩, ?_⟩
        · rw [hbytes, hrest, List.append_assoc]
        · rw [hfull]
          rfl
        · rw [ne_eq, List.drop_eq_nil_iff, List.flatMap_cons, List.length_append,
            Iovec.length_bytes]
          omega
        · rwa [hfull]

/-- The loop as `SplitIovec` enters it. -/
theorem SplitIovec_chunks (op : ReadvOp) {fuel : ℕ} {parts : List IoPart}
    (hmax : d ∣ max_length) (hlen : ∀ v ∈ op.iovec.take op.iov_len, d ∣ v.iov_len.toNat)
    (hfragment : ∀ v ∈ op.iovec.take op.iov_len, ∀ o n, d ∣ o → d ∣ n →
      o + n ≤ v.iov_len.toNat → Q (v.fragment o n))
    (hsplit : op.SplitIovec fuel max_length = .ok parts) :
    Chunks max_length (op.IsPiece Q) 0 op.bytes parts := by
  have hstart : Cutting d max_length Q (op.iovec.take op.iov_len) max_length 0 [] :=
    ⟨fun _ _ _ => Nat.zero_le _, by simp, hmax, hlen, Nat.dvd_zero d, hmax, hfragment, by simp⟩
  obtain ⟨ps, rfl, hps⟩ := op.splitIovecLoop_chunks hstart hsplit
  simpa [bytes] using hps

end ReadvOp

end QStorage.Io
