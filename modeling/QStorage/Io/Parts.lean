import QStorage.Io.Split
import Mathlib.Algebra.BigOperators.Ring.List

/-!
# The parts of a request

Both splitters cut their bytes into chunks of `max_length`. What the parts look like, where they
begin and how long they are is read off the chunks.

## Main results

* `splitIovec_streams` — the parts of a vectored request hold its bytes in order.
* `split_same_places` — the two splitters cut at the same places.
* `split_aligned` — what is aligned in a request is aligned in its parts.
-/

namespace QStorage.Io

open QStorage.Lib

variable {max_length : ℕ}

/-- The bytes of some buffers. -/
def totalLen (vs : List Iovec) : ℕ := (vs.map fun v => v.iov_len.toNat).sum

theorem length_flatMap_bytes (vs : List Iovec) : (vs.flatMap Iovec.bytes).length = totalLen vs := by
  simp [List.length_flatMap, totalLen]

theorem length_flatMap_addrs (vs : List Iovec) : (vs.flatMap Iovec.addrs).length = totalLen vs := by
  simp [List.length_flatMap, totalLen]

theorem dvd_totalLen {A : ℕ} {vs : List Iovec} (h : ∀ v ∈ vs, A ∣ v.iov_len.toNat) :
    A ∣ totalLen vs := by
  apply List.dvd_sum
  simpa using h

theorem ReadOp.splitBuffer_chunks (op : ReadOp) {fuel : ℕ} {parts : List IoPart}
    (h : op.SplitBuffer fuel max_length = .ok parts) :
    Chunks max_length op.IsPart 0 (List.range' op.addr.toNat op.size.toNat) parts := by
  simp only [SplitBuffer] at h
  split_ifs at h
  obtain ⟨ps, -, rfl, hps⟩ := op.splitBufferLoop_splits (Nat.zero_le _) h
  simpa using splits_iff.mp hps

/-- The loop without any condition on its buffers. -/
theorem ReadvOp.splitIovec_chunks (op : ReadvOp) {fuel : ℕ} {parts : List IoPart}
    (h : op.SplitIovec fuel max_length = .ok parts) :
    Chunks max_length (op.IsPiece fun _ => True) 0 op.bytes parts :=
  op.SplitIovec_chunks (Nat.one_dvd _) (fun _ _ => Nat.one_dvd _) (fun _ _ _ _ _ _ _ => trivial) h

/-! ## The byte stream -/

/-- The parts hold the bytes of the request in order. Each is a request of the same kind for the
bytes behind those of the parts before it. -/
structure ReadvOp.Streams (op : ReadvOp) (max_length : ℕ) (parts : List IoPart) : Prop where
  bytes : parts.flatMap (fun p => p.iovecs.flatMap Iovec.bytes) = op.bytes
  size : ∀ p ∈ parts, p.size = totalLen p.iovecs ∧ p.size ≤ max_length
  req : ∀ (k : ℕ) (p : IoPart), parts[k]? = some p → p.req = .readv_ { op with
    pos := op.pos + BitVec.ofNat 64 ((parts.take k).map IoPart.size).sum
    iovec := p.iovecs
    iov_len := p.iovecs.length }
  zero : ∀ p ∈ parts, p.size = 0 → totalLen (op.iovec.take op.iov_len) = 0

theorem ReadvOp.streams_of_chunks (op : ReadvOp) (hm : 1 ≤ max_length) {parts : List IoPart}
    (h : Chunks max_length (op.IsPiece fun _ => True) 0 op.bytes parts) :
    op.Streams max_length parts := by
  constructor
  · apply h.flatMap_eq
    rintro off B p ⟨vecs, -, rfl, rfl⟩
    rfl
  · refine h.forall_mem (d := 1) (Nat.one_dvd _) (Nat.one_dvd _) (Nat.one_dvd _) ?_
    rintro off B p ⟨vecs, -, rfl, rfl⟩ hle - - -
    exact ⟨length_flatMap_bytes vecs, hle⟩
  · intro k p hk
    have hpart : ∀ off B (p : IoPart), op.IsPiece (fun _ => True) off B p →
        p.size = B.length ∧ p.req = op.SubReqIovec off p.iovecs := by
      rintro off B p ⟨vecs, -, rfl, rfl⟩
      exact ⟨rfl, rfl⟩
    have hreq := h.getElem? hpart hk
    rw [hreq, Nat.zero_add, SubReqIovec]
  · intro p hp hzero
    by_contra htotal
    have hne : op.bytes ≠ [] := by
      rw [← List.length_pos_iff, ReadvOp.bytes, length_flatMap_bytes]
      omega
    refine h.ne_nil (Q := fun p => p.size ≠ 0) hm hne ?_ p hp hzero
    rintro off B p ⟨vecs, -, rfl, rfl⟩ hB
    exact (List.length_pos_iff.mpr hB).ne'

/-- `SplitIovec` returns, and its parts hold the byte stream of the request. -/
theorem splitIovec_streams (op : ReadvOp) (hm : 1 ≤ max_length) :
    (∃ N, ∀ fuel, N < fuel → ∃ parts, op.SplitIovec fuel max_length = .ok parts) ∧
    ∀ fuel parts, op.SplitIovec fuel max_length = .ok parts → op.Streams max_length parts :=
  ⟨⟨_, fun _ hfuel => op.splitIovecLoop_ends hm hfuel (by simp)⟩,
    fun _ _ hsplit => op.streams_of_chunks hm (op.splitIovec_chunks hsplit)⟩

/-- Buffers of four, no and five bytes in parts of three: the cuts fall inside the first buffer,
before the empty one and inside the last one. -/
def threeBuffers : ReadvOp :=
  { op := .readv, nowait_works := true, fd := 3, pos := 10
    iovec := [⟨100, 4⟩, ⟨200, 0⟩, ⟨300, 5⟩], iov_len := 3, op_vectored := .inl rfl }

theorem splitIovec_streams_three :
    (∃ N, ∀ fuel, N < fuel → ∃ parts, threeBuffers.SplitIovec fuel 3 = .ok parts) ∧
    ∀ fuel parts, threeBuffers.SplitIovec fuel 3 = .ok parts → threeBuffers.Streams 3 parts :=
  splitIovec_streams threeBuffers (by decide)

/-! ## Where the cuts are -/

def IoRequest.pos : IoRequest → BitVec 64
  | .read_ op => op.pos
  | .readv_ op => op.pos
  | .other _ _ => 0

/-- The file position and the size of a part. -/
def IoPart.place (p : IoPart) : BitVec 64 × ℕ := (p.req.pos, p.size)

/-- The places of the parts of `total` bytes from `pos` on. -/
def places (max_length : ℕ) (pos : BitVec 64) (total : ℕ) : List (BitVec 64 × ℕ) :=
  (List.range ((total + max_length - 1) / max_length)).map fun i =>
    (pos + BitVec.ofNat 64 (i * max_length), min max_length (total - i * max_length))

theorem ReadOp.places_of_chunks (op : ReadOp) (hm : 1 ≤ max_length) (hsize : 0 < op.size.toNat)
    {parts : List IoPart}
    (h : Chunks max_length op.IsPart 0 (List.range' op.addr.toNat op.size.toNat) parts) :
    parts.map IoPart.place = places max_length op.pos op.size.toNat := by
  have hne : List.range' op.addr.toNat op.size.toNat ≠ [] := by
    rw [ne_eq, List.range'_eq_nil_iff]
    omega
  have hplaces := h.map_eq_range (g := IoPart.place)
    (fun off len => (op.pos + BitVec.ofNat 64 off, len)) hm hne (by
      rintro off B p ⟨-, rfl⟩
      rfl)
  simpa [places] using hplaces

theorem ReadvOp.places_of_chunks (op : ReadvOp) (hm : 1 ≤ max_length)
    (htotal : 0 < totalLen (op.iovec.take op.iov_len)) {parts : List IoPart}
    (h : Chunks max_length (op.IsPiece fun _ => True) 0 op.bytes parts) :
    parts.map IoPart.place = places max_length op.pos (totalLen (op.iovec.take op.iov_len)) := by
  have hlen : op.bytes.length = totalLen (op.iovec.take op.iov_len) := length_flatMap_bytes _
  have hne : op.bytes ≠ [] := List.length_pos_iff.mp (by omega)
  have hplaces := h.map_eq_range (g := IoPart.place)
    (fun off len => (op.pos + BitVec.ofNat 64 off, len)) hm hne (by
      rintro off B p ⟨vecs, -, rfl, rfl⟩
      rfl)
  simpa [places, hlen] using hplaces

/-- Both splitters return, and they cut at the same places. -/
theorem split_same_places (op : ReadvOp) (flat : ReadOp) (hm : 1 ≤ max_length)
    (hpos : flat.pos = op.pos) (hsize : flat.size.toNat = totalLen (op.iovec.take op.iov_len))
    (htotal : 0 < totalLen (op.iovec.take op.iov_len)) :
    (∃ N, ∀ fuel, N < fuel → ∃ parts parts', op.SplitIovec fuel max_length = .ok parts ∧
      flat.SplitBuffer fuel max_length = .ok parts') ∧
    ∀ fuel fuel' parts parts', op.SplitIovec fuel max_length = .ok parts →
      flat.SplitBuffer fuel' max_length = .ok parts' →
      parts.map IoPart.place = parts'.map IoPart.place ∧
        parts.map IoPart.place =
          places max_length op.pos (totalLen (op.iovec.take op.iov_len)) := by
  constructor
  · have hvectored : (IoRequest.readv_ op).OpType ∈ [.read, .write, .readv, .writev] := by
      rcases op.op_vectored with h | h <;> simp [IoRequest.OpType, h]
    have hflat : (IoRequest.read_ flat).OpType ∈ [.read, .write, .readv, .writev] := by
      rcases flat.op_flat with h | h <;> simp [IoRequest.OpType, h]
    obtain ⟨N, hN⟩ := split_ends hm hvectored
    obtain ⟨N', hN'⟩ := split_ends hm hflat
    refine ⟨max N N', fun fuel hfuel => ?_⟩
    obtain ⟨parts, hparts⟩ := hN fuel (by omega)
    obtain ⟨parts', hparts'⟩ := hN' fuel (by omega)
    exact ⟨parts, parts', hparts, hparts'⟩
  · intro fuel fuel' parts parts' hsplit hsplit'
    have hvectored := op.places_of_chunks hm htotal (op.splitIovec_chunks hsplit)
    have hflat := flat.places_of_chunks hm (by omega) (flat.splitBuffer_chunks hsplit')
    rw [hpos, hsize] at hflat
    exact ⟨hvectored.trans hflat.symm, hvectored⟩

/-- The same nine bytes in one buffer. -/
def oneBuffer : ReadOp :=
  { op := .read, nowait_works := true, fd := 3, pos := 10, addr := 100, size := 9
    op_flat := .inl rfl }

theorem split_same_places_nine :
    (∃ N, ∀ fuel, N < fuel → ∃ parts parts', threeBuffers.SplitIovec fuel 3 = .ok parts ∧
      oneBuffer.SplitBuffer fuel 3 = .ok parts') ∧
    ∀ fuel fuel' parts parts', threeBuffers.SplitIovec fuel 3 = .ok parts →
      oneBuffer.SplitBuffer fuel' 3 = .ok parts' →
      parts.map IoPart.place = parts'.map IoPart.place ∧
        parts.map IoPart.place = [(10, 3), (13, 3), (16, 3)] :=
  split_same_places threeBuffers oneBuffer (by decide) rfl (by decide) (by decide)

/-! ## Alignment -/

/-- The position, the addresses and the lengths are multiples of `A`. -/
def IoRequest.Aligned (A : ℕ) : IoRequest → Prop
  | .read_ op => A ∣ op.pos.toNat ∧ A ∣ op.addr.toNat ∧ A ∣ op.size.toNat
  | .readv_ op => A ∣ op.pos.toNat ∧
      ∀ v ∈ op.iovec.take op.iov_len, A ∣ v.iov_base.toNat ∧ A ∣ v.iov_len.toNat
  | .other _ _ => True

instance (A : ℕ) : ∀ req : IoRequest, Decidable (req.Aligned A)
  | .read_ _ => inferInstanceAs (Decidable (_ ∧ _))
  | .readv_ _ => inferInstanceAs (Decidable (_ ∧ _))
  | .other _ _ => inferInstanceAs (Decidable True)

structure IoPart.Aligned (A : ℕ) (p : IoPart) : Prop where
  req : p.req.Aligned A
  size : A ∣ p.size
  iovecs : ∀ v ∈ p.iovecs, A ∣ v.iov_base.toNat ∧ A ∣ v.iov_len.toNat

/-- A word moved by a multiple, unless it wraps around at a number that is none. -/
theorem dvd_toNat_add {A off : ℕ} {x : BitVec 64} (hwrap : A ∣ 2 ^ 64 ∨ x.toNat + off ≤ 2 ^ 64)
    (hx : A ∣ x.toNat) (hoff : A ∣ off) : A ∣ (x + BitVec.ofNat 64 off).toNat := by
  have hsum : A ∣ x.toNat + off := Nat.dvd_add hx hoff
  rw [BitVec.toNat_add, BitVec.toNat_ofNat, Nat.add_mod_mod]
  rcases hwrap with hpow | hle
  · exact (Nat.dvd_mod_iff hpow).mpr hsum
  · rcases hle.lt_or_eq with hlt | heq
    · rwa [Nat.mod_eq_of_lt hlt]
    · rw [heq, Nat.mod_self]
      exact Nat.dvd_zero A

theorem dvd_toNat_ofNat {A n : ℕ} (hn : n < 2 ^ 64) (h : A ∣ n) :
    A ∣ (BitVec.ofNat 64 n).toNat := by
  rwa [BitVec.toNat_ofNat, Nat.mod_eq_of_lt hn]

theorem ReadOp.aligned_of_chunks (op : ReadOp) {A : ℕ} (hmax : A ∣ max_length)
    (haligned : (IoRequest.read_ op).Aligned A) (hwrap : A ∣ 2 ^ 64 ∨ (IoRequest.read_ op).Fits)
    {parts : List IoPart}
    (h : Chunks max_length op.IsPart 0 (List.range' op.addr.toNat op.size.toNat) parts) :
    ∀ p ∈ parts, p.Aligned A := by
  obtain ⟨hpos, haddr, hsize⟩ := haligned
  have hlt := op.size.isLt
  refine h.forall_mem hmax (Nat.dvd_zero A) (by simpa using hsize) ?_
  rintro off B p ⟨-, rfl⟩ - hoff hB hend
  rw [Nat.zero_add, List.length_range'] at hend
  refine ⟨⟨?_, ?_, dvd_toNat_ofNat (by omega) hB⟩, hB, by simp⟩
  · exact dvd_toNat_add (hwrap.imp_right fun hfits => by have := hfits.1; omega) hpos hoff
  · exact dvd_toNat_add (hwrap.imp_right fun hfits => by have := hfits.2; omega) haddr hoff

theorem ReadvOp.aligned_of_split (op : ReadvOp) {A fuel : ℕ} (hmax : A ∣ max_length)
    (haligned : (IoRequest.readv_ op).Aligned A) (hwrap : A ∣ 2 ^ 64 ∨ (IoRequest.readv_ op).Fits)
    {parts : List IoPart} (hsplit : op.SplitIovec fuel max_length = .ok parts) :
    ∀ p ∈ parts, p.Aligned A := by
  obtain ⟨hpos, hiovec⟩ := haligned
  have hlen : op.bytes.length = totalLen (op.iovec.take op.iov_len) := length_flatMap_bytes _
  have hdvd : A ∣ op.bytes.length := by
    rw [hlen]
    exact dvd_totalLen fun v hv => (hiovec v hv).2
  have hchunks := op.SplitIovec_chunks
    (Q := fun w => A ∣ w.iov_base.toNat ∧ A ∣ w.iov_len.toNat) hmax
    (fun v hv => (hiovec v hv).2) (by
      intro v hv o n ho hn hle
      rw [v.toNat_fragment_len hle]
      refine ⟨dvd_toNat_add (hwrap.imp_right fun hfits => ?_) (hiovec v hv).1 ho, hn⟩
      have hfit := hfits.2 v hv
      omega) hsplit
  refine hchunks.forall_mem hmax (Nat.dvd_zero A) hdvd ?_
  rintro off B p ⟨vecs, hvecs, rfl, rfl⟩ - hoff hB hend
  refine ⟨⟨?_, ?_⟩, hB, hvecs⟩
  · refine dvd_toNat_add (hwrap.imp_right fun hfits => ?_) hpos hoff
    have hfit := hfits.1
    rw [ReadvOp.addrs, length_flatMap_addrs] at hfit
    omega
  · intro v hv
    exact hvecs v (List.mem_of_mem_take hv)

/-- What `Split` returns of an aligned request is aligned, if `A` divides the `2 ^ 64` at which
positions and addresses wrap around, or if none of the request's does. -/
theorem split_aligned {req : IoRequest} {A fuel : ℕ} (hmax : A ∣ max_length)
    (haligned : req.Aligned A) (hwrap : A ∣ 2 ^ 64 ∨ req.Fits) {parts : List IoPart}
    (hsplit : req.Split fuel max_length = .ok parts) : ∀ p ∈ parts, p.Aligned A := by
  cases req with
  | read_ op => exact op.aligned_of_chunks hmax haligned hwrap (op.splitBuffer_chunks hsplit)
  | readv_ op => exact op.aligned_of_split hmax haligned hwrap hsplit
  | other op _ => simp [IoRequest.Split] at hsplit

/-- Two pages and one more. -/
def twoPages : IoRequest := .readv_
  { op := .writev, nowait_works := false, fd := 3, pos := 8192
    iovec := [⟨4096, 8192⟩, ⟨65536, 4096⟩], iov_len := 2, op_vectored := .inr rfl }

/-- In parts of two pages, at the alignment of direct I/O. -/
theorem split_aligned_pages :
    ∃ parts, twoPages.Split 10 8192 = .ok parts ∧ ∀ p ∈ parts, p.Aligned 4096 :=
  ⟨_, rfl, split_aligned (show 4096 ∣ 8192 by decide) (show twoPages.Aligned 4096 by decide)
    (.inl (by decide)) (show twoPages.Split 10 8192 = .ok _ from rfl)⟩

/-- A position that is a multiple of three wraps around to one that is not. -/
theorem not_split_aligned : ¬ ∀ (A max_length : ℕ) (req : IoRequest), 1 ≤ A → 1 ≤ max_length →
    A ∣ max_length → req.OpType ∈ [.read, .write, .readv, .writev] → req.Aligned A →
    ∀ fuel parts, req.Split fuel max_length = .ok parts → ∀ p ∈ parts, p.Aligned A := by
  intro h
  let op : ReadOp :=
    { op := .read, nowait_works := true, fd := 3, pos := BitVec.ofNat 64 (2 ^ 64 - 1), addr := 0
      size := 6, op_flat := .inl rfl }
  have haligned := h 3 3 (.read_ op) (by decide) (by decide) (by decide) (by decide) (by decide)
    3 _ rfl ⟨op.SubReqBuffer 3 3, 3, []⟩ (by decide)
  have hpos := haligned.req.1
  revert hpos
  decide

end QStorage.Io
