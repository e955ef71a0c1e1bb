import QStorage.Io.Parts
import QStorage.Lib.Pieces

/-!
# Splitting the parts again

Both loops of `Split` cut a list of buffers at every `max_length` bytes, where a flat request is
the list of its one buffer. So a part that is split again, for a device that takes less, gives
what the request itself would have been split into.

## Main results

* `IoRequest.split_chunked` — what the two loops return.
* `split_split` — splitting the parts at a divisor is splitting the request at the divisor.
-/

namespace QStorage.Io

open QStorage.Lib

variable {max_length m n off : ℕ} {v : Iovec} {vs : List Iovec}

theorem Iovec.fragment_all (v : Iovec) : v.fragment 0 v.iov_len.toNat = v := by
  simp [fragment]

theorem Iovec.fragment_fragment (v : Iovec) (off n off' n' : ℕ) :
    (v.fragment off n).fragment off' n' = v.fragment (off + off') n' := by
  simp [fragment, BitVec.ofNat_add, BitVec.add_assoc]

/-- Buffers are pieces of as many units as they have bytes. -/
@[simps] def iovecs : Pieces Iovec where
  len v := v.iov_len.toNat
  fragment := Iovec.fragment
  len_fragment v _ _ h := v.toNat_fragment_len h
  fragment_fragment := Iovec.fragment_fragment

/-- The buffers of a request. -/
def IoRequest.pieces : IoRequest → List Iovec
  | .read_ op => [⟨op.addr, op.size⟩]
  | .readv_ op => op.iovec.take op.iov_len
  | .other _ _ => []

/-- The part for a chunk of the buffers. -/
def IoRequest.part (req : IoRequest) (c : ℕ × List Iovec) : IoPart :=
  match req with
  | .read_ op => ⟨op.SubReqBuffer c.1 (iovecs.total c.2), iovecs.total c.2, []⟩
  | .readv_ op => ⟨op.SubReqIovec c.1 c.2, iovecs.total c.2, c.2⟩
  | .other .. => ⟨req, 0, []⟩

/-- `Split` returns the parts. -/
def IoRequest.SplitsInto (req : IoRequest) (max_length : ℕ) (parts : List IoPart) : Prop :=
  ∃ fuel, req.Split fuel max_length = .ok parts

/-! ## What the loops return -/

/-- The buffers that the vectored loop has yet to copy. -/
def left (off : ℕ) : List Iovec → List Iovec
  | [] => []
  | v :: vs => v.fragment off (v.iov_len.toNat - off) :: vs

@[simp] theorem left_zero (vs : List Iovec) : left 0 vs = vs := by
  cases vs with
  | nil => rfl
  | cons v vs => simp [left, Iovec.fragment_all]

/-- The buffers copied for the next part and those left over are cut into chunks. -/
theorem ReadvOp.splitIovecLoop_chunked (op : ReadvOp) {fuel remaining pos off : ℕ}
    {cur vecs : List Iovec} {parts res : List IoPart}
    (hroom : iovecs.total vecs + remaining = max_length)
    (hoff : ∀ v vs, cur = v :: vs → off ≤ v.iov_len.toNat)
    (h : op.splitIovecLoop max_length fuel cur remaining pos off vecs parts = .ok res) :
    ∃ cs, res = parts ++ cs.map (IoRequest.readv_ op).part ∧
      iovecs.Chunked max_length pos (vecs ++ left off cur) cs := by
  induction fuel generalizing cur remaining pos off vecs parts with
  | zero => simp [splitIovecLoop] at h
  | succ fuel ih =>
    cases cur with
    | nil =>
      have hall : iovecs.cut max_length (vecs ++ []) = (vecs, []) := by
        rw [Pieces.cut_append [] hroom, Pieces.cut_nil, List.append_nil]
      simp only [splitIovecLoop] at h
      split_ifs at h with hsome
      · obtain rfl : _ = res := Except.ok.inj h
        refine ⟨[(pos, vecs ++ [])], ?_, .last pos ?_ (by rw [left, hall])⟩
        · simp [IoRequest.part, show max_length - remaining = iovecs.total vecs by omega]
        · simpa [left] using List.length_pos_iff.mp hsome
      · obtain rfl : parts = res := Except.ok.inj h
        obtain rfl : vecs = [] := List.length_eq_zero_iff.mp (by omega)
        exact ⟨[], by simp, .nil pos⟩
    | cons v vs =>
      have hle := hoff v vs rfl
      simp only [splitIovecLoop] at h
      by_cases hfits : v.iov_len.toNat - off ≤ remaining
      · rw [if_pos hfits] at h
        have hlen := v.toNat_fragment_len (Nat.add_sub_cancel' hle).le
        have hroom' : iovecs.total (vecs ++ [v.fragment off (v.iov_len.toNat - off)]) +
            (remaining - (v.iov_len.toNat - off)) = max_length := by
          rw [Pieces.total_append, Pieces.total_cons, Pieces.total_nil, iovecs_len, hlen]
          omega
        obtain ⟨cs, hres, hcs⟩ := ih hroom' (fun _ _ _ => Nat.zero_le _) h
        refine ⟨cs, hres, ?_⟩
        rwa [left_zero, List.append_assoc] at hcs
      · -- the part is full, and the buffer goes on in the next one
        rw [if_neg hfits] at h
        have hlen := v.toNat_fragment_len (Nat.add_sub_cancel' hle).le
        have hroom' : iovecs.total [] + max_length = max_length := by simp
        obtain ⟨cs, hres, hcs⟩ := ih hroom'
          (fun w ws hw => by obtain ⟨rfl, rfl⟩ := List.cons.inj hw; omega) h
        have hcut : iovecs.cut max_length (vecs ++ left off (v :: vs)) =
            (vecs ++ (if 0 < remaining then [v.fragment off remaining] else []),
              left (off + remaining) (v :: vs)) := by
          rw [Pieces.cut_append _ hroom, left, Pieces.cut_divides (by rw [iovecs_len, hlen]; omega)]
          simp only [iovecs_len, iovecs_fragment, hlen, Iovec.fragment_fragment, Nat.add_zero,
            Nat.sub_sub, left]
        have hmore : (iovecs.cut max_length (vecs ++ left off (v :: vs))).2 ≠ [] := by
          rw [hcut]
          simp [left]
        have hfull := (Pieces.total_cut _ _).1 hmore
        rw [List.nil_append] at hcs
        have hall := Pieces.Chunked.more hmore (by rw [hcut]; exact hcs)
        refine ⟨_, ?_, hall⟩
        rw [hres, List.map_cons, List.append_assoc]
        rw [hcut] at hfull ⊢
        simp only [IoRequest.part, hfull]
        by_cases hsome : 0 < remaining
        · simp [hsome, Iovec.fragment]
        · simp [hsome]

/-- What the flat loop has yet to do is one buffer, of which every part gets a fragment. -/
theorem ReadOp.splitBufferLoop_chunked (op : ReadOp) (hm : 0 < max_length) {fuel off : ℕ}
    {ret res : List IoPart} (hoff : off ≤ op.size.toNat)
    (h : op.splitBufferLoop max_length fuel off ret = .ok res) :
    ∃ cs, res = ret ++ cs.map (IoRequest.read_ op).part ∧
      iovecs.Chunked max_length off
        [(⟨op.addr, op.size⟩ : Iovec).fragment off (op.size.toNat - off)] cs := by
  induction fuel generalizing off ret with
  | zero => simp [splitBufferLoop] at h
  | succ fuel ih =>
    have hlen := (⟨op.addr, op.size⟩ : Iovec).toNat_fragment_len (Nat.add_sub_cancel' hoff).le
    simp only [splitBufferLoop] at h
    split_ifs at h with hmore
    · have hmin : min (op.size.toNat - off) max_length = max_length := by omega
      rw [hmin] at h hmore
      obtain ⟨cs, hres, hcs⟩ := ih (by omega) h
      have hcut : iovecs.cut max_length
          [(⟨op.addr, op.size⟩ : Iovec).fragment off (op.size.toNat - off)] =
          ([(⟨op.addr, op.size⟩ : Iovec).fragment off max_length],
            [(⟨op.addr, op.size⟩ : Iovec).fragment (off + max_length)
              (op.size.toNat - (off + max_length))]) := by
        rw [Pieces.cut_divides (by rw [iovecs_len, hlen]; omega), if_pos hm]
        simp only [iovecs_len, iovecs_fragment, hlen, Iovec.fragment_fragment, Nat.add_zero,
          Nat.sub_sub]
      have hleft : (iovecs.cut max_length
          [(⟨op.addr, op.size⟩ : Iovec).fragment off (op.size.toNat - off)]).2 ≠ [] := by
        simp [hcut]
      have hfull := (Pieces.total_cut _ _).1 hleft
      refine ⟨_, ?_, .more hleft (by rw [hcut]; exact hcs)⟩
      rw [hres, List.map_cons, List.append_assoc, IoRequest.part, hfull]
      rfl
    · have hmin : min (op.size.toNat - off) max_length = op.size.toNat - off := by omega
      rw [hmin] at h
      obtain rfl : _ = res := Except.ok.inj h
      refine ⟨[(off, [(⟨op.addr, op.size⟩ : Iovec).fragment off (op.size.toNat - off)])], ?_,
        .last off (by simp) ?_⟩
      · simp [IoRequest.part, hlen]
      · rw [Pieces.cut_fits (by rw [iovecs_len, hlen]; omega), Pieces.cut_nil]

theorem IoRequest.split_chunked (req : IoRequest) (hm : 0 < max_length) {fuel : ℕ}
    {parts : List IoPart} (h : req.Split fuel max_length = .ok parts) :
    ∃ cs, parts = cs.map req.part ∧ iovecs.Chunked max_length 0 req.pieces cs := by
  cases req with
  | read_ op =>
    simp only [Split, ReadOp.SplitBuffer, if_neg hm.ne'] at h
    obtain ⟨cs, hres, hcs⟩ := op.splitBufferLoop_chunked hm (Nat.zero_le _) h
    have hall : (⟨op.addr, op.size⟩ : Iovec).fragment 0 op.size.toNat = ⟨op.addr, op.size⟩ :=
      Iovec.fragment_all _
    rw [Nat.sub_zero, hall] at hcs
    exact ⟨cs, hres, hcs⟩
  | readv_ op =>
    obtain ⟨cs, hres, hcs⟩ := op.splitIovecLoop_chunked (by simp) (by simp) h
    rw [left_zero] at hcs
    exact ⟨cs, hres, hcs⟩
  | other op hop => cases h

/-! ## Parts of parts -/

/-- The chunks of one buffer are fragments of it. -/
theorem chunked_single {cs : List (ℕ × List Iovec)} (hm : 0 < m)
    (h : iovecs.Chunked m off vs cs) {k : ℕ} (hvs : vs = [v.fragment off k])
    (hk : off + k ≤ v.iov_len.toNat) :
    ∀ c ∈ cs, ∃ k, c.2 = [v.fragment c.1 k] ∧ c.1 + k ≤ v.iov_len.toNat := by
  induction h generalizing k with
  | nil => simp
  | last off => simpa using ⟨k, hvs, hk⟩
  | @more off vs cs hmore _ ih =>
    subst hvs
    have hlen := v.toNat_fragment_len hk
    have hlong : m < iovecs.len (v.fragment off k) := by
      by_contra hfits
      rw [Pieces.cut_fits (Nat.not_lt.mp hfits), Pieces.cut_nil] at hmore
      exact hmore rfl
    rw [iovecs_len, hlen] at hlong
    rw [Pieces.cut_divides (by rw [iovecs_len, hlen]; exact hlong), if_pos hm] at ih ⊢
    simp only [iovecs_len, iovecs_fragment, hlen, Iovec.fragment_fragment, Nat.add_zero] at ih ⊢
    intro c hc
    rcases List.mem_cons.mp hc with rfl | hc
    · exact ⟨m, rfl, by omega⟩
    · exact ih rfl (by omega) c hc

/-- The buffers of a part are those of its chunk. -/
theorem IoRequest.part_pieces (req : IoRequest) (hm : 0 < m) {cs : List (ℕ × List Iovec)}
    (h : iovecs.Chunked m 0 req.pieces cs) : ∀ c ∈ cs, (req.part c).req.pieces = c.2 := by
  intro c hc
  cases req with
  | read_ op =>
    have hone : (IoRequest.read_ op).pieces =
        [(⟨op.addr, op.size⟩ : Iovec).fragment 0 op.size.toNat] :=
      congrArg (fun v => [v]) (Iovec.fragment_all _).symm
    obtain ⟨k, hk, hle⟩ := chunked_single hm h hone (by simp) c hc
    have hlen := (⟨op.addr, op.size⟩ : Iovec).toNat_fragment_len hle
    have htotal : iovecs.total c.2 = k := by
      rw [hk, Pieces.total_cons, Pieces.total_nil, iovecs_len, hlen, Nat.add_zero]
    simp only [part, ReadOp.SubReqBuffer, pieces, htotal]
    exact hk.symm
  | readv_ op => simp [part, pieces, ReadvOp.SubReqIovec]
  | other op hop =>
    obtain rfl := h.unique (.nil 0)
    simp at hc

theorem IoRequest.part_part (req : IoRequest) (c c' : ℕ × List Iovec) :
    (req.part c).req.part c' = req.part (c.1 + c'.1, c'.2) := by
  cases req with
  | read_ op => simp [part, ReadOp.SubReqBuffer, BitVec.ofNat_add, BitVec.add_assoc]
  | readv_ op => simp [part, ReadvOp.SubReqIovec, BitVec.ofNat_add, BitVec.add_assoc]
  | other op hop => rfl

theorem IoRequest.part_OpType (req : IoRequest) (c : ℕ × List Iovec) :
    (req.part c).req.OpType = req.OpType := by
  cases req <;> rfl

/-- Splitting a request for data, and then each of its parts at a divisor of the length, gives the
parts that the request is split into at the divisor, with the same buffers in the same order. -/
theorem split_split (req : IoRequest) (hn : 1 ≤ n) (hm : 1 ≤ m) (hdvd : n ∣ m)
    (hreq : req.OpType ∈ [.read, .write, .readv, .writev]) :
    (∃ parts, req.SplitsInto m parts) ∧
    ∀ parts, req.SplitsInto m parts → (∀ p ∈ parts, ∃ ps, p.req.SplitsInto n ps) ∧
      ∀ sub : IoPart → List IoPart, (∀ p ∈ parts, p.req.SplitsInto n (sub p)) →
        req.SplitsInto n (parts.flatMap sub) := by
  have hends {q : IoRequest} {k : ℕ} (hk : 1 ≤ k) (hq : q.OpType = req.OpType) :
      ∃ parts, q.SplitsInto k parts := by
    obtain ⟨N, hN⟩ := split_ends hk (hq ▸ hreq)
    obtain ⟨parts, hparts⟩ := hN (N + 1) (Nat.lt_succ_self N)
    exact ⟨parts, N + 1, hparts⟩
  refine ⟨hends hm rfl, fun parts ⟨fuel, hparts⟩ => ?_⟩
  obtain ⟨cs, rfl, hcs⟩ := req.split_chunked hm hparts
  have hpieces := req.part_pieces hm hcs
  refine ⟨fun p hp => ?_, fun sub hsub => ?_⟩
  · obtain ⟨c, -, rfl⟩ := List.mem_map.mp hp
    exact hends hn (req.part_OpType c)
  · -- the chunks of the chunks are those of the whole request
    have hchunks : ∀ c ∈ cs, ∃ ds, sub (req.part c) = ds.map (req.part c).req.part ∧
        iovecs.Chunked n 0 c.2 ds := by
      intro c hc
      obtain ⟨fuel, hsplit⟩ := hsub _ (List.mem_map_of_mem hc)
      obtain ⟨ds, hds, hchunked⟩ := (req.part c).req.split_chunked hn hsplit
      exact ⟨ds, hds, hpieces c hc ▸ hchunked⟩
    choose! ds hds hchunked using hchunks
    have hrefined := hcs.refine hn hm hdvd fun c hc => (hchunked c hc).shift c.1
    obtain ⟨whole, fuel', hwhole⟩ := hends hn rfl
    obtain ⟨es, rfl, hes⟩ := req.split_chunked hn hwhole
    obtain rfl := hes.unique hrefined
    suffices heq : (cs.map req.part).flatMap sub =
        (cs.flatMap fun c => (ds c).map fun d => (c.1 + d.1, d.2)).map req.part by
      rw [heq]
      exact ⟨fuel', hwhole⟩
    rw [List.flatMap_map, List.map_flatMap]
    refine List.flatMap_congr fun c hc => ?_
    rw [hds c hc, List.map_map]
    exact List.map_congr_left fun d _ => req.part_part c d

/-- Parts of four bytes, each in parts of two: one of the buffers is cut twice. -/
theorem split_split_three :
    (∃ parts, (IoRequest.readv_ threeBuffers).SplitsInto 4 parts) ∧
    ∀ parts, (IoRequest.readv_ threeBuffers).SplitsInto 4 parts →
      (∀ p ∈ parts, ∃ ps, p.req.SplitsInto 2 ps) ∧
      ∀ sub : IoPart → List IoPart, (∀ p ∈ parts, p.req.SplitsInto 2 (sub p)) →
        (IoRequest.readv_ threeBuffers).SplitsInto 2 (parts.flatMap sub) :=
  split_split (.readv_ threeBuffers) (by decide) (by decide) (by decide) (by decide)

end QStorage.Io
