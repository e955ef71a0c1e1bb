import QStorage.Io.Fragments
import QStorage.Io.Transfer

/-!
# Splitting is transparent

`Splits` says what the two splitting loops produce: the addresses of the request in order,
cut into parts of at most `max_length` bytes, all but the last of them full. Both loops are
shown to produce it when they end, and to end when `max_length` is not zero.

## Main results

* `split_transparent` — the parts do what the request does, in any order.
* `splitEnds_iff` — when `Split` returns.
-/

namespace QStorage.Io

open QStorage.Lib

variable {max_length : ℕ}

/-- The parts carry the addresses `A`, which start `off` bytes into the request; `isPart`
says what the part with given offset and addresses looks like. -/
def Splits (max_length : ℕ) (isPart : ℕ → List ℕ → IoPart → Prop) :
    ℕ → List ℕ → List IoPart → Prop
  | _, A, [] => A = []
  | off, A, p :: ps => ∃ B C, A = B ++ C ∧ isPart off B p ∧ B.length ≤ max_length ∧
      (ps ≠ [] → B.length = max_length ∧ C ≠ []) ∧ Splits max_length isPart (off + B.length) C ps

def ReadOp.IsPart (op : ReadOp) (off : ℕ) (B : List ℕ) (p : IoPart) : Prop :=
  B = List.range' (op.addr.toNat + off) B.length ∧
    p = ⟨op.SubReqBuffer off B.length, B.length, []⟩

def ReadvOp.IsPart (op : ReadvOp) (off : ℕ) (B : List ℕ) (p : IoPart) : Prop :=
  ∃ vecs, B = vecs.flatMap Iovec.addrs ∧ p = ⟨op.SubReqIovec off vecs, B.length, vecs⟩

/-- The parts are chunks of the addresses. -/
theorem splits_iff {isPart : ℕ → List ℕ → IoPart → Prop} {off : ℕ} {A : List ℕ}
    {ps : List IoPart} :
    Splits max_length isPart off A ps ↔ Chunks max_length isPart off A ps := by
  induction ps generalizing off A with
  | nil => rfl
  | cons p ps ih => simp only [Splits, Chunks, ih]

theorem Splits.forall_mem {isPart : ℕ → List ℕ → IoPart → Prop} {Q : IoPart → Prop}
    (hpart : ∀ off B p, isPart off B p → Q p) {off : ℕ} {A : List ℕ} {ps : List IoPart}
    (h : Splits max_length isPart off A ps) : ∀ p ∈ ps, Q p := by
  induction ps generalizing off A with
  | nil => simp
  | cons p ps ih =>
    obtain ⟨B, C, -, hp, -, -, hps⟩ := h
    intro q hq
    rcases List.mem_cons.mp hq with rfl | hq
    · exact hpart off B _ hp
    · exact ih hps q hq

/-- If every part is at its place in a request of `total` bytes, the parts cut it. A part
that is not the first one starts before the end. -/
theorem Splits.cut {isPart : ℕ → List ℕ → IoPart → Prop} {base total : ℕ}
    (hpart : ∀ off B p, isPart off B p → off = 0 ∨ off < total → off + B.length ≤ total →
      p.req.chunk = ⟨base + off, B⟩)
    {off : ℕ} {A : List ℕ} {ps : List IoPart} (h : Splits max_length isPart off A ps)
    (hoff : off = 0 ∨ off < total) (htotal : off + A.length = total) :
    Cut (base + off) A (ps.map fun p => p.req.chunk) := by
  induction ps generalizing off A with
  | nil => exact h
  | cons p ps ih =>
    obtain ⟨B, C, rfl, hp, -, hmore, hps⟩ := h
    rw [List.length_append] at htotal
    have hchunk := hpart off B p hp hoff (by omega)
    rw [List.map_cons, hchunk]
    refine ⟨rfl, C, rfl, ?_⟩
    cases ps with
    | nil => exact hps
    | cons q qs =>
      have hC := List.length_pos_iff.mpr (hmore (by simp)).2
      have hnext : off + B.length < total := by omega
      have hend : off + B.length + C.length = total := by omega
      rw [Nat.add_assoc]
      exact ih hps (.inr hnext) hend

/-- A one-part split. -/
theorem Splits.single {isPart : ℕ → List ℕ → IoPart → Prop} {off : ℕ} {A : List ℕ} {p : IoPart}
    (h : isPart off A p) (hlen : A.length ≤ max_length) : Splits max_length isPart off A [p] :=
  ⟨A, [], by simp, h, hlen, by simp, rfl⟩

/-! ## The flat loop -/

theorem ReadOp.splitBufferLoop_splits (op : ReadOp) {fuel off : ℕ} {ret res : List IoPart}
    (hoff : off ≤ op.size.toNat) (h : op.splitBufferLoop max_length fuel off ret = .ok res) :
    ∃ ps, ps ≠ [] ∧ res = ret ++ ps ∧
      Splits max_length op.IsPart off
        (List.range' (op.addr.toNat + off) (op.size.toNat - off)) ps := by
  induction fuel generalizing off ret with
  | zero => simp [splitBufferLoop] at h
  | succ fuel ih =>
    simp only [splitBufferLoop] at h
    set len := min (op.size.toNat - off) max_length with hlen
    have hpart : op.IsPart off (List.range' (op.addr.toNat + off) len)
        ⟨op.SubReqBuffer off len, len, []⟩ := by
      simp [IsPart]
    split_ifs at h with hmore
    · obtain ⟨ps, -, rfl, hps⟩ := ih (by omega) h
      refine ⟨_ :: ps, by simp, by simp, List.range' (op.addr.toNat + off) len,
        List.range' (op.addr.toNat + (off + len)) (op.size.toNat - (off + len)),
        ?_, hpart, ?_, ?_, ?_⟩
      · rw [← Nat.add_assoc, List.range'_append_1]
        congr 1
        omega
      · simp only [List.length_range']
        omega
      · intro _
        refine ⟨by simp only [List.length_range']; omega, ?_⟩
        rw [ne_eq, List.range'_eq_nil_iff]
        omega
      · simpa using hps
    · obtain rfl : ret ++ [⟨op.SubReqBuffer off len, len, []⟩] = res := by simpa using h
      have hall : op.size.toNat - off = len := by omega
      refine ⟨[_], by simp, rfl, ?_⟩
      rw [hall]
      exact .single hpart (by simp only [List.length_range']; omega)

theorem ReadOp.splitBufferLoop_ends (op : ReadOp) (hm : 0 < max_length) {fuel off : ℕ}
    {ret : List IoPart} (hfuel : op.size.toNat - off < fuel) :
    ∃ res, op.splitBufferLoop max_length fuel off ret = .ok res := by
  induction fuel generalizing off ret with
  | zero => omega
  | succ fuel ih =>
    simp only [splitBufferLoop]
    split_ifs with hmore
    · exact ih (by omega)
    · exact ⟨_, rfl⟩

/-! ## The vectored loop -/

@[simp] theorem Iovec.length_addrs (v : Iovec) : v.addrs.length = v.iov_len.toNat := by
  simp [addrs]

/-- The buffer does not reach over the last address. -/
def Iovec.Fits (v : Iovec) : Prop := v.iov_base.toNat + v.iov_len.toNat ≤ 2 ^ 64

theorem Iovec.Fits.fragment {v : Iovec} (h : v.Fits) {off n : ℕ}
    (hle : off + n ≤ v.iov_len.toNat) : (v.fragment off n).Fits := by
  have hlen := v.toNat_fragment_len hle
  have hbase : (v.fragment off n).iov_base.toNat = (v.iov_base.toNat + off) % 2 ^ 64 := by
    rw [Iovec.fragment, BitVec.toNat_add, BitVec.toNat_ofNat, Nat.add_mod_mod]
  simp only [Iovec.Fits] at h ⊢
  omega

/-- Without wrapping around, addresses are their numbers. -/
theorem Iovec.Fits.map_bytes {v : Iovec} (h : v.Fits) : v.bytes.map BitVec.toNat = v.addrs := by
  apply List.ext_getElem
  · simp
  · intro k hk _
    rw [List.length_map, Iovec.length_bytes] at hk
    simp only [Iovec.Fits] at h
    simp only [Iovec.bytes, Iovec.addrs, List.getElem_map, List.getElem_range,
      List.getElem_range', BitVec.toNat_add, BitVec.toNat_ofNat]
    omega

theorem map_toNat_flatMap {vecs : List Iovec} (h : ∀ v ∈ vecs, v.Fits) :
    (vecs.flatMap Iovec.bytes).map BitVec.toNat = vecs.flatMap Iovec.addrs := by
  rw [List.map_flatMap]
  exact List.flatMap_congr fun v hv => (h v hv).map_bytes

theorem ReadvOp.SplitIovec_splits (op : ReadvOp) {fuel : ℕ} {parts : List IoPart}
    (hfit : ∀ v ∈ op.iovec.take op.iov_len, v.Fits)
    (h : op.SplitIovec fuel max_length = .ok parts) :
    Splits max_length op.IsPart 0 op.addrs parts := by
  have hchunks : Chunks max_length (op.IsPiece Iovec.Fits) 0 op.bytes parts :=
    op.SplitIovec_chunks (Nat.one_dvd _) (fun _ _ => Nat.one_dvd _)
      (fun v hv o n _ _ hle => (hfit v hv).fragment hle) h
  rw [splits_iff, show op.addrs = op.bytes.map BitVec.toNat from (map_toNat_flatMap hfit).symm]
  apply hchunks.map
  rintro off B p - ⟨vecs, hvecs, rfl, rfl⟩
  refine ⟨vecs, map_toNat_flatMap hvecs, ?_⟩
  rw [List.length_map]

/-- Each round takes a buffer, or cuts off a part; a cut leaves fewer bytes or, when the
part was already full, makes room again. -/
theorem ReadvOp.splitIovecLoop_ends (op : ReadvOp) (hm : 0 < max_length) {fuel : ℕ}
    {cur : List Iovec} {remaining pos off : ℕ} {vecs : List Iovec} {parts : List IoPart}
    (hfuel : (cur.map fun v => v.iov_len.toNat).sum - off + cur.length +
      (if remaining = 0 then 1 else 0) < fuel)
    (hoff : ∀ v vs, cur = v :: vs → off ≤ v.iov_len.toNat) :
    ∃ res, op.splitIovecLoop max_length fuel cur remaining pos off vecs parts = .ok res := by
  induction fuel generalizing cur remaining pos off vecs parts with
  | zero => omega
  | succ fuel ih =>
    cases cur with
    | nil =>
      simp only [splitIovecLoop]
      split_ifs <;> exact ⟨_, rfl⟩
    | cons v vs =>
      have hle := hoff v vs rfl
      simp only [List.map_cons, List.sum_cons, List.length_cons] at hfuel
      simp only [splitIovecLoop]
      by_cases htake : v.iov_len.toNat - off ≤ remaining
      · rw [if_pos htake]
        refine ih ?_ (fun _ _ _ => Nat.zero_le _)
        split_ifs at hfuel ⊢ <;> omega
      · rw [if_neg htake]
        refine ih ?_ (fun w ws hw => by
          obtain ⟨rfl, rfl⟩ := List.cons.inj hw
          omega)
        simp only [List.map_cons, List.sum_cons, List.length_cons, if_neg hm.ne']
        split_ifs at hfuel <;> omega

/-! ## Executing the parts -/

theorem ReadOp.isPart_chunk (op : ReadOp) (hpos : op.pos.toNat + op.size.toNat ≤ 2 ^ 64)
    (haddr : op.addr.toNat + op.size.toNat ≤ 2 ^ 64) {off : ℕ} {B : List ℕ} {p : IoPart}
    (h : op.IsPart off B p) (hoff : off = 0 ∨ off < op.size.toNat)
    (hB : off + B.length ≤ op.size.toNat) : p.req.chunk = ⟨op.pos.toNat + off, B⟩ := by
  obtain ⟨hrange, rfl⟩ := h
  have hsize := op.size.isLt
  have hp := op.pos.isLt
  have ha := op.addr.isLt
  have hpos' : (op.pos + BitVec.ofNat 64 off).toNat = op.pos.toNat + off := by
    rw [BitVec.toNat_add, BitVec.toNat_ofNat]
    omega
  have haddr' : (op.addr + BitVec.ofNat 64 off).toNat = op.addr.toNat + off := by
    rw [BitVec.toNat_add, BitVec.toNat_ofNat]
    omega
  have hlen : (BitVec.ofNat 64 B.length).toNat = B.length := by
    rw [BitVec.toNat_ofNat, Nat.mod_eq_of_lt (by omega)]
  simp only [ReadOp.SubReqBuffer, IoRequest.chunk, ReadOp.addrs, hpos', haddr', hlen, ← hrange]

theorem ReadvOp.isPart_chunk (op : ReadvOp) {total : ℕ} (hpos : op.pos.toNat + total ≤ 2 ^ 64)
    {off : ℕ} {B : List ℕ} {p : IoPart} (h : op.IsPart off B p) (hoff : off = 0 ∨ off < total) :
    p.req.chunk = ⟨op.pos.toNat + off, B⟩ := by
  obtain ⟨vecs, rfl, rfl⟩ := h
  have hp := op.pos.isLt
  have hpos' : (op.pos + BitVec.ofNat 64 off).toNat = op.pos.toNat + off := by
    rw [BitVec.toNat_add, BitVec.toNat_ofNat]
    omega
  simp only [ReadvOp.SubReqIovec, IoRequest.chunk, ReadvOp.addrs, hpos', List.take_length]

/-- The requests are transfers of one kind on one file. -/
theorem World.execAll_eq (w : World) (op : IoRequestType) (fd : ℤ) {reqs : List IoRequest}
    (h : ∀ r ∈ reqs, ∀ w : World, w.exec r = some (w.transfer op fd r.chunk)) :
    w.execAll reqs = some ((reqs.map IoRequest.chunk).foldl (fun w c => w.transfer op fd c) w) := by
  induction reqs generalizing w with
  | nil => rfl
  | cons r rs ih =>
    rw [World.execAll, List.foldlM_cons, h r (by simp), List.map_cons, List.foldl_cons]
    exact ih _ fun s hs => h s (List.mem_cons_of_mem _ hs)

/-- A split whose parts transfer in kind and file what the request does is transparent. -/
theorem Splits.transparent {isPart : ℕ → List ℕ → IoPart → Prop} {op : IoRequestType} {fd : ℤ}
    {base : ℕ} {A : List ℕ} {ps order : List IoPart}
    (hexec : ∀ off B p, isPart off B p → ∀ w : World,
      w.exec p.req = some (w.transfer op fd p.req.chunk))
    (hchunk : ∀ off B p, isPart off B p → off = 0 ∨ off < A.length → off + B.length ≤ A.length →
      p.req.chunk = ⟨base + off, B⟩)
    (hA : op = .read ∨ op = .readv → A.Nodup) (h : Splits max_length isPart 0 A ps)
    (ho : order.Perm ps) (w : World) :
    w.execAll (order.map IoPart.req) = some (w.transfer op fd ⟨base, A⟩) := by
  have hcut : Cut base A (ps.map fun p => p.req.chunk) :=
    h.cut hchunk (.inl rfl) (Nat.zero_add _)
  have hall : ∀ p ∈ order, ∀ w : World, w.exec p.req = some (w.transfer op fd p.req.chunk) :=
    fun p hp => h.forall_mem hexec p (ho.mem_iff.mp hp)
  rw [World.execAll_eq w op fd (by simpa using hall), List.map_map]
  congr 1
  exact w.transfer_any_order op fd hcut hA (ho.map _)

/-- Offsets and addresses stay within 64 bits. -/
def IoRequest.Fits : IoRequest → Prop
  | .read_ op => op.pos.toNat + op.size.toNat ≤ 2 ^ 64 ∧ op.addr.toNat + op.size.toNat ≤ 2 ^ 64
  | .readv_ op => op.pos.toNat + op.addrs.length ≤ 2 ^ 64 ∧
      ∀ v ∈ op.iovec.take op.iov_len, v.iov_base.toNat + v.iov_len.toNat ≤ 2 ^ 64
  | .other _ _ => True

/-- The buffers that a vectored read fills do not overlap. -/
def IoRequest.ReadsDisjoint : IoRequest → Prop
  | .readv_ op => op.op = .readv →
      (op.iovec.take op.iov_len).Pairwise fun v v' => ∀ a ∈ v.addrs, a ∉ v'.addrs
  | _ => True

theorem ReadvOp.nodup_addrs (op : ReadvOp)
    (h : (op.iovec.take op.iov_len).Pairwise fun v v' => ∀ a ∈ v.addrs, a ∉ v'.addrs) :
    op.addrs.Nodup :=
  List.nodup_flatMap.mpr ⟨fun _ _ => List.nodup_range', h.imp fun hd _ ha hb => hd _ ha hb⟩

/-- `Split` returns on every request for data. -/
theorem split_ends {req : IoRequest} (hm : 1 ≤ max_length)
    (hreq : req.OpType ∈ [.read, .write, .readv, .writev]) :
    ∃ N, ∀ fuel, N < fuel → ∃ parts, req.Split fuel max_length = .ok parts := by
  cases req with
  | read_ op =>
    refine ⟨op.size.toNat, fun fuel hfuel => ?_⟩
    simp only [IoRequest.Split, ReadOp.SplitBuffer, if_neg (Nat.one_le_iff_ne_zero.mp hm)]
    exact op.splitBufferLoop_ends hm (by simpa using hfuel)
  | readv_ op =>
    exact ⟨_, fun fuel hfuel => op.splitIovecLoop_ends hm hfuel (by simp)⟩
  | other op hop => exact absurd hreq hop

/-- Executing the parts of a request in any order does what the request does in one piece. -/
theorem split_transparent (req : IoRequest) (hm : 1 ≤ max_length)
    (hreq : req.OpType ∈ [.read, .write, .readv, .writev]) (hfits : req.Fits)
    (hdisj : req.ReadsDisjoint) :
    (∃ N, ∀ fuel, N < fuel → ∃ parts, req.Split fuel max_length = .ok parts) ∧
    ∀ fuel parts, req.Split fuel max_length = .ok parts →
      ∀ order : List IoPart, order.Perm parts →
        ∀ w : World, (w.exec req).isSome ∧ w.execAll (order.map IoPart.req) = w.exec req := by
  refine ⟨split_ends hm hreq, fun fuel parts hsplit order ho w => ?_⟩
  cases req with
  | read_ op =>
    refine ⟨rfl, ?_⟩
    simp only [IoRequest.Split, ReadOp.SplitBuffer, if_neg (Nat.one_le_iff_ne_zero.mp hm)] at hsplit
    obtain ⟨ps, -, rfl, hps⟩ := op.splitBufferLoop_splits (Nat.zero_le _) hsplit
    have hlen : (List.range' (op.addr.toNat + 0) (op.size.toNat - 0)).length = op.size.toNat := by
      simp
    refine hps.transparent ?_ ?_ ?_ (by simpa using ho) w
    · rintro off B _ ⟨-, rfl⟩ w
      rfl
    · intro off B p hp hoff hB
      rw [hlen] at hoff hB
      exact op.isPart_chunk hfits.1 hfits.2 hp hoff hB
    · exact fun _ => List.nodup_range'
  | readv_ op =>
    refine ⟨rfl, ?_⟩
    have hps := op.SplitIovec_splits hfits.2 hsplit
    refine hps.transparent ?_ ?_ ?_ ho w
    · rintro off B _ ⟨vecs, -, rfl⟩ w
      rfl
    · intro off B p hp hoff _
      exact op.isPart_chunk hfits.1 hp hoff
    · intro hread
      have hreadv : op.op = .readv := by
        rcases op.op_vectored with h | h <;> simp_all
      exact op.nodup_addrs (hdisj hreadv)
  | other op hop => exact absurd hreq hop

/-- A `readv` into three buffers, one of them empty, in parts of three bytes. -/
theorem split_transparent_readv :
    let req : IoRequest := .readv_
      { op := .readv, nowait_works := true, fd := 3, pos := 10
        iovec := [⟨100, 4⟩, ⟨200, 0⟩, ⟨300, 5⟩], iov_len := 3, op_vectored := .inl rfl }
    (∃ N, ∀ fuel, N < fuel → ∃ parts, req.Split fuel 3 = .ok parts) ∧
    ∀ fuel parts, req.Split fuel 3 = .ok parts →
      ∀ order : List IoPart, order.Perm parts →
        ∀ w : World, (w.exec req).isSome ∧ w.execAll (order.map IoPart.req) = w.exec req :=
  split_transparent _ (by decide) (by decide) ⟨by decide, by decide⟩ (fun _ => by decide)

/-! ## A length of zero -/

/-- With enough fuel `Split` returns. So it does not divide by zero, and its loop ends. -/
def IoRequest.SplitEnds (req : IoRequest) (max_length : ℕ) : Prop :=
  ∃ N, ∀ fuel, N < fuel → ∃ parts, req.Split fuel max_length = .ok parts

/-- A vectored request all of whose buffers are empty. -/
def IoRequest.NoBytes : IoRequest → Prop
  | .readv_ op => ∀ v ∈ op.iovec.take op.iov_len, v.iov_len.toNat = 0
  | _ => False

/-- `SplitBuffer` divides before its loop starts. -/
theorem ReadOp.not_splitEnds_zero (op : ReadOp) : ¬ (IoRequest.read_ op).SplitEnds 0 := by
  rintro ⟨N, hends⟩
  obtain ⟨parts, hparts⟩ := hends (N + 1) (Nat.lt_succ_self N)
  cases hparts

/-- Empty buffers go into a part that has no room. -/
theorem ReadvOp.splitIovecLoop_zero_ends (op : ReadvOp) {fuel pos : ℕ} {cur vecs : List Iovec}
    {parts : List IoPart} (hempty : ∀ v ∈ cur, v.iov_len.toNat = 0) (hfuel : cur.length < fuel) :
    ∃ res, op.splitIovecLoop 0 fuel cur 0 pos 0 vecs parts = .ok res := by
  induction cur generalizing fuel vecs with
  | nil =>
    obtain ⟨fuel, rfl⟩ := Nat.exists_eq_add_one_of_ne_zero hfuel.ne'
    simp only [splitIovecLoop]
    split_ifs <;> exact ⟨_, rfl⟩
  | cons v vs ih =>
    obtain ⟨fuel, rfl⟩ := Nat.exists_eq_add_one_of_ne_zero (Nat.ne_zero_of_lt hfuel)
    obtain ⟨hv, hvs⟩ := List.forall_mem_cons.mp hempty
    simp only [splitIovecLoop, hv, Nat.sub_zero, le_refl, if_true]
    exact ih hvs (Nat.lt_of_succ_lt_succ hfuel)

/-- No part ever takes a byte of the first buffer that has one. -/
theorem ReadvOp.splitIovecLoop_zero_runs (op : ReadvOp) {fuel pos : ℕ} {cur vecs : List Iovec}
    {parts : List IoPart} (hbytes : ∃ v ∈ cur, v.iov_len.toNat ≠ 0) :
    op.splitIovecLoop 0 fuel cur 0 pos 0 vecs parts = .error .outOfFuel := by
  induction fuel generalizing cur pos vecs parts with
  | zero => rfl
  | succ fuel ih =>
    cases cur with
    | nil => simp at hbytes
    | cons v vs =>
      simp only [splitIovecLoop, Nat.sub_zero]
      by_cases hv : v.iov_len.toNat = 0
      · simp only [hv, le_refl, if_true, Nat.sub_zero]
        apply ih
        simpa [hv] using hbytes
      · rw [if_neg (by omega)]
        exact ih hbytes

theorem ReadvOp.splitEnds_zero_iff (op : ReadvOp) :
    (IoRequest.readv_ op).SplitEnds 0 ↔ (IoRequest.readv_ op).NoBytes := by
  constructor
  · rintro ⟨N, hends⟩
    obtain ⟨parts, hparts⟩ := hends (N + 1) (Nat.lt_succ_self N)
    by_contra hbytes
    simp only [IoRequest.NoBytes, not_forall, exists_prop] at hbytes
    have hruns : op.SplitIovec (N + 1) 0 = .error .outOfFuel := op.splitIovecLoop_zero_runs hbytes
    rw [IoRequest.Split, hruns] at hparts
    cases hparts
  · intro hempty
    exact ⟨_, fun _ hfuel => op.splitIovecLoop_zero_ends hempty hfuel⟩

/-- Nothing keeps a caller from a `max_length` of zero, by which `SplitBuffer` divides, and which
makes `SplitIovec` cut off empty parts for ever. -/
theorem splitEnds_iff {req : IoRequest} (max_length : ℕ)
    (hreq : req.OpType ∈ [.read, .write, .readv, .writev]) :
    req.SplitEnds max_length ↔ max_length ≠ 0 ∨ req.NoBytes := by
  by_cases hzero : max_length = 0
  · subst hzero
    simp only [ne_eq, not_true_eq_false, false_or]
    cases req with
    | read_ op => exact iff_of_false op.not_splitEnds_zero id
    | readv_ op => exact op.splitEnds_zero_iff
    | other op hop => exact absurd hreq hop
  · exact iff_of_true (split_ends (Nat.one_le_iff_ne_zero.mpr hzero) hreq) (.inl hzero)

/-- Two empty buffers and a length of zero. -/
theorem splitEnds_iff_empty : (IoRequest.readv_
    { op := .writev, nowait_works := false, fd := 3, pos := 0
      iovec := [⟨100, 0⟩, ⟨200, 0⟩], iov_len := 2, op_vectored := .inr rfl }).SplitEnds 0 :=
  (splitEnds_iff 0 (by decide)).mpr (.inr (by simp [IoRequest.NoBytes]))

/-- A `read` of one byte. -/
theorem not_splitEnds : ¬ ∀ (req : IoRequest) (max_length : BitVec 64),
    req.OpType ∈ [.read, .write, .readv, .writev] → req.SplitEnds max_length.toNat := by
  intro h
  let op : ReadOp :=
    { op := .read, nowait_works := true, fd := 3, pos := 0, addr := 100, size := 1
      op_flat := .inl rfl }
  exact op.not_splitEnds_zero (h (.read_ op) 0 (by decide))

end QStorage.Io
