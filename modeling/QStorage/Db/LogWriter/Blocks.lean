import QStorage.Db.LogWriter
import QStorage.Lib.Bits

/-!
# The blocks of a group's write

`LeaderComplete` rounds the address of its region down and the length of its group up, each to a
multiple of `kBlockSize`, and `commit` takes the length as a `uint16_t`. The two roundings know
nothing of each other: the bytes between the start of the block and the region are not counted.

## Main results

* `LogWriter.groupReq_eq_mask` — the request in the source's 64-bit arithmetic.
* `LogWriter.groupReq_encloses_iff` — when the write holds the group and its six terminator bytes.
* `LogWriter.staysInside_iff` — when no write begins in front of the ring.
-/

namespace QStorage.Db.LogWriter

open QStorage.Lib QStorage.Infra

/-! ## Rounding -/

theorem kBlockSize_eq : kBlockSize = 2 ^ 13 := rfl

/-- What `alignDown` drops is the offset in the block. -/
theorem alignDown_add_mod (addr : ℕ) : State.alignDown addr + addr % kBlockSize = addr :=
  Nat.div_add_mod' addr kBlockSize

/-- What `alignUp` adds is the rest of the last block. -/
theorem alignUp_add_mod (len : ℕ) :
    State.alignUp (len + 1) + len % kBlockSize = len + kBlockSize := by
  have hdown := alignDown_add_mod (len + kBlockSize)
  rw [Nat.add_mod_right] at hdown
  rw [State.alignUp, show len + 1 + kBlockSize - 1 = len + kBlockSize by omega]
  exact hdown

theorem alignDown_mod (addr : ℕ) : State.alignDown addr % kBlockSize = 0 := Nat.mul_mod_left _ _

theorem alignUp_mod (len : ℕ) : State.alignUp len % kBlockSize = 0 := Nat.mul_mod_left _ _

/-- `addr & ~(kBlockSize - 1)`. -/
theorem toNat_and_blockMask (addr : BitVec 64) :
    (addr &&& ~~~BitVec.ofNat 64 (kBlockSize - 1)).toNat = State.alignDown addr.toNat := by
  rw [kBlockSize_eq, Bits.toNat_and_not_mask, State.alignDown, kBlockSize_eq]

/-- `(len + kBlockSize - 1) & ~(kBlockSize - 1)`, as long as the sum does not wrap. -/
theorem toNat_add_and_blockMask {len : BitVec 64} (h : len.toNat + kBlockSize ≤ 2 ^ 64) :
    ((len + BitVec.ofNat 64 (kBlockSize - 1)) &&& ~~~BitVec.ofNat 64 (kBlockSize - 1)).toNat =
      State.alignUp len.toNat := by
  have hadd : (len + BitVec.ofNat 64 (kBlockSize - 1)).toNat = len.toNat + kBlockSize - 1 := by
    rw [BitVec.toNat_add, BitVec.toNat_ofNat]
    rw [kBlockSize_eq] at h ⊢
    omega
  rw [toNat_and_blockMask, hadd, State.alignDown, State.alignUp]

/-! ## The request -/

variable (s : State)

/-- The request of a group as the source computes it, in words of 64 and of 16 bits. -/
theorem groupReq_eq_mask (addr_ : BitVec 64) {len : BitVec 64}
    (h : len.toNat + 6 + kBlockSize ≤ 2 ^ 64) :
    s.groupReq addr_.toNat len.toNat =
      { op_code_ := .WRITE
        fd_ := s.w.fd_
        addr_ := (addr_ &&& ~~~BitVec.ofNat 64 (kBlockSize - 1)).toNat
        size_ := (((len + 6 + BitVec.ofNat 64 (kBlockSize - 1)) &&&
          ~~~BitVec.ofNat 64 (kBlockSize - 1)).setWidth 16).toNat
        offset_ := s.w.file_pos_ } := by
  have hlen : (len + 6).toNat = len.toNat + 6 := by
    rw [BitVec.toNat_add, show (6 : BitVec 64).toNat = 6 from rfl, Nat.mod_eq_of_lt]
    rw [kBlockSize_eq] at h
    omega
  rw [State.groupReq, State.commitReq, toNat_and_blockMask, BitVec.toNat_setWidth,
    toNat_add_and_blockMask (by rw [hlen]; exact h), hlen]

/-- The write consists of whole blocks and holds the `len` bytes from `addr_` on and the six
bytes behind them. -/
def Encloses (req : IoRequest) (addr_ len : ℕ) : Prop :=
  req.addr_ % kBlockSize = 0 ∧ req.size_ % kBlockSize = 0 ∧ req.addr_ ≤ addr_ ∧
    addr_ + len + 6 ≤ req.addr_ + req.size_

/-- The length that `commit` gets falls short of eight blocks, so nothing that needs more than
seven is enclosed; what does not is enclosed if the rest of its last block is no smaller than
the offset of the region in its first one. -/
theorem groupReq_encloses_iff (addr_ len : ℕ) :
    Encloses (s.groupReq addr_ len) addr_ len ↔
      len + 6 ≤ 7 * kBlockSize ∧ addr_ % kBlockSize + (len + 5) % kBlockSize < kBlockSize := by
  have hdown := alignDown_add_mod addr_
  have hup : State.alignUp (len + 6) + (len + 5) % kBlockSize = len + 5 + kBlockSize :=
    alignUp_add_mod (len + 5)
  have hstart := alignDown_mod addr_
  have hsize := alignUp_mod (len + 6)
  simp only [Encloses, State.groupReq, State.commitReq]
  rw [kBlockSize_eq] at *
  omega

/-- A group of one block, with its terminator, that begins in the middle of a block: the write
ends half a block early. -/
theorem not_groupReq_encloses : ¬ ∀ (s : State) (addr_ len : ℕ),
    s.w.buffer_.buffer_ % kBlockSize = 0 → s.w.buffer_.buffer_ ≤ addr_ →
    addr_ < s.w.buffer_.buffer_ + kBufferSize → 6 ≤ len → len ≤ kBufferSize - 6 →
    Encloses (s.groupReq addr_ len) addr_ len := by
  intro h
  have hencloses := h fresh 12288 8186 (by decide) (by decide) (by decide) (by decide) (by decide)
  have hend := hencloses.2.2.2
  revert hend
  decide

/-! ## The ring's first block -/

/-- The double mapping lies in what the constructor reserved at `raw_space`, and in no run is a
region returned whose block begins in front of the mapping. -/
def StaysInside (raw_space : ℕ) : Prop :=
  let ring := SPSCRingBuffer.construct raw_space
  (raw_space ≤ ring.buffer_ ∧
    ring.buffer_ + 2 * kBufferSize ≤ raw_space + SPSCRingBuffer.cap) ∧
  ∀ s tr, Spsc.machine.Trace { ring := ring } tr s →
    ∀ g ∈ s.grants, ring.buffer_ ≤ State.alignDown g.addr

/-- The mapping ends where the reservation does. -/
theorem mapping_in_reservation (raw_space : ℕ) :
    raw_space ≤ (SPSCRingBuffer.construct raw_space).buffer_ ∧
      (SPSCRingBuffer.construct raw_space).buffer_ + 2 * kBufferSize =
        raw_space + SPSCRingBuffer.cap := by
  have hpage : kPageSize ≤ kBlockSize := by decide
  simp only [SPSCRingBuffer.construct, SPSCRingBuffer.cap]
  omega

/-- From a ring that begins with a block no region is rounded out of it. -/
theorem le_alignDown {buffer_ addr : ℕ} (hblock : buffer_ % kBlockSize = 0) (hle : buffer_ ≤ addr) :
    buffer_ ≤ State.alignDown addr := by
  have hdown := alignDown_add_mod buffer_
  rw [hblock, Nat.add_zero] at hdown
  rw [← hdown]
  exact Nat.mul_le_mul_right _ (Nat.div_le_div_right hle)

/-- The first region of a ring is its first byte. -/
theorem trace_first (buffer_ : ℕ) : ∃ tr, Spsc.machine.Trace { ring := { buffer_ := buffer_ } } tr
    { ring := { buffer_ := buffer_ }, grants := [⟨⟨0, 0⟩, buffer_⟩] } := by
  let ring : SPSCRingBuffer := { buffer_ := buffer_ }
  have hreq : ring.requestFrom 0 0 = some (buffer_, ring) :=
    SPSCRingBuffer.requestFrom_eq (show ring.Counts 0 0 from ⟨rfl, rfl⟩) le_rfl
      (Nat.zero_le _) 0
  have hload : Spsc.machine.step { ring := ring } (.load 0) =
      some { ring := ring, pending := some (0, 0) } := rfl
  have hupdate : Spsc.machine.step { ring := ring, pending := some (0, 0) } .update =
      some { ring := ring, grants := [⟨⟨0, 0⟩, buffer_⟩] } := by
    simp only [Spsc.machine, Spsc.step, Option.map_some, hreq]
    rfl
  exact ⟨_, (Machine.Trace.nil.snoc hload).snoc hupdate⟩

theorem StaysInside.buffer_mod {raw_space : ℕ} (h : StaysInside raw_space) :
    (SPSCRingBuffer.construct raw_space).buffer_ % kBlockSize = 0 := by
  obtain ⟨-, hruns⟩ := h
  obtain ⟨tr, htr⟩ := trace_first (SPSCRingBuffer.construct raw_space).buffer_
  have hle := hruns _ tr htr _ (List.mem_singleton_self _)
  dsimp only at hle
  have hdown := alignDown_add_mod (SPSCRingBuffer.construct raw_space).buffer_
  omega

theorem construct_buffer_mod (raw_space : ℕ) :
    (SPSCRingBuffer.construct raw_space).buffer_ % kBlockSize = 0 ↔
      raw_space % kBlockSize = kPageSize := by
  simp only [SPSCRingBuffer.construct, kBlockSize, kPageSize]
  omega

/-- The page left out in front of the mapping makes a block of it only if the reservation begins
in the middle of one. -/
theorem staysInside_iff (raw_space : ℕ) :
    StaysInside raw_space ↔ raw_space % kBlockSize = kPageSize := by
  rw [← construct_buffer_mod]
  constructor
  · exact StaysInside.buffer_mod
  · intro hblock
    obtain ⟨hfront, hend⟩ := mapping_in_reservation raw_space
    refine ⟨⟨hfront, hend.le⟩, ?_⟩
    intro s tr htr g hg
    have hle := ((Spsc.inv_trace htr (Spsc.inv_construct raw_space)).region_in_mapping hg).1
    rw [Spsc.buffer_trace htr] at hle
    exact le_alignDown hblock hle

/-- A reservation that begins with a block: the first region is rounded down to the page that was
unmapped. -/
theorem not_staysInside :
    ¬ ∀ raw_space : ℕ, raw_space % kPageSize = 0 → StaysInside raw_space := by
  intro h
  have hblock := (h 8192 (by decide)).buffer_mod
  revert hblock
  decide

end QStorage.Db.LogWriter
