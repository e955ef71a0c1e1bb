import QStorage.Db.LogWriter.Invariant

/-!
# The header of a group

A leader writes the checksum and the length of its group to the first six bytes of its region. In
the double mapping the region may run over the end of the ring.

## Main results

* `LogWriter.memcpy_load` — what a store leaves in the ring, byte by byte from its address on.
* `LogWriter.header_codec` — the codec has one format, and a header is read back as it was written.
-/

namespace QStorage.Db.LogWriter

open QStorage.Lib QStorage.Infra

variable {host : Endian} {s t : State} {i : ℕ}

/-- The byte at an address of the double mapping. -/
def State.load (s : State) (addr : ℕ) : BitVec 8 := s.mem (s.cell addr)

/-- The bytes of one turn of the ring from `addr` on, the first `n` of which are stored. -/
theorem memcpy_load {addr k : ℕ} (n : ℕ) (src : ℕ → BitVec 8)
    (haddr : s.w.buffer_.buffer_ ≤ addr) (hk : k < kBufferSize) :
    (s.memcpy addr n src).load (addr + k) = if k < n then src k else s.load (addr + k) := by
  have hcell : (s.cell (addr + k) + (kBufferSize - s.cell addr)) % kBufferSize = k := by
    simp only [State.cell, kBufferSize_eq] at hk ⊢
    omega
  have hsame : (s.memcpy addr n src).cell (addr + k) = s.cell (addr + k) := rfl
  rw [State.load, hsame, State.load]
  simp only [State.memcpy, hcell]

/-- `crc` is read from the region of leader `i` and `len` from behind it, on any host, and the
other bytes of the ring are what they were in `s`. -/
structure State.HeaderWritten (s t : State) (i : ℕ) (crc : BitVec 32) (len : BitVec 16) : Prop where
  crc : ∀ host, DeserializeLE (w := 4) host (fun k => t.load ((s.coros i).task.addr_ + k)) = crc
  len : ∀ host,
    DeserializeLE (w := 2) host (fun k => t.load ((s.coros i).task.addr_ + 4 + k)) = len
  payload : ∀ k, 6 ≤ k → k < kBufferSize →
    t.load ((s.coros i).task.addr_ + k) = s.load ((s.coros i).task.addr_ + k)

/-- The bytes of the header do not depend on the host. -/
theorem header_getD (host : Endian) (crc : BitVec 32) (len : BitVec 16) {k : ℕ} (hk : k < 6) :
    (State.header host crc len).getD k 0 =
      if k < 4 then byteAt (w := 4) crc k else byteAt (w := 2) len (k - 4) := by
  rw [State.header, SerializeLE_eq, SerializeLE_eq]
  split
  · next hcrc =>
    rw [List.getD_append _ _ _ _ (by simpa using hcrc)]
    simp [hcrc]
  · next hlen =>
    have hlt : k - 4 < 2 := by omega
    rw [List.getD_append_right _ _ _ _ (by simpa using hlen)]
    simp [hlt]

theorem lead_header (host : Endian) (crc : BitVec 32) (len : BitVec 16)
    (haddr : s.w.buffer_.buffer_ ≤ (s.coros i).task.addr_) :
    s.HeaderWritten (s.lead i host crc len) i crc len := by
  have hload (k : ℕ) (hk : k < kBufferSize) :
      (s.lead i host crc len).load ((s.coros i).task.addr_ + k) =
        if k < 6 then (State.header host crc len).getD k 0
        else s.load ((s.coros i).task.addr_ + k) :=
    memcpy_load (s := { s with w := { s.w with notify_leader_ := false } }) 6
      (fun k => (State.header host crc len).getD k 0) haddr hk
  have hsize : 6 < kBufferSize := by decide
  constructor
  · intro host'
    rw [DeserializeLE_eq]
    apply eq_of_byteAt
    intro k hk
    rw [byteAt_ofBytes hk, hload k (by omega), if_pos (by omega), header_getD _ _ _ (by omega),
      if_pos hk]
  · intro host'
    rw [DeserializeLE_eq]
    apply eq_of_byteAt
    intro k hk
    rw [byteAt_ofBytes hk, Nat.add_assoc, hload (4 + k) (by omega), if_pos (by omega),
      header_getD _ _ _ (by omega), if_neg (by omega), Nat.add_sub_cancel_left]
  · intro k hge hk
    rw [hload k hk, if_neg (by omega)]

/-- The integral and the floating codecs have one format on all hosts. So when `LeaderComplete` has
written its header, `crc` and `len` are read back, and what is behind the header is untouched. -/
theorem header_codec :
    (∀ (w : ℕ) (host host' : Endian), LittleEndian w (SerializeLE host) (DeserializeLE host')) ∧
    (∀ (w : ℕ) (host host' : Endian), FloatingPointOnly w →
      LittleEndian w (SerializeLE_float host) (DeserializeLE_float host')) ∧
    ∀ (host : Endian) (s t : State) (i : ℕ) (crc : BitVec 32) (len : BitVec 16) (l : Label),
      (machine host).Reachable s → (machine host).step s l = some t →
      l = .leaderComplete i crc len ∨ l = .leaderResume i crc len → (t.coros i).pc = .spin →
      s.HeaderWritten t i crc len := by
  refine ⟨SerializeLE_littleEndian, fun w host host' hw =>
    SerializeLE_float_littleEndian hw host host', ?_⟩
  intro host s t i crc len l hs hst hl hspin
  have h := inv_of_reachable hs
  have hheader : (s.coros i).pc.holds = true →
      s.HeaderWritten (s.lead i host crc len) i crc len := by
    intro hholds
    apply lead_header
    rw [h.addr i ((h.held i).mpr hholds)]
    exact Nat.le_add_right _ _
  rcases hl with rfl | rfl
  · cases h.steps hst with
    | leaderWait => simp [State.goto, State.setCoro] at hspin
    | lead hpc _ =>
      rcases hpc with ⟨heq, hpc⟩ | ⟨heq, -⟩
      · cases heq
        exact hheader (by rw [hpc]; rfl)
      · cases heq
    | refuse hpc _ _ _ => rcases hpc with ⟨heq, -⟩ | ⟨heq, -⟩ <;> cases heq
  · cases h.steps hst with
    | lead hpc _ =>
      rcases hpc with ⟨heq, -⟩ | ⟨heq, hpc⟩
      · cases heq
      · cases heq
        exact hheader (by rw [hpc]; rfl)
    | refuse hpc _ _ _ => rcases hpc with ⟨heq, -⟩ | ⟨heq, -⟩ <;> cases heq

/-- Up to the call of `LeaderComplete`. -/
def copiedRun : List Label := [.call 0 100, .lock 0, .copy 0 fun _ => 7]

/-- A `double` goes from a big-endian host to a little-endian one, and a header is written on a
big-endian host. -/
theorem header_codec_copied :
    LittleEndian 8 (SerializeLE_float .big) (DeserializeLE_float .little) ∧
    ∃ s t, (machine .big).run fresh copiedRun = some s ∧
      (machine .big).step s (.leaderComplete 0 305419896 94) = some t ∧
      s.HeaderWritten t 0 305419896 94 := by
  refine ⟨header_codec.2.1 8 .big .little (.inr rfl), ?_⟩
  have hrun : ((machine .big).run fresh copiedRun).any (fun s =>
      ((machine .big).step s (.leaderComplete 0 305419896 94)).any fun t =>
        (t.coros 0).pc = .spin) = true := by decide +kernel
  obtain ⟨s, hs, hstep⟩ := (Option.any_eq_true _ _).mp hrun
  obtain ⟨t, ht, hspin⟩ := (Option.any_eq_true _ _).mp hstep
  exact ⟨s, t, hs, ht, header_codec.2.2 .big s t 0 _ _ _ (.of_run fresh_start hs) ht (.inl rfl)
    (of_decide_eq_true hspin)⟩

end QStorage.Db.LogWriter
