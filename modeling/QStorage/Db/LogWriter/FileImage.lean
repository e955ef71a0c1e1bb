import QStorage.Db.LogWriter.Durability

/-!
# The image of the ring in the log file

Groups commit one after another. Every write goes to `file_pos_`, which nothing advances, so
that each overwrites the file from its start with the ring from the leader's block on. While
all groups start in the first block, this is the ring from its start.

## Main results

* `LogWriter.memcpy_mem_of_lt` — a store into the ring keeps the bytes before it.
* `LogWriter.file_image` — the file holds what was granted while the groups start in block 0.
-/

namespace QStorage.Db.LogWriter

open QStorage.Lib QStorage.Infra

/-- Groups commit one after another and at most `kBufferSize - 6` bytes are granted: nothing is
granted while a leader commits, and a leader commits when all members have copied. Writes are
transferred in full. Then the defects: the ring starts at a block, each leader's region starts
in its first block, and the group ends within its rounded length, cut to 16 bits and counted
from there. -/
def State.Serial (s : State) : Label → Prop
  | .lock i => s.total + (s.coros i).size.toNat ≤ kBufferSize →
      (∀ j ∈ s.granted, (s.coros j).pc.leading = false) ∧
        s.total + (s.coros i).size.toNat + 6 ≤ kBufferSize
  | .leaderComplete _ _ _ => ∀ j ∈ s.granted, (s.coros j).pc ≠ .granted
  | .ioComplete i res => ∀ write ∈ s.writes[(s.coros i).wr]?, res = write.req.size_
  | .leave i =>
    let first := (s.coros i).task.addr_ - s.w.buffer_.buffer_
    s.w.buffer_.buffer_ % kBlockSize = 0 ∧ first < kBlockSize ∧
      first + (s.bank i).len ≤ State.alignUp ((s.bank i).len + 6) % 2 ^ 16
  | _ => True

instance (s : State) : (l : Label) → Decidable (s.Serial l)
  | .lock i => inferInstanceAs (Decidable (s.total + (s.coros i).size.toNat ≤ kBufferSize →
      (∀ j ∈ s.granted, (s.coros j).pc.leading = false) ∧
        s.total + (s.coros i).size.toNat + 6 ≤ kBufferSize))
  | .leaderComplete _ _ _ =>
    inferInstanceAs (Decidable (∀ j ∈ s.granted, (s.coros j).pc ≠ .granted))
  | .ioComplete i res =>
    inferInstanceAs (Decidable (∀ write ∈ s.writes[(s.coros i).wr]?, res = write.req.size_))
  | .leave i => inferInstanceAs (Decidable (s.w.buffer_.buffer_ % kBlockSize = 0 ∧
      (s.coros i).task.addr_ - s.w.buffer_.buffer_ < kBlockSize ∧
      (s.coros i).task.addr_ - s.w.buffer_.buffer_ + (s.bank i).len ≤
        State.alignUp ((s.bank i).len + 6) % 2 ^ 16))
  | .call .. | .memoryResume _ | .copy .. | .leaderResume .. | .leaderFinish _
  | .followerComplete _ | .followerResume _ => .isTrue trivial

variable {host : Endian} {s t : State} {i : ℕ}

/-! ## Bytes of the ring -/

/-- A store that does not cross the end of the ring keeps the bytes before it. -/
theorem memcpy_mem_of_lt {q n p : ℕ} {src : ℕ → BitVec 8} (hq : q + n ≤ kBufferSize) (hp : p < q) :
    (s.memcpy (s.w.buffer_.buffer_ + q) n src).mem p = s.mem p := by
  have hcell : s.cell (s.w.buffer_.buffer_ + q) = q % kBufferSize := by simp [State.cell]
  have hsize : kBufferSize = 8388608 := rfl
  simp only [State.memcpy, hcell]
  rw [if_neg]
  rw [hsize] at hq ⊢
  omega

/-- The open group starts where the finished ones end. -/
theorem Inv.leader_pos (h : Inv s) {rest : List ℕ} (hm : s.members 0 = i :: rest) :
    (s.coros i).pos = s.bytes s.finished := by
  obtain ⟨-, htotal⟩ := h.members_tile hm
  have hsplit := h.total_eq
  omega

/-- The regions of the open group lie behind the finished ones. -/
theorem Inv.member_pos (h : Inv s) (hi : i ∈ s.members 0) :
    s.bytes s.finished ≤ (s.coros i).pos ∧ (s.coros i).pos + (s.coros i).size.toNat ≤ s.total := by
  obtain ⟨l, rest, hm⟩ := List.exists_cons_of_ne_nil (List.ne_nil_of_mem hi)
  rw [← h.leader_pos hm]
  exact (h.members_tile hm).1.mem_bounds (List.mem_map_of_mem hi)

/-- A leader that has not returned is the only one that can be inside `LeaderComplete`. -/
theorem Inv.leading_unique (h : Inv s) {j : ℕ} (hi : i ∈ s.granted)
    (hlead : (s.coros i).task.is_leader_ = true) (hopen : (s.coros i).pc ≠ .returned)
    (hj : (s.coros j).pc.leading = true) : j = i := by
  obtain ⟨rest, hm⟩ := h.members_cons hj
  have hmem : j ∈ s.members 0 := by simp [hm]
  rw [← (h.head_eq hi hlead hopen).2 j hmem]
  exact ((h.leads j (h.mem_granted hmem)).mp (h.leading j hj)).symm

/-- The invariant of serial runs. -/
structure Imaged (s : State) : Prop extends Inv s where
  room : s.total + 6 ≤ kBufferSize
  copied : ∀ i ∈ s.finished, (s.coros i).pc ≠ .granted
  quiet : ∀ i, (s.coros i).pc.leading = true → ∀ j ∈ s.granted, (s.coros j).pc ≠ .granted
  /-- The bytes of finished groups are on disk. -/
  image : ∀ p < s.bytes s.finished, s.file p = s.mem p
  /-- A leader that commits writes the ring from its start. -/
  writing : ∀ i posted, (s.coros i).pc = .commit posted → ∃ write,
    s.writes[(s.coros i).wr]? = some write ∧ write.req.addr_ = s.w.buffer_.buffer_ ∧
      write.req.offset_ = 0 ∧ s.total ≤ write.req.size_ ∧
      (posted = true → ∀ p < s.total, s.file p = s.mem p)

/-- A quiet step that touches neither the file nor the writes, nor the bytes that matter. -/
theorem Imaged.move (h : Imaged s) (q : Quiet s t) {c : Coro}
    (hcoros : t.coros = Function.update s.coros i c) (hgranted : c.pc ≠ .granted)
    (hcommit : ∀ posted, c.pc ≠ .commit posted)
    (hleading : c.pc.leading = true →
      (s.coros i).pc.leading = true ∨ ∀ j ∈ s.granted, (s.coros j).pc ≠ .granted)
    (hfile : t.file = s.file) (hwrites : t.writes = s.writes)
    (hmem : ∀ p < s.bytes s.finished, t.mem p = s.mem p)
    (halone : t.mem = s.mem ∨ ∀ j posted, (s.coros j).pc ≠ .commit posted) : Imaged t := by
  have hself : t.coros i = c := by rw [hcoros, Function.update_self]
  have hother {j : ℕ} (hj : j ≠ i) : t.coros j = s.coros j := by
    rw [hcoros, Function.update_of_ne hj]
  have hback {j : ℕ} (hj : (t.coros j).pc = .granted) : (s.coros j).pc = .granted :=
    pc_of_update hcoros hgranted hj
  have htotal := q.total_eq h.toInv
  refine ⟨q.inv h.toInv, ?_, fun j hj hpc => ?_, fun j hj k hk hpc => ?_, fun p hp => ?_,
    fun j posted hj => ?_⟩
  · rw [htotal]
    exact h.room
  · rw [q.finished] at hj
    exact h.copied j hj (hback hpc)
  · rw [q.granted] at hk
    have hall : ∀ k ∈ s.granted, (s.coros k).pc ≠ .granted := by
      by_cases hji : j = i
      · subst hji
        rcases hleading (hself ▸ hj) with hold | hnow
        · exact h.quiet j hold
        · exact hnow
      · exact h.quiet j (hother hji ▸ hj)
    exact hall k hk (hback hpc)
  · rw [q.bytes_finished h.toInv] at hp
    rw [hfile, hmem p hp]
    exact h.image p hp
  · have hji : j ≠ i := by
      rintro rfl
      exact hcommit posted (hself ▸ hj)
    rw [hother hji] at hj ⊢
    rcases halone with hsame | hnone
    · rw [hwrites, q.buffer, htotal, hfile, hsame]
      exact h.writing j posted hj
    · exact absurd hj (hnone j posted)

theorem Imaged.copy (h : Imaged s) {bytes : ℕ → BitVec 8} (hpc : (s.coros i).pc = .granted) :
    Imaged (s.copy i bytes) := by
  have hgranted : i ∈ s.granted := by simp [h.held, hpc, Pc.holds]
  have hmem : i ∈ s.members 0 := by
    rcases h.granted_cases hgranted with hold | hnew
    · exact absurd hpc (h.copied i hold)
    · exact hnew
  obtain ⟨hfrom, hto⟩ := h.member_pos hmem
  have hroom := h.room
  have haddr := h.addr i hgranted
  rw [Nat.mod_eq_of_lt (by omega)] at haddr
  refine h.move (h.copy_calm hpc).toQuiet rfl (by simp) (by simp) (by simp [Pc.leading]) rfl rfl
    (fun p hp => ?_) (.inr fun j posted hj => ?_)
  · simp only [State.copy, State.setCoro, haddr]
    exact memcpy_mem_of_lt (by omega) (by omega)
  · exact h.quiet j (by rw [hj]; rfl) i hgranted hpc

/-- The header lies in or behind the region of the leader, and no other leader commits. -/
theorem Imaged.lead (h : Imaged s) {crc : BitVec 32} {len : BitVec 16}
    (hpc : ((s.coros i).pc = .copied ∧ ∀ j ∈ s.granted, (s.coros j).pc ≠ .granted) ∨
      (s.coros i).pc = .leaderWait true)
    (hlead : (s.coros i).task.is_leader_ = true) : Imaged (s.lead i host crc len) := by
  have hat : (s.coros i).pc.holds = true ∧ (s.coros i).pc ≠ .returned ∧
      ∀ posted, (s.coros i).pc ≠ .commit posted := by
    rcases hpc with ⟨hpc, -⟩ | hpc <;> simp [hpc, Pc.holds]
  have hgranted : i ∈ s.granted := (h.held i).mpr hat.1
  obtain ⟨hfrom, hto⟩ := h.member_pos (h.head_eq hgranted hlead hat.2.1).1
  have hroom := h.room
  have haddr := h.addr i hgranted
  rw [Nat.mod_eq_of_lt (by omega)] at haddr
  refine h.move (h.lead_calm (hpc.imp And.left id) hlead).toQuiet rfl (by simp) (by simp)
    (fun _ => ?_) rfl rfl (fun p hp => ?_) (.inr fun j posted hj => ?_)
  · rcases hpc with ⟨-, hcopied⟩ | hpc
    · exact .inr hcopied
    · exact .inl (by rw [hpc]; rfl)
  · simp only [State.lead, State.goto, State.setCoro, haddr]
    exact memcpy_mem_of_lt (s := { s with w := { s.w with notify_leader_ := false } }) (by omega)
      (by omega)
  · obtain rfl := h.leading_unique hgranted hlead hat.2.1 (by rw [hj]; rfl)
    exact hat.2.2 posted hj

/-- The terminator lies behind all regions, and the write is the ring from its start. -/
theorem Imaged.leave (h : Imaged s) (hpc : (s.coros i).pc = .spin)
    (hserial : s.Serial (.leave i)) : Imaged (s.leave i) := by
  have q := (h.leave_calm hpc).toQuiet
  have htotal := q.total_eq h.toInv
  have hcoros : (s.leave i).coros = Function.update s.coros i
      { s.coros i with pc := .commit false, wr := s.writes.length } := rfl
  have hself := congrFun hcoros i
  rw [Function.update_self] at hself
  have hother {j : ℕ} (hj : j ≠ i) : (s.leave i).coros j = s.coros j :=
    Function.update_of_ne hj _ _
  have hleading : (s.coros i).pc.leading = true := by rw [hpc]; rfl
  have hgranted : i ∈ s.granted := by simp [h.held, hpc, Pc.holds]
  obtain ⟨rest, hm⟩ := h.members_cons hleading
  have hend := (h.members_tile hm).2
  have hroom := h.room
  have haddr := h.addr i hgranted
  rw [Nat.mod_eq_of_lt (by omega)] at haddr
  obtain ⟨haligned, hfirst, hfits⟩ := hserial
  rw [haddr, Nat.add_sub_cancel_left] at hfirst hfits
  rw [h.bank_eq i, hend] at hfits
  have hback {j : ℕ} (hj : ((s.leave i).coros j).pc = .granted) : (s.coros j).pc = .granted :=
    pc_of_update hcoros (by simp) hj
  refine ⟨q.inv h.toInv, by rwa [htotal], fun j hj => mt hback (h.copied j hj),
    fun j _ k hk => mt hback (h.quiet i hleading k hk), fun p hp => ?_, fun j posted hj => ?_⟩
  · rw [q.bytes_finished h.toInv] at hp
    have htail : (s.coros i).task.addr_ + (s.bank i).len = s.w.buffer_.buffer_ + s.total := by
      rw [haddr, h.bank_eq i, Nat.add_assoc, hend]
    have hmem : (s.leave i).mem p = s.mem p := by
      simp only [State.leave, State.setCoro, htail]
      exact memcpy_mem_of_lt h.room (by have := h.total_eq; omega)
    rw [hmem]
    exact h.image p hp
  · obtain rfl : j = i := by
      by_contra hji
      rw [hother hji] at hj
      exact hji (h.leading_eq hleading (by rw [hj]; rfl))
    rw [hself] at hj ⊢
    refine ⟨_, List.getElem?_concat_length, ?_, h.file_pos, ?_, fun hposted => ?_⟩
    · have hdown := alignDown_add_mod (s.coros j).task.addr_
      rw [haddr, Nat.add_mod, haligned, Nat.zero_add, Nat.mod_mod, Nat.mod_eq_of_lt hfirst] at hdown
      simp only [State.groupReq, State.commitReq, haddr]
      exact Nat.add_right_cancel hdown
    · rw [htotal, h.bank_eq j]
      exact hfits
    · cases hj
      cases hposted

theorem Imaged.ioComplete (h : Imaged s) {write : Write} (hpc : (s.coros i).pc = .commit false)
    (hwrite : s.writes[(s.coros i).wr]? = some write) :
    Imaged (s.ioComplete i write write.req.size_) := by
  have q : Quiet s (s.ioComplete i write write.req.size_) := (h.ioComplete_calm hpc).toQuiet
  have htotal := q.total_eq h.toInv
  have hcoros := s.ioComplete_coros i write write.req.size_
  have hself := s.ioComplete_self i write write.req.size_
  have hother {j : ℕ} (hj : j ≠ i) := s.ioComplete_of_ne i write write.req.size_ hj
  have hleading : (s.coros i).pc.leading = true := by rw [hpc]; rfl
  have hback {j : ℕ} (hj : ((s.ioComplete i write write.req.size_).coros j).pc = .granted) :
      (s.coros j).pc = .granted := pc_of_update hcoros (by simp) hj
  have hroom := h.room
  obtain ⟨found, hfound, haddr, hoffset, hlen, -⟩ := h.writing i false hpc
  obtain rfl : write = found := Option.some.inj (hwrite.symm.trans hfound)
  -- the transfer copies the ring from its start over the file from its start
  have hfile (p : ℕ) (hp : p < s.total) :
      (s.ioComplete i write write.req.size_).file p = s.mem p := by
    have hcell : s.cell (s.w.buffer_.buffer_ + p) = p := by
      rw [State.cell, Nat.add_sub_cancel_left, Nat.mod_eq_of_lt (by omega)]
    simp only [State.ioComplete, State.setCoro, State.transfer, Int.toNat_natCast, hoffset, haddr,
      Nat.zero_add, Nat.sub_zero, hcell]
    rw [if_pos ⟨Nat.zero_le _, by omega⟩]
  refine ⟨q.inv h.toInv, by rwa [htotal], fun j hj => mt hback (h.copied j hj),
    fun j _ k hk => mt hback (h.quiet i hleading k hk), fun p hp => ?_, fun j posted hj => ?_⟩
  · rw [q.bytes_finished h.toInv] at hp
    exact hfile p (by have := h.total_eq; omega)
  · obtain rfl : j = i := by
      by_contra hji
      rw [hother hji] at hj
      exact hji (h.leading_eq hleading (by rw [hj]; rfl))
    rw [hself, htotal]
    have hlt := (List.getElem?_eq_some_iff.mp hwrite).1
    exact ⟨_, List.getElem?_set_self hlt, haddr, hoffset, hlen, fun _ p hp => hfile p hp⟩

/-- Nobody commits while a region is granted. -/
theorem Imaged.granting (h : Imaged s) (hpc : (s.coros i).pc = .lockWait)
    (hlock : s.w.lock_ = false) (hroom : s.total + (s.coros i).size.toNat ≤ kBufferSize)
    (hserial : s.Serial (.lock i)) : Imaged (s.granting i) := by
  obtain ⟨hnone, hroom⟩ := hserial hroom
  have hold {j : ℕ} (hj : j ∈ s.granted) := h.granting_coros hpc hj
  have hother {j : ℕ} (hj : j ≠ i) : (s.granting i).coros j = s.coros j :=
    Function.update_of_ne hj _ _
  have hidle (j : ℕ) : ((s.granting i).coros j).pc.leading = false := by
    by_cases hji : j = i
    · subst hji
      simp [State.granting, Pc.leading]
    · rw [hother hji, Bool.eq_false_iff]
      intro hlead
      obtain ⟨rest, hm⟩ := h.members_cons hlead
      have := hnone j (h.mem_granted (by simp [hm]))
      simp [hlead] at this
  refine ⟨h.toInv.granting hpc hlock (by omega), ?_, fun j hj => ?_, fun j hj => ?_,
    fun p hp => ?_, fun j posted hj => ?_⟩
  · rw [h.granting_total hpc]
    exact hroom
  · rw [hold (h.finished_granted hj)]
    exact h.copied j hj
  · simp [hidle j] at hj
  · have hbytes : (s.granting i).bytes s.finished = s.bytes s.finished :=
      h.granting_bytes hpc fun j hj => h.finished_granted hj
    exact h.image p (hbytes ▸ hp)
  · have := hidle j
    simp [hj, Pc.leading] at this

/-- The group that ends is on disk with all groups before it. -/
theorem Imaged.finish (h : Imaged s) (hpc : (s.coros i).pc = .commit true) :
    Imaged (s.finish i) := by
  have hleading : (s.coros i).pc.leading = true := by rw [hpc]; rfl
  obtain ⟨_, -, -, -, -, hfile⟩ := h.writing i true hpc
  have hcoros : (s.finish i).coros = s.finishCoro i := by rw [h.finish_eq]
  have hfinished : (s.finish i).finished = s.finished ++ s.members 0 := by rw [h.finish_eq]
  have hidle (j : ℕ) : (s.finishCoro i j).pc.leading = false := by
    by_cases hji : j = i
    · subst hji
      simp [Pc.leading]
    · rw [← Pc.leading_place, s.finishCoro_place hji, Pc.leading_place, Bool.eq_false_iff]
      exact fun hlead => hji (h.leading_eq hleading hlead)
  have hcopied {j : ℕ} (hj : j ∈ s.granted) : (s.finishCoro i j).pc ≠ .granted := by
    by_cases hji : j = i
    · subst hji
      simp
    · rw [ne_eq, ← Pc.place_eq_granted, s.finishCoro_place hji, Pc.place_eq_granted]
      exact h.quiet i hleading j hj
  refine ⟨h.toInv.finish hpc, ?_, fun j hj => ?_, fun j hj => ?_, fun p hp => ?_,
    fun j posted hj => ?_⟩
  · rw [h.finish_total]
    exact h.room
  · rw [hcoros]
    rw [hfinished, ← h.split] at hj
    exact hcopied hj
  · simp [hcoros, hidle j] at hj
  · rw [h.bytes_finished_finish, ← h.total_eq] at hp
    rw [h.finish_eq]
    exact hfile rfl p hp
  · have := hidle j
    rw [hcoros] at hj
    simp [hj, Pc.leading] at this

theorem Imaged.step {l : Label} (h : Imaged s) (hserial : s.Serial l)
    (hst : (machine host).step s l = some t) : Imaged t := by
  cases h.steps hst with
  | call hpc =>
    exact h.move (h.call_calm hpc).toQuiet rfl (by simp) (by simp) (by simp [Pc.leading]) rfl rfl
      (fun _ _ => rfl) (.inl rfl)
  | grant hpc hlock hroom => exact h.granting hpc hlock hroom hserial
  | @refuse i n task _ hpc hn htask hfull =>
    have hheld : (s.coros i).pc.holds = false := by
      rcases hpc with ⟨-, hpc⟩ | ⟨-, hpc⟩ <;> rw [hpc] <;> rfl
    exact h.move (h.refusing_quiet hheld htask hfull) rfl (by simp) (by simp)
      (by simp [Pc.leading]) rfl rfl (fun _ _ => rfl) (.inl rfl)
  | copy hpc => exact h.copy hpc
  | leaderWait hpc hlead =>
    exact h.move (h.leaderWait_calm hpc hlead).toQuiet rfl (by simp) (by simp)
      (fun _ => .inr hserial) rfl rfl (fun _ _ => rfl) (.inl rfl)
  | lead hpc hlead =>
    refine h.lead ?_ hlead
    rcases hpc with ⟨rfl, hpc⟩ | ⟨rfl, hpc⟩
    · exact .inl ⟨hpc, hserial⟩
    · exact .inr hpc
  | leave hpc _ => exact h.leave hpc hserial
  | ioComplete hpc hwrite _ =>
    obtain rfl := hserial _ hwrite
    exact h.ioComplete hpc hwrite
  | finish hpc => exact h.finish hpc
  | @followerComplete i hpc hfollow =>
    have q := (h.followerComplete_calm hpc hfollow).toQuiet
    rw [h.followerComplete_eq] at q ⊢
    exact h.move q rfl (by simp) (by simp) (by simp [Pc.leading]) rfl rfl (fun _ _ => rfl)
      (.inl rfl)
  | followerResume hpc =>
    exact h.move (h.followerResume_calm hpc).toQuiet rfl (by simp) (by simp)
      (by simp [Pc.leading]) rfl rfl (fun _ _ => rfl) (.inl rfl)

theorem Imaged.of_reachableVia (h : (machine host).ReachableVia State.Serial s) : Imaged s := by
  induction h using Machine.ReachableVia.induction with
  | init s hs =>
    have hinv := inv_start hs
    obtain ⟨raw_space, fd, mem, file, -, rfl⟩ := hs
    exact ⟨hinv, (by decide : 0 + 6 ≤ kBufferSize), by simp [initial],
      by simp [initial, Pc.leading], fun p hp => absurd hp (Nat.not_lt_zero p), by simp [initial]⟩
  | next s l t _ hok hst ih => exact ih.step hok hst

/-- In a serial run whose groups start in the first block, the file holds the bytes of all
finished groups at their positions in the ring, after a commit all bytes granted so far. -/
theorem file_image (h : (machine host).ReachableVia State.Serial s) :
    (∀ p < s.bytes s.finished, s.file p = s.mem p) ∧
    ∀ i t, (machine host).step s (.leaderFinish i) = some t →
      ∀ p < t.total, t.file p = t.mem p := by
  have himaged := Imaged.of_reachableVia h
  refine ⟨himaged.image, fun i t hst p hp => ?_⟩
  have ht := himaged.step (l := .leaderFinish i) trivial hst
  refine ht.image p ?_
  obtain ⟨-, rfl⟩ := step_leaderFinish hst
  rw [himaged.bytes_finished_finish, ← himaged.total_eq]
  rwa [himaged.finish_total] at hp

/-- Two groups in the first block. -/
def blockRun : List Label :=
  [.call 0 100, .lock 0, .copy 0 fun _ => 1, .leaderComplete 0 1 94, .leave 0,
    .ioComplete 0 8192, .leaderFinish 0, .call 1 200, .lock 1, .copy 1 fun _ => 2,
    .leaderComplete 1 1 194, .leave 1, .ioComplete 1 8192]

theorem file_image_block : ∃ s t, (machine .little).ReachableVia State.Serial s ∧
    (machine .little).step s (.leaderFinish 1) = some t ∧ t.total = 300 ∧
    ∀ p < 300, t.file p = t.mem p := by
  have hrun : (((machine .little).restrict State.Serial).run fresh blockRun).any (fun s =>
      ((machine .little).step s (.leaderFinish 1)).any (fun t => t.total = 300)) = true := by
    decide +kernel
  obtain ⟨s, hs, hready⟩ := (Option.any_eq_true _ _).mp hrun
  obtain ⟨t, ht, htotal⟩ := (Option.any_eq_true _ _).mp hready
  have htotal := of_decide_eq_true htotal
  have hvia := Machine.ReachableVia.of_run fresh_start hs
  exact ⟨s, t, hvia, ht, htotal, htotal ▸ (file_image hvia).2 1 t ht⟩

/-- Two groups of one block each. -/
def twoBlocksRun : List Label :=
  [.call 0 8192, .lock 0, .copy 0 fun _ => 1, .leaderComplete 0 1 8186, .leave 0,
    .ioComplete 0 16384, .leaderFinish 0, .call 1 8192, .lock 1, .copy 1 fun _ => 2,
    .leaderComplete 1 1 8186, .leave 1, .ioComplete 1 16384, .leaderFinish 1]

/-- The second commit overwrites what the first made durable. -/
theorem not_file_image_twoBlocks : ∃ s, (machine .little).run fresh twoBlocksRun = some s ∧
    s.total + 6 ≤ kBufferSize ∧ s.finished = [0, 1] ∧ s.mem 6 = 1 ∧ s.file 6 = 2 ∧
    ¬ ∀ p < s.bytes s.finished, s.file p = s.mem p := by
  have hrun : ((machine .little).run fresh twoBlocksRun).any (fun s =>
      s.total + 6 ≤ kBufferSize ∧ s.finished = [0, 1] ∧ s.mem 6 = 1 ∧ s.file 6 = 2 ∧
        6 < s.bytes s.finished) = true := by decide +kernel
  obtain ⟨s, hs, hroom, hfinished, hmem, hfile, hlt⟩ := Machine.exists_of_run hrun
  refine ⟨s, hs, hroom, hfinished, hmem, hfile, fun hall => ?_⟩
  have := hall 6 hlt
  simp [hmem, hfile] at this

end QStorage.Db.LogWriter
