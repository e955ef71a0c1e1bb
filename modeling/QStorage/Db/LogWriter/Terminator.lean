import QStorage.Db.LogWriter.Durability
import QStorage.Db.LogWriter.Leader

/-!
# The terminator behind a group

Before its write a leader clears the six bytes behind its group, which nobody granted it. In the
double mapping they may be the first bytes of the ring, and behind a group shorter than its header
they are the header's.

## Main results

* `LogWriter.Inv.clear_iff` — when the terminator clears nothing that is not on disk.
* `LogWriter.terminatorClear_iff` — the same for the steps of a run.
-/

namespace QStorage.Db.LogWriter

open QStorage.Lib QStorage.Infra

/-- The kernel has transferred the byte at `a` with a write that was submitted after the first
`n`; the result may be short. -/
def State.Transferred (s : State) (n a : ℕ) : Prop :=
  ∃ k write res, n ≤ k ∧ s.writes[k]? = some write ∧ write.res_ = some res ∧
    write.req.addr_ ≤ a ∧ a < write.req.addr_ + write.req.size_ ∧
    (a : ℤ) < write.req.addr_ + res

/-- The group of writer `j` is written to disk: its leader has submitted a write, every member has
copied, and each byte of a member was transferred after its copy, with the write of the group or
a later one. -/
def State.OnDisk (s : State) (j : ℕ) : Prop :=
  let l := (s.coros j).leader
  (s.coros l).pc.left = true ∧ ∀ k ∈ s.granted, (s.coros k).leader = l →
    (s.coros k).pc ≠ .granted ∧ ∀ a, (s.coros k).task.addr_ ≤ a →
      a < (s.coros k).task.addr_ + (s.coros k).size.toNat →
      s.Transferred (max (s.coros k).stamp (s.coros l).wr) a

/-- `memset(addr_ + writer.len, 0, 6)` of leader `i` clears neither the header of the group nor a
byte of a writer whose group is not on disk. -/
def State.Clear (s : State) (i : ℕ) : Prop :=
  ∀ k < 6,
    (∀ x < 6, s.cell ((s.coros i).task.addr_ + (s.bank i).len + k) ≠
      s.cell ((s.coros i).task.addr_ + x)) ∧
    ∀ j ∈ s.granted, ¬ s.OnDisk j → ∀ x < (s.coros j).size.toNat,
      s.cell ((s.coros i).task.addr_ + (s.bank i).len + k) ≠ s.cell ((s.coros j).task.addr_ + x)

/-- When leader `i` leaves the spin, its terminator is clear. -/
def State.TerminatorClear (s : State) : Label → Prop
  | .leave i => s.Clear i
  | _ => True

/-- The group of leader `i` is no shorter than its header and leaves six bytes of the ring to
others; and what of the ring's first bytes is needed to make six behind the last region does not
belong to an earlier group that is not on disk. -/
def State.Room (s : State) (i : ℕ) : Prop :=
  6 ≤ (s.bank i).len ∧ (s.bank i).len + 6 ≤ kBufferSize ∧
    ∀ j ∈ s.granted, (s.coros j).leader ≠ i → 0 < (s.coros j).size.toNat → ¬ s.OnDisk j →
      s.total + 6 ≤ (s.coros j).pos + kBufferSize

def State.LeavesRoom (s : State) : Label → Prop
  | .leave i => s.Room i
  | _ => True

variable {host : Endian} {s t : State} {i : ℕ}

/-- The region of a writer ends before the head. -/
theorem Inv.stop_le (h : Inv s) {j : ℕ} (hj : j ∈ s.granted) :
    (s.coros j).pos + (s.coros j).size.toNat ≤ s.total := by
  have hstop := (h.tiles.mem_bounds (List.mem_map_of_mem hj)).2
  exact hstop

/-- The terminator begins at the head. -/
theorem Inv.cell_terminator (h : Inv s) (hpc : (s.coros i).pc.leading = true) (k : ℕ) :
    s.cell ((s.coros i).task.addr_ + (s.bank i).len + k) = (s.total + k) % kBufferSize := by
  obtain ⟨rest, hm⟩ := h.members_cons hpc
  obtain ⟨-, htotal⟩ := h.members_tile hm
  have hi : i ∈ s.granted := h.mem_granted (by simp [hm])
  rw [Nat.add_assoc, h.cell_region hi, h.bank_eq, ← htotal, Nat.add_assoc]

theorem Inv.clear_iff (h : Inv s) (hpc : (s.coros i).pc.leading = true) :
    s.Clear i ↔ s.Room i := by
  obtain ⟨rest, hm⟩ := h.members_cons hpc
  obtain ⟨htiles, htotal⟩ := h.members_tile hm
  have hi : i ∈ s.granted := h.mem_granted (by simp [hm])
  have hfits := h.fits
  have hbank := h.bank_eq i
  simp only [State.Clear, h.cell_terminator hpc, h.cell_region hi]
  constructor
  · intro hclear
    refine ⟨?_, ?_, ?_⟩
    · -- the first byte behind a short group is one of the header
      by_contra hshort
      refine (hclear 0 (by decide)).1 (s.bank i).len (by omega) ?_
      rw [hbank, htotal, Nat.add_zero]
    · -- the last bytes of the terminator of a long group come round to its first
      by_contra hlong
      refine (hclear (kBufferSize - (s.bank i).len) (by omega)).1 0 (by decide) ?_
      rw [hbank] at hlong ⊢
      rw [show s.total + (kBufferSize - (s.w.writers_ 0).len) = (s.coros i).pos + kBufferSize by
        omega, Nat.add_mod_right, Nat.add_zero]
    · intro j hj _ hsize hdisk
      by_contra hpos
      refine (hclear ((s.coros j).pos + kBufferSize - s.total) (by omega)).2 j hj hdisk 0 hsize ?_
      rw [h.cell_region hj, Nat.add_sub_cancel' (by omega), Nat.add_mod_right, Nat.add_zero]
  · rintro ⟨hheader, hlong, hearlier⟩ k hk
    rw [hbank] at hheader hlong
    rw [kBufferSize_eq] at *
    refine ⟨fun x hx => by omega, ?_⟩
    intro j hj hdisk x hx
    rw [h.cell_region hj, kBufferSize_eq]
    have hstop := h.stop_le hj
    by_cases hleader : (s.coros j).leader = i
    · have hopen : (s.coros (s.coros j).leader).pc ≠ .returned := by
        rw [hleader]
        intro hret
        rw [hret] at hpc
        cases hpc
      have hfrom := (htiles.mem_bounds (List.mem_map_of_mem (h.mem_of_open hj hopen))).1
      simp only [State.region] at hfrom
      omega
    · have hroom := hearlier j hj hleader (by omega) hdisk
      omega

/-- In a run, every terminator is clear exactly if every group that is written leaves room. -/
theorem terminatorClear_iff {tr : List (State × Label)} (hs : (machine host).start s)
    (htr : (machine host).Trace s tr t) :
    (∀ p ∈ tr, p.1.TerminatorClear p.2) ↔ ∀ p ∈ tr, p.1.LeavesRoom p.2 := by
  refine htr.forall_step_iff (fun _ _ _ => inv_step) ?_ (inv_start hs)
  intro s l t h hst
  cases l with
  | leave i =>
    obtain ⟨⟨hpc, -⟩, -⟩ := step_leave hst
    exact h.clear_iff (by rw [hpc]; rfl)
  | _ => rfl

/-- A group of 100 bytes is written, and then one that fills the ring. -/
def leftRun : List Label :=
  [.call 0 100, .lock 0, .copy 0 fun _ => 7, .leaderComplete 0 1 94, .leave 0, .ioComplete 0 8192,
    .leaderFinish 0, .call 1 8388508, .lock 1, .copy 1 fun _ => 8, .leaderComplete 1 2 0, .leave 1]

/-- The terminator of the second group takes the first bytes of the first, which is on disk. -/
theorem terminatorClear_iff_left : ∃ tr t, (machine .little).Trace fresh tr t ∧
    tr.map Prod.snd = leftRun ∧ t.total = kBufferSize ∧ t.OnDisk 0 ∧
    ((∀ p ∈ tr, p.1.TerminatorClear p.2) ↔ ∀ p ∈ tr, p.1.LeavesRoom p.2) := by
  have hrun : ((machine .little).run fresh leftRun).any (fun s => s.total = kBufferSize ∧
      s.granted = [0, 1] ∧ (s.coros 0).leader = 0 ∧ (s.coros 1).leader = 1 ∧
      (s.coros 0).pc = .returned ∧ (s.coros 0).stamp = 0 ∧ (s.coros 0).wr = 0 ∧
      (s.coros 0).task.addr_ = 8192 ∧ (s.coros 0).size = 100 ∧
      s.writes[0]?.map (fun w => (w.req.addr_, w.req.size_, w.res_)) =
        some (8192, 8192, some 8192)) = true := by decide +kernel
  obtain ⟨t, ht, htotal, hgranted, hzero, hone, hpc, hstamp, hwr, haddr, hsize, hwrites⟩ :=
    Machine.exists_of_run hrun
  obtain ⟨tr, htr, hls⟩ := Machine.Trace.of_run ht
  refine ⟨tr, t, htr, hls, htotal, ⟨by rw [hzero, hpc]; rfl, ?_⟩,
    terminatorClear_iff fresh_start htr⟩
  intro k hk hleader
  rw [hgranted] at hk
  rw [hzero] at hleader ⊢
  obtain rfl | rfl : k = 0 ∨ k = 1 := by simpa using hk
  · obtain ⟨write, hwrite, hreq⟩ := Option.map_eq_some_iff.mp hwrites
    simp only [Prod.mk.injEq] at hreq
    refine ⟨by simp [hpc], fun a hge hlt => ⟨0, write, 8192, ?_, hwrite, hreq.2.2, ?_⟩⟩
    · simp [hstamp, hwr]
    · rw [haddr] at hge hlt
      rw [hsize] at hlt
      have hnat : (100 : BitVec 64).toNat = 100 := rfl
      omega
  · omega

/-- A group as large as the ring, about to be written. -/
def fullRun : List Label :=
  [.call 0 8388608, .lock 0, .copy 0 fun _ => 7, .leaderComplete 0 1 0]

/-- Its terminator is its own header. -/
theorem not_terminatorClear : ∃ s t, (machine .little).Reachable s ∧
    (machine .little).step s (.leave 0) = some t ∧ ¬ s.TerminatorClear (.leave 0) := by
  have hrun : ((machine .little).run fresh fullRun).any (fun s =>
      ((machine .little).step s (.leave 0)).isSome ∧ (s.bank 0).len = 8388608) = true := by
    decide +kernel
  obtain ⟨s, hs, hsome, hlen⟩ := Machine.exists_of_run hrun
  obtain ⟨t, ht⟩ := Option.isSome_iff_exists.mp hsome
  have hreach : (machine .little).Reachable s := .of_run fresh_start hs
  refine ⟨s, t, hreach, ht, ?_⟩
  obtain ⟨⟨hpc, -⟩, -⟩ := step_leave ht
  intro hclear
  have hroom := ((inv_of_reachable hreach).clear_iff (by rw [hpc]; rfl)).mp hclear
  have hlong := hroom.2.1
  rw [hlen] at hlong
  exact absurd hlong (by decide)

end QStorage.Db.LogWriter
