import QStorage.Db.LogWriter.Blocks
import QStorage.Db.LogWriter.Invariant
import QStorage.Lib.Progress

/-!
# How far a log reaches (`db/log_writer.h`)

`init` sees to a file of `kLogFileSize` bytes. But `file_pos_` stays where it begins and the length
of a write passes through 16 bits, so that all writes land on the first seven blocks, one over the
other; and `CommitWrite` is called after `Reset`, so that the ring is filled once.

## Main results

* `LogWriter.log_extent` — the part of the file that a log ever changes.
-/

namespace QStorage.Db.LogWriter

open QStorage.Lib QStorage.Infra

/-- A write at the start of the file, of at most seven whole blocks. -/
structure Write.First (write : Write) : Prop where
  offset : write.req.offset_ = 0
  whole : write.req.size_ % kBlockSize = 0
  short : write.req.size_ ≤ 7 * kBlockSize

/-- The invariant of the runs on a file that was `file` at the start. -/
structure Extent (file : ℕ → BitVec 8) (s : State) : Prop extends Inv s where
  first : ∀ write ∈ s.writes, write.First
  beyond : ∀ p, 7 * kBlockSize ≤ p → s.file p = file p

variable {host : Endian} {file : ℕ → BitVec 8} {s t : State} {l : Label} {i : ℕ}

/-- Eight blocks no longer fit into 16 bits. -/
theorem groupReq_first (hpos : s.w.file_pos_ = 0) (addr_ len : ℕ) :
    Write.First { req := s.groupReq addr_ len } := by
  have hmod := alignUp_mod (len + 6)
  constructor <;> simp only [State.groupReq, State.commitReq]
  · exact hpos
  · rw [kBlockSize_eq] at *
    omega
  · rw [kBlockSize_eq] at *
    omega

/-- The bytes of a transfer lie in front of its end. -/
theorem ioComplete_file {write : Write} {res : ℤ} (hfirst : write.First)
    (hcan : s.CanTransfer write.req res) {p : ℕ} (hp : 7 * kBlockSize ≤ p) :
    (s.ioComplete i write res).file p = s.file p := by
  have hlen : res.toNat ≤ write.req.size_ := by
    by_cases hres : 0 < res
    · exact (hcan hres).1
    · omega
  have hshort := hfirst.short
  have hoffset := hfirst.offset
  exact if_neg (by omega)

theorem Extent.step (h : Extent file s) (hst : (machine host).step s l = some t) :
    Extent file t := by
  have hinv := inv_step h.toInv hst
  cases h.steps hst with
  | call | grant | refuse | copy | leaderWait | lead | finish | followerResume =>
    exact ⟨hinv, h.first, h.beyond⟩
  | @followerComplete i hpc =>
    rw [h.followerComplete_eq] at hinv ⊢
    exact ⟨hinv, h.first, h.beyond⟩
  | @leave i hpc hdone =>
    refine ⟨hinv, fun write hwrite => ?_, h.beyond⟩
    rcases List.mem_append.mp hwrite with hold | hnew
    · exact h.first write hold
    · obtain rfl := List.mem_singleton.mp hnew
      exact groupReq_first h.file_pos _ _
  | @ioComplete i write res hpc hwrite hcan =>
    have hfirst := h.first write (List.mem_of_getElem? hwrite)
    refine ⟨hinv, fun write' hwrite' => ?_, fun p hp => ?_⟩
    · rcases List.mem_or_eq_of_mem_set hwrite' with hold | rfl
      · exact h.first write' hold
      · exact ⟨hfirst.offset, hfirst.whole, hfirst.short⟩
    · rw [ioComplete_file hfirst hcan hp, h.beyond p hp]

/-- However many groups a log writer commits, they were granted no more than the ring holds, every
write goes to the start of the file, and no byte beyond the first seven blocks of the file ever
changes. -/
theorem log_extent {tr : List (State × Label)} (hs : (machine host).start s)
    (htr : (machine host).Trace s tr t) :
    t.total ≤ kBufferSize ∧ (∀ write ∈ t.writes, write.First) ∧
      ∀ p, 7 * kBlockSize ≤ p → t.file p = s.file p := by
  have hstart : Extent s.file s := by
    refine ⟨inv_start hs, ?_, fun _ _ => rfl⟩
    obtain ⟨raw_space, fd, mem, file, -, rfl⟩ := hs
    simp [initial]
  have hextent := htr.keep (fun _ _ _ h hst => h.step hst) hstart
  exact ⟨hextent.fits, hextent.first, hextent.beyond⟩

/-- A group of nine blocks. -/
def nineBlocksRun : List Label :=
  [.call 0 73722, .lock 0, .copy 0 fun _ => 1, .leaderComplete 0 1 73722, .leave 0,
    .ioComplete 0 8192, .leaderFinish 0]

theorem log_extent_nineBlocks : ∃ tr t, (machine .little).Trace fresh tr t ∧
    tr.map Prod.snd = nineBlocksRun ∧ t.total ≤ kBufferSize ∧
    ∀ p, 7 * kBlockSize ≤ p → t.file p = fresh.file p := by
  obtain ⟨tr, t, htr, hls⟩ := Machine.Trace.of_isSome
    (show ((machine .little).run fresh nineBlocksRun).isSome = true by decide +kernel)
  have h := log_extent fresh_start htr
  exact ⟨tr, t, htr, hls, h.1, h.2.2⟩

end QStorage.Db.LogWriter
