import QStorage.Db.LogWriter.Commit

/-!
# The log with its request loop

The request of a `commit` is never enqueued, so that its baton is never posted. The first leader
that enters `commit` is the last one, and nobody behind it is ever told anything.

## Main results

* `LogWriter.Commit.nothing_returns` — in no run does a completion return or the file change.
-/

namespace QStorage.Db.LogWriter

open QStorage.Lib QStorage.Infra

section Own

variable {host : Endian} {s t : State}

/-- Nobody has returned, and no follower is about to. -/
def State.Silent (s : State) : Prop :=
  ∀ i, (s.coros i).pc ≠ .returned ∧ (s.coros i).pc ≠ .followerWait true

theorem State.Silent.update (h : s.Silent) {i : ℕ} {c : Coro}
    (hcoros : t.coros = Function.update s.coros i c) (hret : c.pc ≠ .returned)
    (hresume : c.pc ≠ .followerWait true) : t.Silent := fun j =>
  ⟨fun hj => (h j).1 (pc_of_update hcoros hret hj),
    fun hj => (h j).2 (pc_of_update hcoros hresume hj)⟩

/-- As long as no baton was posted, no completion returns and no byte of the file changes. -/
theorem Inv.own_silent (h : Inv s) {l : Label} (hown : l.own = true)
    (hst : (machine host).step s l = some t) (hwaiting : ∀ i, (s.coros i).pc ≠ .commit true)
    (hsilent : s.Silent) : t.Silent ∧ t.file = s.file := by
  cases h.steps hst with
  | call hpc | grant hpc | refuse hpc | copy hpc | leaderWait hpc | lead hpc =>
    exact ⟨hsilent.update rfl (by simp) (by simp), rfl⟩
  | @followerComplete i hpc =>
    rw [h.followerComplete_eq]
    exact ⟨hsilent.update (i := i) (c := { s.coros i with pc := .followerWait false }) rfl
      (by simp) (by simp), rfl⟩
  | followerResume hpc => exact absurd hpc (hsilent _).2
  | finish hpc => exact absurd hpc (hwaiting _)
  | leave | ioComplete => cases hown

end Own

namespace Commit

variable {host : Endian} {capacity : ℕ} {reqs : ℕ → IoRequest} {u v : Commit} {l : Label}

/-- The invariant of all runs: at most one leader is in `commit`, and it waits there. -/
structure Hung (file : ℕ → BitVec 8) (reqs : ℕ → IoRequest) (u : Commit) : Prop extends
    Inv reqs u where
  silent : u.log.Silent
  file_eq : u.log.file = file
  finished : u.log.finished = []
  built : u.built = [] ∨ ∃ i r, u.built = [(i, r)] ∧ (u.log.coros i).pc = .commit false

theorem Hung.step {file : ℕ → BitVec 8} (h : Hung file reqs u)
    (hst : (machine host capacity reqs).step u l = some v) : Hung file reqs v := by
  have hinv := inv_step h.toInv hst
  have hstays {i : ℕ} (hi : (u.log.coros i).pc = .commit false) := h.stays hi hst
  cases steps hst with
  | @log k log hown hlog =>
    obtain ⟨hsilent, hfile⟩ := h.log.own_silent hown hlog h.waiting h.silent
    have hfinished := (h.log.own_keeps hown hlog h.waiting).2
    refine ⟨hinv, hsilent, hfile.trans h.file_eq, hfinished.trans h.finished, ?_⟩
    exact h.built.imp id fun ⟨i, r, hbuilt, hi⟩ => ⟨i, r, hbuilt, (hstays hi).1⟩
  | @commit i r log hfresh hlog =>
    obtain ⟨hspin, hfinished, c, hc, hcoros⟩ := leave_coros hlog
    have hbuilt : u.built = [] := by
      rcases h.built with hnone | ⟨j, q, -, hj⟩
      · exact hnone
      · obtain rfl : j = i := h.log.leading_eq (by rw [hspin]; rfl) (by rw [hj]; rfl)
        rw [hspin] at hj
        cases hj
    refine ⟨hinv, h.silent.update hcoros (by simp [hc]) (by simp [hc]), ?_,
      hfinished.trans h.finished, .inr ⟨i, r, by simp [hbuilt], ?_⟩⟩
    · obtain ⟨-, rfl⟩ := step_leave hlog
      exact h.file_eq
    · rw [hcoros, Function.update_self, hc]
  | io => exact ⟨hinv, h.silent, h.file_eq, h.finished, h.built⟩
  | baton hbuilt hpost => exact absurd hpost (h.not_posted hbuilt)

theorem Hung.start (hs : (machine host capacity reqs).start u) : Hung u.log.file reqs u := by
  have hinv := inv_start hs
  obtain ⟨⟨raw_space, fd, mem, file, -, hlog⟩, -, hbuilt⟩ := hs
  exact ⟨hinv, fun i => by simp [hlog, initial], rfl, by simp [hlog, initial], .inl hbuilt⟩

/-- Whatever the writers, the loop and the kernel do, no `LeaderComplete` and no
`FollowerComplete` ever returns, no byte of the log file changes, and no second leader reaches
`commit`. -/
theorem nothing_returns {tr : List (Commit × Label)} (hs : (machine host capacity reqs).start u)
    (htr : (machine host capacity reqs).Trace u tr v) :
    (∀ i, (v.log.coros i).pc ≠ .returned) ∧ v.log.finished = [] ∧ v.log.file = u.log.file ∧
      v.built.length ≤ 1 := by
  have hhung : Hung u.log.file reqs v := by
    induction htr with
    | nil => exact .start hs
    | snoc _ hst ih => exact ih.step hst
  refine ⟨fun i => (hhung.silent i).1, hhung.finished, hhung.file_eq, ?_⟩
  rcases hhung.built with hnone | ⟨i, r, hone, -⟩
  · simp [hnone]
  · simp [hone]

theorem nothing_returns_hang : ∃ tr v, (machine .little 8 fun _ => firstReq).Trace idle tr v ∧
    tr.map Prod.snd = hangRun ∧ (∀ i, (v.log.coros i).pc ≠ .returned) ∧
    v.log.file = idle.log.file := by
  obtain ⟨tr, v, htr, hls⟩ := Machine.Trace.of_isSome
    (show ((machine .little 8 fun _ => firstReq).run idle hangRun).isSome = true by decide +kernel)
  have h := nothing_returns idle_start htr
  exact ⟨tr, v, htr, hls, h.1, h.2.2.1⟩

end Commit

end QStorage.Db.LogWriter
