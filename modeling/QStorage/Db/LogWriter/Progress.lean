import QStorage.Db.LogWriter.Group
import QStorage.Db.LogWriter.Handshake
import QStorage.Db.LogWriter.Leader
import QStorage.Db.LogWriter.Requests
import QStorage.Lib.Progress

/-!
# When the log can go on

A refused request is counted in `count_` and keeps the lock, so that no follower makes up for it
and no new writer comes in. What is left to a leader in the spin are the followers of groups that
are over: whichever of them comes late raises `completed_copy_` of the open group.

## Main results

* `LogWriter.Ready` — what the schedule that finishes a group needs.
* `LogWriter.canFinish_iff` — the states from which a `LeaderComplete` can still return.
-/

namespace QStorage.Db.LogWriter

open QStorage.Lib QStorage.Infra

/-- `asyncMalloc` has returned, and neither `LeaderComplete` nor `FollowerComplete` was called. -/
def Pc.early : Pc → Bool
  | .granted | .copied => true
  | _ => false

/-- A follower that may still call `FollowerComplete`. -/
def Coro.pending (c : Coro) : Bool := !c.task.is_leader_ && c.pc.early

/-- Followers, of this group or an older one, that may still call `FollowerComplete`. -/
def State.pending (s : State) : ℕ := tally s.granted s.coros Coro.pending

/-- A leader has left the spin and not returned. -/
def State.Committing (s : State) : Prop := ∃ i posted, (s.coros i).pc = .commit posted

/-- There is a group, and the followers to come suffice for the refused requests that are counted
in it, but are not past them already. -/
def State.CatchesUp (s : State) : Prop :=
  s.members 0 ≠ [] ∧ (s.w.writers_ 0).completed_copy_ < (s.w.writers_ 0).count_ ∧
    (s.w.writers_ 0).count_ ≤ (s.w.writers_ 0).completed_copy_ + s.pending + 1

variable {host : Endian} {s t : State} {i : ℕ}

/-! ## The invariant -/

/-- What the schedule that finishes a group needs. -/
structure Ready (s : State) : Prop extends Inv s where
  token : (∀ i, (s.coros i).pc.writing = false) → s.w.notify_leader_ = true
  noWait : ∀ i released, (s.coros i).pc ≠ .leaderWait released
  holder : s.w.lock_ = true → ∃ i, (s.coros i).pc.isMemoryWait = true
  bounded : ∃ n, ∀ i, n ≤ i → (s.coros i).pc = .idle
  submitted : ∀ i, (s.coros i).pc = .commit false → (s.coros i).wr < s.writes.length
  /-- A refused writer was woken by the end of the last group. -/
  parked : ∀ i, (s.coros i).pc = .memoryWait true → s.members 0 = []
  joined : s.joined ≤ (s.w.writers_ 0).completed_copy_

/-- A step of writer `i` alone. -/
theorem Ready.move (h : Ready s) (hinv : Inv t) {c : Coro}
    (hcoros : t.coros = Function.update s.coros i c)
    (htoken : c.pc.writing = true ∨
      (s.coros i).pc.writing = false ∧ t.w.notify_leader_ = s.w.notify_leader_)
    (hwait : ∀ released, c.pc ≠ .leaderWait released)
    (hholder : t.w.lock_ = true → c.pc.isMemoryWait = true ∨
      s.w.lock_ = true ∧ (s.coros i).pc.isMemoryWait = false)
    (hwrites : s.writes.length ≤ t.writes.length)
    (hwr : c.pc = .commit false → c.wr < t.writes.length)
    (hparked : c.pc ≠ .memoryWait true)
    (hmembers : t.members = s.members ∨ s.w.lock_ = false)
    (hjoined : t.joined ≤ (t.w.writers_ 0).completed_copy_) : Ready t := by
  have hself : t.coros i = c := by rw [hcoros, Function.update_self]
  have hother {j : ℕ} (hj : j ≠ i) : t.coros j = s.coros j := by
    rw [hcoros, Function.update_of_ne hj]
  refine ⟨hinv, fun hnone => ?_, fun j released => ?_, fun hlock => ?_, ?_, fun j hj => ?_,
    fun j hj => ?_, hjoined⟩
  · rcases htoken with hc | ⟨hi, hnotify⟩
    · have := hnone i
      rw [hself, hc] at this
      cases this
    · rw [hnotify]
      refine h.token fun j => ?_
      by_cases hj : j = i
      · exact hj ▸ hi
      · exact hother hj ▸ hnone j
  · by_cases hj : j = i
    · subst hj
      exact hself ▸ hwait released
    · exact hother hj ▸ h.noWait j released
  · rcases hholder hlock with hc | ⟨hlock, hi⟩
    · exact ⟨i, hself ▸ hc⟩
    · obtain ⟨j, hj⟩ := h.holder hlock
      have hji : j ≠ i := fun heq => by simp [heq, hi] at hj
      exact ⟨j, hother hji ▸ hj⟩
  · obtain ⟨n, hn⟩ := h.bounded
    refine ⟨max n (i + 1), fun j hj => ?_⟩
    rw [hother (by omega)]
    exact hn j (by omega)
  · by_cases hji : j = i
    · subst hji
      rw [hself] at hj ⊢
      exact hwr hj
    · rw [hother hji] at hj ⊢
      exact (h.submitted j hj).trans_le hwrites
  · have hji : j ≠ i := fun heq => hparked (by rw [← hself, ← heq, hj])
    rw [hother hji] at hj
    rcases hmembers with hsame | hfree
    · rw [hsame]
      exact h.parked j hj
    · have := (h.locked j (by rw [hj]; rfl)).1
      simp [hfree] at this

/-- A step of writer `i` that neither joins nor parks it, nor changes who is a member. -/
theorem Ready.calm (h : Ready s) (q : Calm s t) {c : Coro}
    (hcoros : t.coros = Function.update s.coros i c)
    (htoken : c.pc.writing = true ∨
      (s.coros i).pc.writing = false ∧ t.w.notify_leader_ = s.w.notify_leader_)
    (hwait : ∀ released, c.pc ≠ .leaderWait released) (hlock : t.w.lock_ = s.w.lock_)
    (hnot : (s.coros i).pc.isMemoryWait = false) (hpark : c.pc.isMemoryWait = false)
    (hwrites : s.writes.length ≤ t.writes.length)
    (hwr : c.pc = .commit false → c.wr < t.writes.length)
    (hc : c.pc.joined = (s.coros i).pc.joined)
    (hcopied : (t.w.writers_ 0).completed_copy_ = (s.w.writers_ 0).completed_copy_) :
    Ready t := by
  refine h.move (q.toQuiet.inv h.toInv) hcoros htoken hwait (fun ht => .inr ⟨hlock ▸ ht, hnot⟩)
    hwrites hwr (fun hpc => by simp [hpc, Pc.isMemoryWait] at hpark) (.inl q.members) ?_
  rw [hcopied, joined_congr q.members fun j _ => ?_]
  · exact h.joined
  · rw [hcoros]
    by_cases hj : j = i
    · subst hj
      rw [Function.update_self, hc]
    · rw [Function.update_of_ne hj]

theorem Ready.refusing (h : Ready s) {n : ℕ} {task : WriteTask}
    (hpc : (s.coros i).pc.holds = false) (htask : task.index_ = 0)
    (hfull : kBufferSize < s.total + (s.coros i).size.toNat) :
    Ready (s.refusing i n task false) := by
  have q : Quiet s (s.refusing i n task false) := h.refusing_quiet hpc htask hfull
  have hi : (s.coros i).pc.writing = false ∧ (s.coros i).pc.joined = false := by
    cases hp : (s.coros i).pc <;> simp [hp, Pc.holds, Pc.writing, Pc.joined] at hpc ⊢
  refine h.move (q.inv h.toInv) rfl (.inr ⟨hi.1, rfl⟩) (by simp) (fun _ => .inl rfl) le_rfl
    (by simp) (by simp) (.inl q.members) ?_
  have hjoined : (s.refusing i n task false).joined = s.joined := by
    refine joined_congr q.members fun j _ => ?_
    by_cases hj : j = i
    · subst hj
      rw [hi.2]
      simp [State.refusing, Pc.joined]
    · simp [State.refusing, hj]
  rw [hjoined]
  simpa [State.refusing] using h.joined

theorem Ready.granting (h : Ready s) (hpc : (s.coros i).pc = .lockWait)
    (hlock : s.w.lock_ = false) (hroom : s.total + (s.coros i).size.toNat ≤ kBufferSize) :
    Ready (s.granting i) := by
  refine h.move (h.toInv.granting hpc hlock hroom) rfl (.inr ⟨by rw [hpc]; rfl, rfl⟩) (by simp)
    (fun hfalse => nomatch hfalse) le_rfl (by simp) (by simp) (.inr hlock) ?_
  have hold : tally (s.members 0) (fun j => ((s.granting i).coros j).pc.joined) id = s.joined :=
    tally_congr fun j hj => by rw [h.granting_coros hpc (h.mem_granted hj)]
  have hmembers : (s.granting i).members 0 = s.members 0 ++ [i] := by simp [State.granting]
  rw [State.joined, hmembers, tally_append_singleton, hold]
  simpa [State.granting, Pc.joined] using h.joined

/-- Whether it is a member or late, the follower is counted. -/
theorem Ready.followerComplete (h : Ready s) (hpc : (s.coros i).pc = .copied)
    (hfollow : (s.coros i).task.is_leader_ = false) : Ready (s.followerComplete i) := by
  have q := h.followerComplete_calm hpc hfollow
  have hcoros : (s.followerComplete i).coros =
      Function.update s.coros i { s.coros i with pc := .followerWait false } := by
    rw [h.followerComplete_eq]
    rfl
  have hcopied : ((s.followerComplete i).w.writers_ 0).completed_copy_ =
      (s.w.writers_ 0).completed_copy_ + 1 := by
    rw [h.followerComplete_eq]
    simp [setBank]
  have hsame : (s.followerComplete i).w.lock_ = s.w.lock_ ∧
      (s.followerComplete i).w.notify_leader_ = s.w.notify_leader_ ∧
      (s.followerComplete i).writes = s.writes ∧ (s.followerComplete i).members = s.members := by
    rw [h.followerComplete_eq]
    exact ⟨rfl, rfl, rfl, rfl⟩
  obtain ⟨hlock, hnotify, hwrites, hmembers⟩ := hsame
  refine h.move (q.toQuiet.inv h.toInv) hcoros (.inr ⟨by rw [hpc]; rfl, hnotify⟩) (by simp)
    (fun ht => .inr ⟨hlock ▸ ht, by rw [hpc]; rfl⟩) (by rw [hwrites]) (by simp) (by simp)
    (.inl hmembers) ?_
  have hjoined : (fun j => ((s.followerComplete i).coros j).pc.joined) =
      Function.update (fun j => (s.coros j).pc.joined) i true := by
    funext j
    rw [hcoros]
    by_cases hj : j = i
    · subst hj
      simp [Pc.joined]
    · simp [hj]
  rw [hcopied, State.joined, hmembers, hjoined]
  have hle := h.joined
  rw [State.joined] at hle
  by_cases hi : i ∈ s.members 0
  · have hone := tally_update (p := id) (f := fun j => (s.coros j).pc.joined) (a := true)
      h.members_nodup hi
    simp only [id_eq, Bool.toNat_true] at hone
    omega
  · rw [tally_update_of_not_mem hi]
    omega

theorem Ready.finish (h : Ready s) (hpc : (s.coros i).pc = .commit true) :
    Ready (s.finish i) := by
  have hinv := h.toInv.finish hpc
  have heq := h.toInv.finish_eq (i := i)
  have hcoros (j : ℕ) : (s.finish i).coros j = s.finishCoro i j := by rw [heq]
  have hplace {j : ℕ} (hj : j ≠ i) := s.finishCoro_place hj
  refine ⟨hinv, fun _ => by rw [heq], fun j released hj => ?_, fun hlock => ?_, ?_,
    fun j hj => ?_, fun j _ => by rw [heq]; simp, by rw [State.joined, heq]; simp⟩
  · rw [hcoros] at hj
    by_cases hji : j = i
    · subst hji
      simp at hj
    · have := hplace hji
      rw [hj] at this
      cases hp : (s.coros j).pc <;> simp [hp, Pc.place] at this
      exact h.noWait j _ hp
  · have hlock : s.w.lock_ = true := by rwa [heq] at hlock
    obtain ⟨j, hj⟩ := h.holder hlock
    have hji : j ≠ i := fun heq => by simp [heq, hpc, Pc.isMemoryWait] at hj
    refine ⟨j, ?_⟩
    rw [hcoros, ← Pc.isMemoryWait_place, hplace hji, Pc.isMemoryWait_place, hj]
  · obtain ⟨n, hn⟩ := h.bounded
    refine ⟨max n (i + 1), fun j hj => ?_⟩
    have := hplace (j := j) (by omega)
    rw [hcoros]
    rw [hn j (by omega)] at this
    cases hp : (s.finishCoro i j).pc <;> simp [hp, Pc.place] at this
    rfl
  · have hwrites : (s.finish i).writes = s.writes := by rw [heq]
    rw [hcoros] at hj ⊢
    rw [hwrites, State.finishCoro_wr]
    refine h.submitted j ?_
    by_cases hji : j = i
    · subst hji
      simp at hj
    · have := hplace hji
      rw [hj] at this
      cases hp : (s.coros j).pc <;> simp [hp, Pc.place] at this
      rw [this]

/-- The token is with a leader that has not returned, and there is no second one. -/
theorem Ready.token_free (h : Ready s) (hpc : (s.coros i).pc = .copied)
    (hlead : (s.coros i).task.is_leader_ = true) : s.w.notify_leader_ = true := by
  refine h.token fun j => ?_
  by_contra hj
  have hwriting : (s.coros j).pc.writing = true := by simpa using hj
  have hopen := h.head_eq (by simp [h.held, hpc, Pc.holds]) hlead (by simp [hpc])
  obtain ⟨rest, hm⟩ := h.members_cons (Pc.leading_of_writing hwriting)
  have hj' := h.opened j (by simp [hm])
  rw [hopen.2 j (by simp [hm]), hm] at hj'
  obtain rfl : j = i := by simpa using hj'.1
  simp [hpc, Pc.writing] at hwriting

theorem Ready.step {l : Label} (h : Ready s) (hst : (machine host).step s l = some t) :
    Ready t := by
  cases h.steps hst with
  | call hpc =>
    exact h.calm (h.call_calm hpc) rfl (.inr ⟨by rw [hpc]; rfl, rfl⟩) (by simp) rfl
      (by rw [hpc]; rfl) rfl le_rfl (by simp) (by rw [hpc]; rfl) rfl
  | grant hpc hlock hroom => exact h.granting hpc hlock hroom
  | @refuse i n task _ hpc hn htask hfull =>
    refine h.refusing ?_ htask hfull
    rcases hpc with ⟨-, hpc⟩ | ⟨-, hpc⟩ <;> rw [hpc] <;> rfl
  | copy hpc =>
    exact h.calm (h.copy_calm hpc) rfl (.inr ⟨by rw [hpc]; rfl, rfl⟩) (by simp) rfl
      (by rw [hpc]; rfl) rfl le_rfl (by simp) (by rw [hpc]; rfl) rfl
  | @leaderWait i crc len hpc hlead =>
    have hpost : s.leaderComplete i host crc len = s.goto i (.leaderWait false) := by
      simpa [machine, LogWriter.step, hpc, hlead] using hst
    have hpcs := congrArg (fun u => (u.coros i).pc) hpost
    simp [State.leaderComplete, h.token_free hpc hlead, State.lead, State.goto, State.setCoro]
      at hpcs
  | @lead i crc len l hpc hlead =>
    have hpc := hpc.imp And.right And.right
    refine h.calm (h.lead_calm hpc hlead) rfl (.inl rfl) (by simp) rfl ?_ rfl le_rfl (by simp) ?_
      rfl
    all_goals rcases hpc with hpc | hpc <;> rw [hpc] <;> rfl
  | leave hpc _ =>
    exact h.calm (h.leave_calm hpc) rfl (.inl rfl) (by simp) rfl (by rw [hpc]; rfl) rfl
      (by simp [State.leave]) (by simp [State.leave]) (by rw [hpc]; rfl) rfl
  | ioComplete hpc _ _ =>
    exact h.calm (h.ioComplete_calm hpc) rfl (.inl rfl) (by simp) rfl (by rw [hpc]; rfl) rfl
      (by simp [State.ioComplete]) (by simp) (by rw [hpc]; rfl) rfl
  | finish hpc => exact h.finish hpc
  | followerComplete hpc hfollow => exact h.followerComplete hpc hfollow
  | followerResume hpc =>
    exact h.calm (h.followerResume_calm hpc) rfl (.inr ⟨by rw [hpc]; rfl, rfl⟩) (by simp) rfl
      (by rw [hpc]; rfl) rfl le_rfl (by simp) (by rw [hpc]; rfl) rfl

theorem Ready.start (hs : (machine host).start s) : Ready s := by
  refine ⟨inv_start hs, ?_, ?_, ?_, ?_, ?_, ?_, ?_⟩ <;>
    obtain ⟨raw_space, fd, mem, file, -, rfl⟩ := hs <;> simp [initial, init, State.joined]

theorem Ready.of_reachable (h : (machine host).Reachable s) : Ready s := by
  induction h using Machine.Reachable.induction with
  | init s hs => exact .start hs
  | next s l t _ hst ih => exact ih.step hst

/-! ## The log is stuck -/

/-- A `LeaderComplete` returns. -/
def Label.IsFinish (l : Label) : Prop := ∃ i, l = .leaderFinish i

theorem pending_congr {c : Coro} (hgranted : t.granted = s.granted)
    (hcoros : t.coros = Function.update s.coros i c) (hc : c.pending = (s.coros i).pending) :
    t.pending = s.pending := by
  rw [State.pending, State.pending, hgranted, hcoros]
  refine List.countP_congr fun j _ => ?_
  by_cases hj : j = i
  · subst hj
    rw [Function.update_self, hc]
  · rw [Function.update_of_ne hj]

theorem Inv.pending_update (h : Inv s) {c : Coro} (hgranted : t.granted = s.granted)
    (hcoros : t.coros = Function.update s.coros i c) (hi : i ∈ s.granted) :
    t.pending + (s.coros i).pending.toNat = s.pending + c.pending.toNat := by
  rw [State.pending, State.pending, hgranted, hcoros]
  exact tally_update h.nodup hi

theorem CatchesUp.of_le (hmembers : t.members = s.members)
    (hcount : (t.w.writers_ 0).count_ = (s.w.writers_ 0).count_)
    (hcopied : (s.w.writers_ 0).completed_copy_ ≤ (t.w.writers_ 0).completed_copy_)
    (hsum : (t.w.writers_ 0).completed_copy_ + t.pending ≤
      (s.w.writers_ 0).completed_copy_ + s.pending)
    (ht : t.CatchesUp) : s.CatchesUp := by
  obtain ⟨hopen, hlt, hle⟩ := ht
  exact ⟨hmembers ▸ hopen, by omega, by omega⟩

/-- The lock is held for ever, and the leader in the spin waits for ever. -/
structure Stuck (s : State) : Prop extends Ready s where
  shut : s.w.lock_ = true
  idle : ¬ s.Committing
  short : ¬ s.CatchesUp

/-- A step of writer `i` that does not lead into `commit`. -/
theorem Stuck.keep (h : Stuck s) (ht : Ready t) {c : Coro}
    (hcoros : t.coros = Function.update s.coros i c) (hlock : t.w.lock_ = true)
    (hc : ∀ posted, c.pc ≠ .commit posted) (hcatch : t.CatchesUp → s.CatchesUp) : Stuck t := by
  refine ⟨ht, hlock, ?_, fun hup => h.short (hcatch hup)⟩
  rintro ⟨j, posted, hj⟩
  exact h.idle ⟨j, posted, pc_of_update hcoros (hc posted) hj⟩

/-- A step of writer `i` that leaves the counters of the bank as they are. -/
theorem Stuck.calm (h : Stuck s) (ht : Ready t) (q : Calm s t) {c : Coro}
    (hcoros : t.coros = Function.update s.coros i c) (hlock : t.w.lock_ = s.w.lock_)
    (hc : ∀ posted, c.pc ≠ .commit posted) (hpending : c.pending = (s.coros i).pending)
    (hcopied : (t.w.writers_ 0).completed_copy_ = (s.w.writers_ 0).completed_copy_) :
    Stuck t := by
  refine h.keep ht hcoros (hlock.trans h.shut) hc ?_
  have hsame := pending_congr q.granted hcoros hpending
  exact CatchesUp.of_le q.members q.count_eq hcopied.ge (by omega)

theorem Stuck.step {l : Label} (h : Stuck s) (hst : (machine host).step s l = some t) :
    Stuck t ∧ ¬ l.IsFinish := by
  have ht := h.toReady.step hst
  have hnot {i : ℕ} {posted : Bool} (hpc : (s.coros i).pc = .commit posted) : False :=
    h.idle ⟨i, posted, hpc⟩
  cases h.steps hst with
  | call hpc =>
    refine ⟨h.calm ht (h.call_calm hpc) rfl rfl (by simp) ?_ rfl, by simp [Label.IsFinish]⟩
    simp [Coro.pending, Pc.early, hpc]
  | grant hpc hfree hroom => simp [h.shut] at hfree
  | @refuse i n task l hpc hn htask hfull =>
    rcases hpc with ⟨rfl, hpc⟩ | ⟨rfl, hpc⟩
    · have hfree : s.w.lock_ = false := by
        by_contra hlock
        simp [machine, LogWriter.step, hpc, hlock] at hst
      simp [h.shut] at hfree
    · refine ⟨h.keep ht rfl rfl (by simp) fun hup => ?_, by simp [Label.IsFinish]⟩
      exact absurd (h.parked i hpc) hup.1
  | copy hpc =>
    refine ⟨h.calm ht (h.copy_calm hpc) rfl rfl (by simp) ?_ rfl, by simp [Label.IsFinish]⟩
    simp [Coro.pending, Pc.early, hpc]
  | leaderWait hpc hlead =>
    refine ⟨h.calm ht (h.leaderWait_calm hpc hlead) rfl rfl (by simp) ?_ rfl,
      by simp [Label.IsFinish]⟩
    simp [Coro.pending, hlead]
  | @lead i crc len l hpc hlead =>
    have hcoros : (s.lead i host crc len).coros =
        Function.update s.coros i { s.coros i with pc := .spin } := rfl
    refine ⟨h.calm ht (h.lead_calm (hpc.imp And.right And.right) hlead) hcoros rfl (by simp) ?_
      rfl, ?_⟩
    · simp [Coro.pending, hlead]
    · rcases hpc with ⟨rfl, -⟩ | ⟨rfl, -⟩ <;> simp [Label.IsFinish]
  | @leave i hpc hdone =>
    obtain ⟨rest, hm⟩ := h.members_cons (i := i) (by rw [hpc]; rfl)
    exact absurd ⟨by simp [hm], by omega, by omega⟩ h.short
  | ioComplete hpc _ _ => exact (hnot hpc).elim
  | finish hpc => exact (hnot hpc).elim
  | @followerComplete i hpc hfollow =>
    have q := h.followerComplete_calm hpc hfollow
    have heq := h.followerComplete_eq (i := i)
    have hcoros : (s.followerComplete i).coros =
        Function.update s.coros i { s.coros i with pc := .followerWait false } := by
      rw [heq]
      rfl
    have hcopied : ((s.followerComplete i).w.writers_ 0).completed_copy_ =
        (s.w.writers_ 0).completed_copy_ + 1 := by
      rw [heq]
      simp [setBank]
    have hone := h.pending_update q.granted hcoros (by simp [h.held, hpc, Pc.holds])
    simp only [Coro.pending, Pc.early, hpc, hfollow, Bool.not_false, Bool.and_true,
      Bool.and_false, Bool.toNat_true, Bool.toNat_false] at hone
    refine ⟨h.keep ht hcoros ?_ (by simp) (CatchesUp.of_le q.members q.count_eq ?_ ?_),
      by simp [Label.IsFinish]⟩
    · rw [heq]
      exact h.shut
    · omega
    · omega
  | followerResume hpc =>
    refine ⟨h.calm ht (h.followerResume_calm hpc) rfl rfl (by simp) ?_ rfl,
      by simp [Label.IsFinish]⟩
    simp [Coro.pending, Pc.early, hpc]

/-! ## The log goes on -/

/-- Steps that a writer with a region takes before it waits, and one more for the leader. -/
def Pc.toGo : Pc → ℕ
  | .granted => 3
  | .copied => 2
  | .spin => 1
  | _ => 0

/-- What remains of the schedule: a surplus of late followers is met by new writers. -/
def State.toGo (s : State) : ℕ :=
  (s.granted.map fun i => (s.coros i).pc.toGo).sum +
    4 * ((s.w.writers_ 0).completed_copy_ + 1 - (s.w.writers_ 0).count_)

/-- A group that the schedule brings into `commit`. -/
structure OnCourse (s : State) : Prop extends Ready s where
  nonempty : s.members 0 ≠ []
  enough : (s.w.writers_ 0).count_ ≤ (s.w.writers_ 0).completed_copy_ + s.pending + 1
  notPast : s.w.lock_ = false ∨ (s.w.writers_ 0).completed_copy_ < (s.w.writers_ 0).count_

/-- The next state of the schedule. -/
def Closer (s t : State) : Prop := OnCourse t ∧ t.toGo < s.toGo

/-- Writer `i` moves on, and `joins` tells whether it calls `FollowerComplete`. -/
theorem OnCourse.move (joins : Bool) (h : OnCourse s) {l : Label}
    (hst : (machine host).step s l = some t) (q : Calm s t) {c : Coro}
    (hcoros : t.coros = Function.update s.coros i c)
    (hi : i ∈ s.granted) (hlock : t.w.lock_ = s.w.lock_)
    (hcopied : (t.w.writers_ 0).completed_copy_ =
      (s.w.writers_ 0).completed_copy_ + joins.toNat)
    (hroom : joins = true → (s.w.writers_ 0).completed_copy_ + 1 < (s.w.writers_ 0).count_)
    (hpending : (s.coros i).pending.toNat = c.pending.toNat + joins.toNat)
    (hgo : c.pc.toGo < (s.coros i).pc.toGo) :
    (machine host).CanReach s (Closer s) := by
  have hone := h.pending_update q.granted hcoros hi
  have hcount := q.count_eq
  have henough := h.enough
  have hsum := sum_update (f := s.coros) (a := c) (g := fun c => c.pc.toGo) h.nodup hi
  have hjoins : joins.toNat = 0 ∨ joins.toNat = 1 ∧
      (s.w.writers_ 0).completed_copy_ + 1 < (s.w.writers_ 0).count_ := by
    cases joins with
    | false => exact .inl rfl
    | true => exact .inr ⟨rfl, hroom rfl⟩
  refine .after hst (.here ⟨⟨h.toReady.step hst, q.members ▸ h.nonempty, by omega, ?_⟩, ?_⟩)
  · rcases h.notPast with hfree | hlt
    · exact .inl (hlock.trans hfree)
    · exact .inr (by omega)
  · rw [State.toGo, State.toGo, q.granted, hcoros]
    omega

theorem OnCourse.copy (h : OnCourse s) (hpc : (s.coros i).pc = .granted) :
    (machine host).CanReach s (Closer s) := by
  refine h.move false (l := .copy i fun _ => 0) (t := s.copy i fun _ => 0) ?_
    (h.copy_calm hpc) rfl (by simp [h.held, hpc, Pc.holds]) rfl rfl (by simp) ?_ ?_
  · simp [machine, LogWriter.step, hpc]
  · simp [Coro.pending, Pc.early, hpc]
  · simp [Pc.toGo, hpc]

theorem OnCourse.lead (h : OnCourse s) (hpc : (s.coros i).pc = .copied)
    (hlead : (s.coros i).task.is_leader_ = true) : (machine host).CanReach s (Closer s) := by
  refine h.move false (l := .leaderComplete i 0 0) (t := s.lead i host 0 0)
    (c := { s.coros i with pc := .spin }) ?_ (h.lead_calm (.inl hpc) hlead) rfl
    (by simp [h.held, hpc, Pc.holds]) rfl rfl (by simp) ?_ ?_
  · simp [machine, LogWriter.step, hpc, hlead, State.leaderComplete, h.token_free hpc hlead]
  · simp [Coro.pending, hlead]
  · simp [Pc.toGo, hpc]

theorem OnCourse.leave (h : OnCourse s) (hpc : (s.coros i).pc = .spin)
    (hdone : (s.w.writers_ 0).completed_copy_ + 1 = (s.w.writers_ 0).count_) :
    (machine host).CanReach s (Closer s) := by
  have hlead := h.leading i (by rw [hpc]; rfl)
  refine h.move false (l := .leave i) (t := s.leave i)
    (c := { s.coros i with pc := .commit false, wr := s.writes.length }) ?_ (h.leave_calm hpc) rfl
    (by simp [h.held, hpc, Pc.holds]) rfl rfl (by simp) ?_ ?_
  · simp [machine, LogWriter.step, hpc, h.bank_eq, hdone]
  · simp [Coro.pending, hlead]
  · simp [Pc.toGo, hpc]

/-- A follower copies or is counted. -/
theorem OnCourse.follow (h : OnCourse s)
    (hroom : (s.w.writers_ 0).completed_copy_ + 1 < (s.w.writers_ 0).count_) :
    (machine host).CanReach s (Closer s) := by
  have henough := h.enough
  obtain ⟨j, hj, hpending⟩ : ∃ j ∈ s.granted, (s.coros j).pending = true := by
    have hpos : 0 < s.pending := by omega
    exact List.countP_pos_iff.mp hpos
  have hfollow : (s.coros j).task.is_leader_ = false := by
    simp only [Coro.pending, Bool.and_eq_true, Bool.not_eq_true'] at hpending
    exact hpending.1
  have hearly : (s.coros j).pc = .granted ∨ (s.coros j).pc = .copied := by
    simp only [Coro.pending, Bool.and_eq_true] at hpending
    cases hp : (s.coros j).pc <;> simp [hp, Pc.early] at hpending ⊢
  rcases hearly with hpc | hpc
  · exact h.copy hpc
  · have heq := h.followerComplete_eq (i := j)
    refine h.move true (l := .followerComplete j) (t := s.followerComplete j)
      (c := { s.coros j with pc := .followerWait false }) ?_ (h.followerComplete_calm hpc hfollow)
      ?_ hj ?_ ?_ (fun _ => hroom) ?_ ?_
    · simp [machine, LogWriter.step, hpc, hfollow]
    · rw [heq]
      rfl
    · rw [heq]
      rfl
    · rw [heq]
      simp [setBank]
    · simp [Coro.pending, Pc.early, hpc, hfollow]
    · simp [Pc.toGo, hpc]

/-- As long as no request was refused, the followers of the group suffice. -/
theorem Ready.enough (h : Ready s) (hfree : s.w.lock_ = false) :
    (s.w.writers_ 0).count_ ≤ (s.w.writers_ 0).completed_copy_ + s.pending + 1 := by
  rw [h.count_eq hfree]
  cases hm : s.members 0 with
  | nil => simp
  | cons l rest =>
    have hrest {j : ℕ} (hj : j ∈ rest) : j ∈ s.members 0 := by simp [hm, hj]
    have hjoined : rest.countP (fun j => (s.coros j).pc.joined) ≤ s.joined := by
      rw [State.joined, tally, hm]
      exact (List.sublist_cons_self l rest).countP_le
    have hpending : rest.countP (fun j => (s.coros j).pending) ≤ s.pending := by
      refine List.Sublist.countP_le ?_
      rw [h.split, hm]
      exact (List.sublist_cons_self l rest).trans (List.sublist_append_right _ _)
    have hall : rest.countP (fun j => ¬ (s.coros j).pc.joined = true) ≤
        rest.countP (fun j => (s.coros j).pending) := by
      refine List.countP_mono_left fun j hj hnot => ?_
      have hfollow := (h.leader_first hm).2 j hj
      have hheld := (h.held j).mp (h.mem_granted (hrest hj))
      have hleading := h.leading j
      cases hp : (s.coros j).pc <;>
        simp [hp, hfollow, Pc.holds, Pc.joined, Pc.leading, Coro.pending, Pc.early]
          at hheld hnot hleading ⊢
    have hlen := List.length_eq_countP_add_countP (fun j => (s.coros j).pc.joined) (l := rest)
    have hcopied := h.joined
    simp only [List.length_cons]
    omega

/-- A writer that asks for no bytes is granted them. -/
theorem Ready.newcomer (h : Ready s) (host : Endian) (hfree : s.w.lock_ = false) :
    ∃ j t u, (machine host).step s (.call j 0) = some t ∧
      (machine host).step t (.lock j) = some u ∧ Ready u ∧ u.w.lock_ = false ∧
      u.members 0 = s.members 0 ++ [j] ∧ u.granted = s.granted ++ [j] ∧
      (u.w.writers_ 0).count_ = (s.w.writers_ 0).count_ + 1 ∧
      (u.w.writers_ 0).completed_copy_ = (s.w.writers_ 0).completed_copy_ ∧
      (u.coros j).pc = .granted ∧ ∀ k ∈ s.granted, u.coros k = s.coros k := by
  obtain ⟨j, hj⟩ := h.bounded
  have hidle := hj j le_rfl
  have hcall : (machine host).step s (.call j 0) = some (s.call j 0) := by
    simp [machine, LogWriter.step, hidle]
  have hready := h.step hcall
  have hpc : ((s.call j 0).coros j).pc = .lockWait := by simp [State.call, State.setCoro]
  have hroom : (s.call j 0).total + ((s.call j 0).coros j).size.toNat ≤ kBufferSize := by
    have := hready.fits
    simpa [State.call, State.setCoro] using this
  have hlock : (machine host).step (s.call j 0) (.lock j) = some ((s.call j 0).granting j) := by
    have heq : (s.call j 0).lock j = (s.call j 0).granting j := by
      rcases hready.lock_cases hpc with ⟨-, heq⟩ | ⟨hfull, -⟩
      · exact heq
      · omega
    have hfree' : (s.call j 0).w.lock_ = false := hfree
    simp only [machine, LogWriter.step]
    rw [if_pos ⟨hpc, hfree'⟩, heq]
  refine ⟨j, _, _, hcall, hlock, hready.step hlock, rfl, ?_, rfl, ?_, ?_, ?_, fun k hk => ?_⟩
  · simp [State.granting, State.call, State.setCoro]
  · simp [State.granting, State.call, State.setCoro]
  · simp [State.granting, State.call, State.setCoro]
  · simp [State.granting]
  · have hkj : k ≠ j := ne_of_mem_of_not_mem hk (h.not_mem (by rw [hidle]; rfl))
    simp [State.granting, State.call, State.setCoro, hkj]

/-- More late followers came than the group has members to wait for. -/
theorem OnCourse.grow (h : OnCourse s) (hfree : s.w.lock_ = false)
    (hpast : (s.w.writers_ 0).count_ ≤ (s.w.writers_ 0).completed_copy_) :
    (machine host).CanReach s (Closer s) := by
  obtain ⟨j, t, u, hcall, hlock, hready, hfree', hmembers, hgranted, hcount, hcopied, hpc, hold⟩ :=
    h.toReady.newcomer host hfree
  refine .after hcall (.after hlock (.here ⟨⟨hready, ?_, hready.enough hfree', .inl hfree'⟩, ?_⟩))
  · simp [hmembers]
  · have hsum : (s.granted.map fun i => (u.coros i).pc.toGo) =
        s.granted.map fun i => (s.coros i).pc.toGo :=
      List.map_congr_left fun k hk => by rw [hold k hk]
    rw [State.toGo, State.toGo, hgranted, List.map_append, hsum, hcount, hcopied]
    simp only [List.map_cons, List.map_nil, List.sum_append, List.sum_singleton, hpc, Pc.toGo]
    omega

/-- The leader goes to the spin first, then the followers come, then the leader leaves. -/
theorem OnCourse.advance (h : OnCourse s) (hnot : ¬ s.Committing) :
    (machine host).CanReach s (Closer s) := by
  obtain ⟨l, rest, hm⟩ := List.exists_cons_of_ne_nil h.nonempty
  have hl : l ∈ s.members 0 := by simp [hm]
  have hlead := (h.toInv.leader_first hm).1
  have hself : (s.coros l).leader = l := (h.leads l (h.mem_granted hl)).mp hlead
  have hopen := (h.opened l hl).2
  rw [hself] at hopen
  have hheld := (h.held l).mp (h.mem_granted hl)
  have hfollowing := h.following l
  cases hpc : (s.coros l).pc with
  | granted => exact h.copy hpc
  | copied => exact h.lead hpc hlead
  | spin =>
    rcases lt_trichotomy ((s.w.writers_ 0).completed_copy_ + 1) (s.w.writers_ 0).count_ with
      hlt | heq | hgt
    · exact h.follow hlt
    · exact h.leave hpc heq
    · rcases h.notPast with hfree | hlt
      · exact h.grow hfree (by omega)
      · omega
  | commit posted => exact absurd ⟨l, posted, hpc⟩ hnot
  | leaderWait released => exact absurd hpc (h.noWait l released)
  | followerWait => simp [hpc, hlead, Pc.following] at hfollowing
  | returned => exact absurd hpc hopen
  | idle | lockWait | memoryWait => simp [hpc, Pc.holds] at hheld

theorem OnCourse.committing (h : OnCourse s) : (machine host).CanReach s State.Committing :=
  Machine.canReach_of_rank State.toGo (fun _ h hnot => h.advance hnot) h

/-- The kernel may complete the write of a leader with any result, and the leader returns. -/
theorem Ready.canTake_of_committing (h : Ready s) (hc : s.Committing) :
    (machine host).CanTake s Label.IsFinish := by
  obtain ⟨i, posted, hpc⟩ := hc
  have hfinish {u : State} (hu : (u.coros i).pc = .commit true) :
      (machine host).step u (.leaderFinish i) = some (u.finish i) := by
    simp [machine, LogWriter.step, hu]
  cases posted with
  | true => exact .now (hfinish hpc) ⟨i, rfl⟩
  | false =>
    obtain ⟨write, hwrite⟩ : ∃ write, s.writes[(s.coros i).wr]? = some write :=
      ⟨_, List.getElem?_eq_getElem (h.submitted i hpc)⟩
    have hio : (machine host).step s (.ioComplete i 0) = some (s.ioComplete i write 0) := by
      simp only [machine, LogWriter.step, hwrite]
      rw [if_pos ⟨hpc, fun hpos => absurd hpos (lt_irrefl 0)⟩]
    have hdone : (machine host).CanReach s fun u => (u.coros i).pc = .commit true :=
      .after hio (.here (by rw [State.ioComplete_self]))
    exact hdone.canTake fun u hu => .now (hfinish hu) ⟨i, rfl⟩

theorem OnCourse.canTake (h : OnCourse s) (hs : (machine host).Reachable s) :
    (machine host).CanTake s Label.IsFinish :=
  (h.committing.reachable hs).canTake fun _ hu =>
    (Ready.of_reachable hu.1).canTake_of_committing hu.2

/-- Some `LeaderComplete` can still return exactly if no request was refused so far, or a leader
is in `commit`, or the group can still make up for its refused requests with late followers. -/
theorem canFinish_iff (h : (machine host).Reachable s) :
    (machine host).CanTake s Label.IsFinish ↔
      s.w.lock_ = false ∨ s.Committing ∨ s.CatchesUp := by
  have hready := Ready.of_reachable h
  constructor
  · intro hcan
    by_contra hnone
    obtain ⟨hlock, hidle, hshort⟩ : s.w.lock_ = true ∧ ¬ s.Committing ∧ ¬ s.CatchesUp := by
      simpa using hnone
    exact Machine.not_canTake_of_trap (I := Stuck) (fun _ _ _ h hst => h.step hst)
      ⟨hready, hlock, hidle, hshort⟩ hcan
  · rintro (hfree | hcommit | ⟨hne, hlt, hle⟩)
    · have hcourse : (machine host).CanReach s OnCourse := by
        by_cases hne : s.members 0 = []
        · obtain ⟨j, t, u, hcall, hlock, hu, hfree', hmembers, -⟩ :=
            hready.newcomer host hfree
          refine .after hcall (.after hlock (.here ⟨hu, ?_, hu.enough hfree', .inl hfree'⟩))
          simp [hmembers]
        · exact .here ⟨hready, hne, hready.enough hfree, .inl hfree⟩
      exact (hcourse.reachable h).canTake fun u hu => hu.2.canTake hu.1
    · exact hready.canTake_of_committing hcommit
    · exact OnCourse.canTake ⟨hready, hne, hle, .inr hlt⟩ h

theorem canFinish_iff_refused : ∃ s, (machine .little).run fresh stuckRun = some s ∧
    ¬ (machine .little).CanTake s Label.IsFinish := by
  have hrun : ((machine .little).run fresh stuckRun).any (fun s =>
      s.w.lock_ = true ∧ (s.coros 0).pc = .spin ∧
        (s.w.writers_ 0).completed_copy_ + s.pending + 1 < (s.w.writers_ 0).count_) = true := by
    decide +kernel
  obtain ⟨s, hs, hlock, hspin, hshort⟩ := Machine.exists_of_run hrun
  refine ⟨s, hs, ?_⟩
  have hreach := Machine.Reachable.of_run (M := machine .little) fresh_start hs
  rw [canFinish_iff hreach]
  rintro (hfree | ⟨j, posted, hj⟩ | ⟨-, -, hle⟩)
  · simp [hlock] at hfree
  · obtain rfl : j = 0 := (inv_of_reachable hreach).leading_eq (by rw [hspin]; rfl)
      (by rw [hj]; rfl)
    simp [hspin] at hj
  · omega

end QStorage.Db.LogWriter
