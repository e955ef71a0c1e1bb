import QStorage.Db.LogWriter.Durability

/-!
# Acknowledging a write

`LeaderComplete` waits for its write and then posts, returns and releases without a look at the
result. So a group whose write has failed is told that it is done.

## Main results

* `LogWriter.Reported.step` — as long as writes are transferred in full, no leader has another
  result.
* `LogWriter.honest_iff` — in which runs no failed write is acknowledged.
-/

namespace QStorage.Db.LogWriter

open QStorage.Lib QStorage.Infra

/-- The kernel has transferred the write in full. -/
def Write.InFull (write : Write) : Prop := write.res_ = some (write.req.size_ : ℤ)

/-- The write that leader `i` has submitted is complete, with its full length. -/
def State.Full (s : State) (i : ℕ) : Prop :=
  ∃ write, s.writes[(s.coros i).wr]? = some write ∧ write.InFull

/-- The kernel has reported another result to leader `i`. -/
def State.Failed (s : State) (i : ℕ) : Prop :=
  (s.coros i).task.is_leader_ = true ∧ (s.coros i).pc.posted = true ∧ ¬ s.Full i

/-- A member of the group that `i` leads, `i` among them, sees success, or the ring has released
the first byte of the group. -/
def State.Acked (s : State) (i : ℕ) : Prop :=
  (∃ j ∈ s.granted, (s.coros j).leader = i ∧ (s.coros j).pc.released = true) ∨
    (s.coros i).pos < s.w.buffer_.tail_.toNat

/-- No group whose write has failed is acknowledged, now or later. -/
def Honest (host : Endian) (s : State) : Prop :=
  ∀ i, s.Failed i → ∀ tr t, (machine host).Trace s tr t → ¬ t.Acked i

/-- The kernel reports that it has transferred what was submitted. -/
def State.InFull (s : State) : Label → Prop
  | .ioComplete i res => ∀ write ∈ s.writes[(s.coros i).wr]?, res = write.req.size_
  | _ => True

variable {host : Endian} {s t : State} {i j : ℕ}

/-- The invariant of runs in which every result is the full length. -/
structure Reported (s : State) : Prop extends Inv s where
  full : ∀ i, (s.coros i).task.is_leader_ = true → (s.coros i).pc.posted = true → s.Full i

theorem Reported.honest (h : Reported s) : Honest host s :=
  fun i hfailed => absurd (h.full i hfailed.1 hfailed.2.1) hfailed.2.2

/-- A step of writer `i` that leaves the results which are in as they are. -/
theorem Reported.move (h : Reported s) (hinv : Inv t) {c : Coro}
    (hcoros : t.coros = Function.update s.coros i c)
    (hwrites : ∀ (k : ℕ) (write : Write), s.writes[k]? = some write → write.InFull →
      ∃ write' : Write, t.writes[k]? = some write' ∧ write'.InFull)
    (hself : c.task.is_leader_ = true → c.pc.posted = true → t.Full i) : Reported t := by
  refine ⟨hinv, fun j hlead hposted => ?_⟩
  by_cases hj : j = i
  · subst hj
    rw [hcoros, Function.update_self] at hlead hposted
    exact hself hlead hposted
  · have hother : t.coros j = s.coros j := by rw [hcoros, Function.update_of_ne hj]
    rw [hother] at hlead hposted
    obtain ⟨write, hwrite, hres⟩ := h.full j hlead hposted
    rw [State.Full, hother]
    exact hwrites _ write hwrite hres

/-- A step of writer `i` to a place before the end of its write. -/
theorem Reported.before (h : Reported s) (hinv : Inv t) {c : Coro}
    (hcoros : t.coros = Function.update s.coros i c) (hwrites : t.writes = s.writes)
    (hself : c.pc.posted = false) : Reported t := by
  refine h.move hinv hcoros ?_ ?_
  · intro k write hwrite hres
    exact ⟨write, hwrites ▸ hwrite, hres⟩
  · intro _ hposted
    rw [hself] at hposted
    cases hposted

theorem Reported.ioComplete (h : Reported s) {write : Write}
    (hinv : Inv (s.ioComplete i write write.req.size_))
    (hwrite : s.writes[(s.coros i).wr]? = some write) :
    Reported (s.ioComplete i write write.req.size_) := by
  have hlt := (List.getElem?_eq_some_iff.mp hwrite).1
  have hset := s.ioComplete_writes i write write.req.size_
  refine h.move (i := i) (c := { s.coros i with pc := .commit true }) hinv rfl ?_ ?_
  · intro k found hfound hres
    rw [hset]
    by_cases hk : (s.coros i).wr = k
    · subst hk
      exact ⟨_, List.getElem?_set_self hlt, rfl⟩
    · exact ⟨found, by rw [List.getElem?_set_ne hk, hfound], hres⟩
  · intro _ _
    rw [State.Full, s.ioComplete_self, hset]
    exact ⟨_, List.getElem?_set_self hlt, rfl⟩

theorem Reported.finish (h : Reported s) (hinv : Inv (s.finish i))
    (hpc : (s.coros i).pc = .commit true) : Reported (s.finish i) := by
  have hcoros : (s.finish i).coros = s.finishCoro i := by rw [h.finish_eq]
  have hwrites : (s.finish i).writes = s.writes := by rw [h.finish_eq]
  refine ⟨hinv, fun j hlead hposted => ?_⟩
  rw [hcoros] at hlead hposted
  rw [State.Full, hcoros, hwrites, s.finishCoro_wr]
  rw [s.finishCoro_task] at hlead
  by_cases hj : j = i
  · subst hj
    exact h.full j hlead (by rw [hpc]; rfl)
  · rw [← Pc.posted_place, s.finishCoro_place hj, Pc.posted_place] at hposted
    exact h.full j hlead hposted

theorem Reported.step {l : Label} (h : Reported s) (hfull : s.InFull l)
    (hst : (machine host).step s l = some t) : Reported t := by
  have hinv := inv_step h.toInv hst
  cases h.steps hst with
  | call _ => exact h.before hinv rfl rfl rfl
  | grant _ _ _ => exact h.before hinv rfl rfl rfl
  | refuse _ _ _ _ => exact h.before hinv rfl rfl rfl
  | copy _ => exact h.before hinv rfl rfl rfl
  | leaderWait _ _ => exact h.before hinv rfl rfl rfl
  | lead _ _ => exact h.before hinv rfl rfl rfl
  | @leave i hpc _ =>
    -- the new write comes behind those that have a result
    refine h.move (i := i) (c := { s.coros i with pc := .commit false, wr := s.writes.length })
      hinv rfl ?_ nofun
    intro k write hwrite hres
    have hlt := (List.getElem?_eq_some_iff.mp hwrite).1
    exact ⟨write, by rw [State.leave, List.getElem?_append_left hlt, hwrite], hres⟩
  | ioComplete _ hwrite _ =>
    obtain rfl := hfull _ hwrite
    exact h.ioComplete hinv hwrite
  | finish hpc => exact h.finish hinv hpc
  | followerComplete _ _ =>
    rw [h.followerComplete_eq] at hinv ⊢
    exact h.before hinv rfl rfl rfl
  | @followerResume i hpc =>
    have hfollow := h.following i (by rw [hpc]; rfl)
    refine h.move (i := i) (c := { s.coros i with pc := .returned }) hinv rfl
      (fun k write hwrite hres => ⟨write, hwrite, hres⟩) ?_
    intro hlead _
    rw [hfollow] at hlead
    cases hlead

/-- Whatever the result, the leader goes on to post, and returns. -/
theorem Inv.dishonest (h : Inv s) {write : Write} {res : ℤ} (hpc : (s.coros i).pc = .commit false)
    (hwrite : s.writes[(s.coros i).wr]? = some write) (hres : res ≠ write.req.size_) :
    ¬ Honest host (s.ioComplete i write res) := by
  intro hhonest
  have hinv : Inv (s.ioComplete i write res) := (h.ioComplete_calm hpc).toQuiet.inv h
  have hself := s.ioComplete_self i write res
  have hgranted : i ∈ (s.ioComplete i write res).granted := by
    rw [hinv.held, hself]
    rfl
  have hlead := hinv.leading i (by rw [hself]; rfl)
  have hfailed : (s.ioComplete i write res).Failed i := by
    refine ⟨hlead, by rw [hself]; rfl, ?_⟩
    rintro ⟨found, hfound, hfull⟩
    have hlt := (List.getElem?_eq_some_iff.mp hwrite).1
    rw [hself, s.ioComplete_writes, List.getElem?_set_self hlt] at hfound
    obtain rfl := Option.some.inj hfound
    exact hres (Option.some.inj hfull)
  have hstep : (machine host).step (s.ioComplete i write res) (.leaderFinish i) =
      some ((s.ioComplete i write res).finish i) := if_pos (by rw [hself])
  refine hhonest i hfailed _ _ (Machine.Trace.nil.snoc hstep) (.inl ⟨i, ?_, ?_, ?_⟩)
  · rw [hinv.finish_eq]
    exact hgranted
  · rw [hinv.finish_eq]
    simpa using (hinv.leads i hgranted).mp hlead
  · rw [hinv.finish_eq]
    simp [Pc.released]

/-- In a run, a failed write is never acknowledged exactly if no write fails. -/
theorem honest_iff {tr : List (State × Label)} (hs : (machine host).start s)
    (htr : (machine host).Trace s tr t) :
    (∀ u ∈ Machine.visited tr t, Honest host u) ↔ ∀ p ∈ tr, p.1.InFull p.2 := by
  refine htr.forall_visited_iff (I := Reported) (fun _ h => h.honest)
    (fun _ _ _ h hfull hst => h.step hfull hst) ?_ ?_
  · intro s l t h hfull hst
    cases l with
    | ioComplete i res =>
      obtain ⟨write, hwrite, ⟨hpc, -⟩, rfl⟩ := step_ioComplete hst
      simp only [State.InFull, hwrite, Option.mem_def, Option.some.injEq, forall_eq'] at hfull
      exact h.dishonest hpc hwrite hfull
    | _ => exact absurd trivial hfull
  · refine ⟨inv_start hs, fun j hlead => ?_⟩
    obtain ⟨raw_space, fd, mem, file, -, rfl⟩ := hs
    simp [initial] at hlead

theorem honest_iff_group : ∃ tr t, (machine .little).Trace fresh tr t ∧
    tr.map Prod.snd = groupRun ∧
    ((∀ u ∈ Machine.visited tr t, Honest .little u) ↔ ∀ p ∈ tr, p.1.InFull p.2) := by
  obtain ⟨tr, t, htr, hls⟩ := Machine.Trace.of_isSome
    (show ((machine .little).run fresh groupRun).isSome = true by decide +kernel)
  exact ⟨tr, t, htr, hls, honest_iff fresh_start htr⟩

/-- A leader waits for its write. -/
def submittedRun : List Label :=
  [.call 0 100, .lock 0, .copy 0 fun _ => 7, .leaderComplete 0 1 94, .leave 0]

/-- The write ends with `EIO`. -/
theorem not_honest : ∃ s t, (machine .little).Reachable s ∧
    (machine .little).step s (.ioComplete 0 (-5)) = some t ∧ ¬ Honest .little t := by
  have hrun : ((machine .little).run fresh submittedRun).any (fun s =>
      ((machine .little).step s (.ioComplete 0 (-5))).isSome) = true := by decide +kernel
  obtain ⟨s, hs, hsome⟩ := (Option.any_eq_true _ _).mp hrun
  obtain ⟨t, ht⟩ := Option.isSome_iff_exists.mp hsome
  have hreach : (machine .little).Reachable s := .of_run fresh_start hs
  refine ⟨s, t, hreach, ht, ?_⟩
  obtain ⟨write, hwrite, ⟨hpc, -⟩, rfl⟩ := step_ioComplete ht
  exact (inv_of_reachable hreach).dishonest hpc hwrite (by omega)

end QStorage.Db.LogWriter
