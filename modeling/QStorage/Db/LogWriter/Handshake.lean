import QStorage.Db.LogWriter.Invariant
import QStorage.Lib.Tally

/-!
# The handshake between a leader and its followers

`FollowerComplete` raises `completed_copy_` of the bank and waits for the bank's
`completion_`. Both belong to whatever group the bank holds at that moment: a follower that
comes after its group was reset counts for the next group and waits for the next leader.

## Main results

* `LogWriter.copied_of_leave` — no torn group in runs without such a follower.
* `LogWriter.noStranded_iff` — a follower waits in vain exactly if it is such a one.
-/

namespace QStorage.Db.LogWriter

open QStorage.Lib QStorage.Infra

/-- The writer has called `FollowerComplete`. -/
def Pc.joined : Pc → Bool
  | .followerWait _ | .returned => true
  | _ => false

/-- `FollowerComplete` is called before the leader of the writer's group has returned. -/
def State.Timely (s : State) : Label → Prop
  | .followerComplete i => (s.coros (s.coros i).leader).pc ≠ .returned
  | _ => True

instance (s : State) : (l : Label) → Decidable (s.Timely l)
  | .followerComplete i => inferInstanceAs (Decidable ((s.coros (s.coros i).leader).pc ≠ .returned))
  | .call .. | .lock _ | .memoryResume _ | .copy .. | .leaderComplete .. | .leaderResume ..
  | .leave _ | .ioComplete .. | .leaderFinish _ | .followerResume _ => .isTrue trivial

variable {host : Endian} {s t : State} {i : ℕ}

/-! ## No torn group -/

/-- Members of the open group that have called `FollowerComplete`. -/
def State.joined (s : State) : ℕ := tally (s.members 0) (fun j => (s.coros j).pc.joined) id

/-- The invariant of runs in which every follower is timely. -/
structure Handshaken (s : State) : Prop extends Inv s where
  copied : (s.w.writers_ 0).completed_copy_ = s.joined

theorem joined_congr (hmembers : t.members = s.members)
    (hpc : ∀ j ∈ s.members 0, (t.coros j).pc.joined = (s.coros j).pc.joined) :
    t.joined = s.joined := by
  rw [State.joined, State.joined, hmembers]
  exact tally_congr hpc

/-- A step in which a writer moves without joining. -/
theorem Handshaken.quiet (h : Handshaken s) (q : Quiet s t) {c : Coro}
    (hcoros : t.coros = Function.update s.coros i c)
    (hc : c.pc.joined = (s.coros i).pc.joined)
    (hcopied : (t.w.writers_ 0).completed_copy_ = (s.w.writers_ 0).completed_copy_) :
    Handshaken t := by
  refine ⟨q.inv h.toInv, ?_⟩
  rw [hcopied, h.copied, joined_congr q.members fun j _ => ?_]
  rw [hcoros]
  by_cases hj : j = i
  · subst hj
    rw [Function.update_self, hc]
  · rw [Function.update_of_ne hj]

theorem Handshaken.followerComplete (h : Handshaken s) (hpc : (s.coros i).pc = .copied)
    (hfollow : (s.coros i).task.is_leader_ = false)
    (htimely : (s.coros (s.coros i).leader).pc ≠ .returned) :
    Handshaken (s.followerComplete i) := by
  refine ⟨(h.followerComplete_calm hpc hfollow).toQuiet.inv h.toInv, ?_⟩
  have hmem := h.mem_of_open (by simp [h.held, hpc, Pc.holds]) htimely
  have hone := tally_update (p := id) (f := fun j => (s.coros j).pc.joined) (a := true)
    h.members_nodup hmem
  have hjoined : (fun j => ((s.followerComplete i).coros j).pc.joined) =
      Function.update (fun j => (s.coros j).pc.joined) i true := by
    funext j
    rw [h.followerComplete_eq]
    by_cases hj : j = i
    · subst hj
      simp [State.goto, State.setCoro, Pc.joined]
    · simp [State.goto, State.setCoro, hj]
  have hcopied : ((s.followerComplete i).w.writers_ 0).completed_copy_ = s.joined + 1 := by
    rw [h.followerComplete_eq, ← h.copied]
    simp [setBank]
  have hmembers : (s.followerComplete i).members = s.members := rfl
  rw [hcopied, State.joined, State.joined, hmembers, hjoined]
  simpa [hpc, Pc.joined] using hone.symm

theorem Handshaken.granting (h : Handshaken s) (hpc : (s.coros i).pc = .lockWait)
    (hlock : s.w.lock_ = false) (hroom : s.total + (s.coros i).size.toNat ≤ kBufferSize) :
    Handshaken (s.granting i) := by
  refine ⟨h.toInv.granting hpc hlock hroom, ?_⟩
  have hold : tally (s.members 0) (fun j => ((s.granting i).coros j).pc.joined) id = s.joined :=
    tally_congr fun j hj => by rw [h.granting_coros hpc (h.mem_granted hj)]
  have hmembers : (s.granting i).members 0 = s.members 0 ++ [i] := by simp [State.granting]
  rw [State.joined, hmembers, tally_append_singleton, hold, ← h.copied]
  simp [State.granting, Pc.joined]

theorem Handshaken.step {l : Label} (h : Handshaken s) (htimely : s.Timely l)
    (hst : (machine host).step s l = some t) : Handshaken t := by
  cases h.steps hst with
  | call hpc => exact h.quiet (h.call_calm hpc).toQuiet rfl (by rw [hpc]; rfl) rfl
  | grant hpc hlock hroom => exact h.granting hpc hlock hroom
  | @refuse i n task _ hpc hn htask hfull =>
    have hheld : (s.coros i).pc.holds = false ∧ (s.coros i).pc.joined = false := by
      rcases hpc with ⟨-, hpc⟩ | ⟨-, hpc⟩ <;> simp [hpc, Pc.holds, Pc.joined]
    refine h.quiet (h.refusing_quiet hheld.1 htask hfull) rfl hheld.2.symm ?_
    simp [State.refusing]
  | copy hpc => exact h.quiet (h.copy_calm hpc).toQuiet rfl (by rw [hpc]; rfl) rfl
  | leaderWait hpc hlead =>
    exact h.quiet (h.leaderWait_calm hpc hlead).toQuiet rfl (by rw [hpc]; rfl) rfl
  | lead hpc hlead =>
    have hpc := hpc.imp And.right And.right
    refine h.quiet (h.lead_calm hpc hlead).toQuiet rfl ?_ rfl
    rcases hpc with hpc | hpc <;> rw [hpc] <;> rfl
  | leave hpc _ => exact h.quiet (h.leave_calm hpc).toQuiet rfl (by rw [hpc]; rfl) rfl
  | ioComplete hpc _ _ =>
    exact h.quiet (h.ioComplete_calm hpc).toQuiet rfl (by rw [hpc]; rfl) rfl
  | finish hpc =>
    refine ⟨h.toInv.finish hpc, ?_⟩
    simp [h.finish_eq, State.joined]
  | followerComplete hpc hfollow => exact h.followerComplete hpc hfollow htimely
  | followerResume hpc =>
    exact h.quiet (h.followerResume_calm hpc).toQuiet rfl (by rw [hpc]; rfl) rfl

theorem Handshaken.of_reachableVia (h : (machine host).ReachableVia State.Timely s) :
    Handshaken s := by
  induction h using Machine.ReachableVia.induction with
  | init s hs =>
    refine ⟨inv_start hs, ?_⟩
    obtain ⟨raw_space, fd, mem, file, -, rfl⟩ := hs
    rfl
  | next s l t _ hok hst ih => exact ih.step hok hst

/-- In a run with timely followers, a leader leaves the spin only when every other member of
its group has called `FollowerComplete`. -/
theorem copied_of_leave (h : (machine host).ReachableVia State.Timely s)
    (hst : (machine host).step s (.leave i) = some t) :
    ∀ j ∈ s.members (s.coros i).task.index_, j ≠ i → (s.coros j).pc.joined = true := by
  have hinv := Handshaken.of_reachableVia h
  obtain ⟨⟨hpc, hdone⟩, -⟩ := step_leave hst
  rw [hinv.bank_eq] at hdone
  obtain ⟨rest, hm⟩ := hinv.members_cons (i := i) (by rw [hpc]; rfl)
  have hcount := hinv.count_le
  have hcopied := hinv.copied
  have hjoined : s.joined = tally rest (fun j => (s.coros j).pc.joined) id := by
    simp [State.joined, hm, tally, hpc, Pc.joined]
  rw [hm, List.length_cons] at hcount
  have hall : tally rest (fun j => (s.coros j).pc.joined) id = rest.length :=
    Nat.le_antisymm tally_le_length (by omega)
  intro j hj hne
  rw [(hinv.index i).2, hm] at hj
  exact tally_eq_length.mp hall j (List.mem_of_ne_of_mem hne hj)

/-- A leader with one follower, up to the spin. -/
def pairRun : List Label :=
  [.call 0 100, .call 1 50, .lock 0, .lock 1, .copy 1 fun _ => 2, .copy 0 fun _ => 1,
    .leaderComplete 0 1 144, .followerComplete 1]

theorem copied_of_leave_pair : ∃ s t, (machine .little).ReachableVia State.Timely s ∧
    (machine .little).step s (.leave 0) = some t ∧ 1 ∈ s.members (s.coros 0).task.index_ ∧
    (s.coros 1).pc.joined = true := by
  have hrun : (((machine .little).restrict State.Timely).run fresh pairRun).any (fun s =>
      ((machine .little).step s (.leave 0)).isSome = true ∧
        1 ∈ s.members (s.coros 0).task.index_) = true := by decide +kernel
  obtain ⟨s, hs, hleave, hmem⟩ := Machine.exists_of_run hrun
  obtain ⟨t, ht⟩ := Option.isSome_iff_exists.mp hleave
  have hvia := Machine.ReachableVia.of_run fresh_start hs
  exact ⟨s, t, hvia, ht, hmem, copied_of_leave hvia ht 1 hmem (by decide)⟩

/-- The follower of the first group comes after the reset and stands in for the member of the
second group that has not copied. -/
def tornRun : List Label :=
  [.call 0 100, .lock 0, .copy 0 fun _ => 1, .leaderComplete 0 1 94, .leave 0, .call 1 100,
    .lock 1, .ioComplete 0 8192, .leaderFinish 0, .copy 1 fun _ => 2, .call 2 100, .lock 2,
    .copy 2 fun _ => 3, .call 3 100, .lock 3, .followerComplete 1, .leaderComplete 2 1 94]

theorem not_copied_of_leave : ∃ s t, (machine .little).run fresh tornRun = some s ∧
    (machine .little).step s (.leave 2) = some t ∧ (s.coros 3).pc = .granted ∧
    ¬ ∀ j ∈ s.members (s.coros 2).task.index_, j ≠ 2 → (s.coros j).pc.joined = true := by
  have hrun : ((machine .little).run fresh tornRun).any (fun s =>
      ((machine .little).step s (.leave 2)).isSome = true ∧ (s.coros 3).pc = .granted ∧
        3 ∈ s.members (s.coros 2).task.index_) = true := by decide +kernel
  obtain ⟨s, hs, hleave, hgranted, hmem⟩ := Machine.exists_of_run hrun
  obtain ⟨t, ht⟩ := Option.isSome_iff_exists.mp hleave
  refine ⟨s, t, hs, ht, hgranted, fun hall => ?_⟩
  have := hall 3 hmem (by decide)
  simp [hgranted, Pc.joined] at this

/-! ## No stranded follower -/

/-- Every follower that is suspended on a `completion_` has a leader that was granted space in
the same bank and has not posted it yet. -/
def State.NoStranded (s : State) : Prop :=
  ∀ i, (s.coros i).pc = .followerWait false →
    let leader := s.coros (s.coros i).leader
    leader.task.is_leader_ = true ∧ leader.task.index_ = (s.coros i).task.index_ ∧
      leader.pc ≠ .returned

/-- The invariant of runs in which every follower is timely. -/
structure Awaited (s : State) : Prop extends Inv s where
  awaited : ∀ i, (s.coros i).pc = .followerWait false →
    (s.coros (s.coros i).leader).pc ≠ .returned

theorem Awaited.noStranded (h : Awaited s) : s.NoStranded := by
  intro i hpc
  have hopen := h.awaited i hpc
  have hmem := h.mem_of_open (by simp [h.held, hpc, Pc.holds]) hopen
  exact ⟨h.leader_leads hmem, by rw [(h.index i).2, (h.index _).2], hopen⟩

/-- The post of `completion_` releases every follower of the bank. -/
theorem Inv.finish_not_waiting (h : Inv s) {j : ℕ} :
    ((s.finish i).coros j).pc ≠ .followerWait false := by
  have hindex := (h.index j).2
  rw [h.finish_eq]
  by_cases hj : j = i
  · subst hj
    simp
  · simp only [State.finishCoro, hj, if_false, Coro.wake, hindex]
    cases hpc : (s.coros j).pc <;> simp

/-- A writer that starts to wait calls `FollowerComplete`. -/
theorem Inv.waiting_from (h : Inv s) {l : Label} (hst : Steps host s l t)
    (hi : (t.coros i).pc = .followerWait false) :
    l = .followerComplete i ∨ (s.coros i).pc = .followerWait false := by
  cases hst with
  | @followerComplete j hpc hfollow =>
    by_cases hij : i = j
    · exact .inl (hij ▸ rfl)
    · refine .inr ?_
      rw [h.followerComplete_eq] at hi
      simpa [State.goto, State.setCoro, hij] using hi
  | finish => exact absurd hi h.finish_not_waiting
  | call | grant | refuse | copy | leaderWait | lead | leave | ioComplete | followerResume =>
    exact .inr (pc_of_update rfl (by simp) hi)

/-- A member's leader stays on the way through a quiet step. -/
theorem Quiet.leader_open (q : Quiet s t) (h : Inv s) (hi : i ∈ s.members 0) :
    (t.coros (t.coros i).leader).pc ≠ .returned := by
  rw [(q.same h (h.mem_granted hi)).2.2.1]
  exact fun hret => (h.opened i hi).2 ((q.moves _).opened (h.leader_leads hi) hret)

theorem Awaited.step {l : Label} (h : Awaited s) (htimely : s.Timely l)
    (hst : (machine host).step s l = some t) : Awaited t := by
  have hsteps := h.steps hst
  refine ⟨inv_step h.toInv hst, fun j hj => ?_⟩
  have hmem : j ∈ s.members 0 := by
    rcases h.waiting_from hsteps hj with rfl | hwait
    · obtain ⟨⟨hpc, -⟩, -⟩ := step_followerComplete hst
      exact h.mem_of_open (by simp [h.held, hpc, Pc.holds]) htimely
    · exact h.mem_of_open (by simp [h.held, hwait, Pc.holds]) (h.awaited j hwait)
  cases h.effect hsteps with
  | calm q => exact q.toQuiet.leader_open h.toInv hmem
  | refuse _ hpc _ htask hfull =>
    exact (h.refusing_quiet hpc htask hfull).leader_open h.toInv hmem
  | grant hpc _ _ =>
    rw [h.granting_coros hpc (h.mem_granted hmem),
      h.granting_coros hpc (h.mem_granted (h.leader_mem hmem))]
    exact (h.opened j hmem).2
  | finish => exact absurd hj h.finish_not_waiting

/-- A follower that comes too late waits for a leader that has posted. -/
theorem Awaited.spoil {l : Label} (h : Awaited s) (htimely : ¬ s.Timely l)
    (hst : (machine host).step s l = some t) : ¬ t.NoStranded := by
  cases h.steps hst with
  | @followerComplete i hpc hfollow =>
    intro hok
    have hret : (s.coros (s.coros i).leader).pc = .returned := not_not.mp htimely
    have hne : (s.coros i).leader ≠ i := by
      intro heq
      rw [heq, hpc] at hret
      cases hret
    rw [h.followerComplete_eq] at hok
    refine (hok i ?_).2.2 ?_ <;> simp [State.goto, State.setCoro, hne, hret]
  | lead hpc _ => rcases hpc with ⟨rfl, -⟩ | ⟨rfl, -⟩ <;> exact absurd trivial htimely
  | refuse hpc _ _ _ => rcases hpc with ⟨rfl, -⟩ | ⟨rfl, -⟩ <;> exact absurd trivial htimely
  | _ => exact absurd trivial htimely

theorem Awaited.start (hs : (machine host).start s) : Awaited s := by
  refine ⟨inv_start hs, fun i hpc => ?_⟩
  obtain ⟨raw_space, fd, mem, file, -, rfl⟩ := hs
  cases hpc

/-- In a run, no follower is stranded in any state exactly if every follower is timely. -/
theorem noStranded_iff {tr : List (State × Label)} (hs : (machine host).start s)
    (htr : (machine host).Trace s tr t) :
    (∀ u ∈ Machine.visited tr t, u.NoStranded) ↔ ∀ p ∈ tr, p.1.Timely p.2 :=
  htr.forall_visited_iff (fun _ => Awaited.noStranded) (fun _ _ _ h hok hst => h.step hok hst)
    (fun _ _ _ h hbad hst => h.spoil hbad hst) (Awaited.start hs)

/-- A follower joins the group while its leader waits for the disk, and is late. -/
def lateRun : List Label :=
  [.call 0 100, .lock 0, .copy 0 fun _ => 1, .leaderComplete 0 1 94, .leave 0, .call 1 100,
    .lock 1, .ioComplete 0 8192, .leaderFinish 0, .copy 1 fun _ => 2, .followerComplete 1]

theorem noStranded_iff_late : ∃ tr t, (machine .little).Trace fresh tr t ∧
    tr.map Prod.snd = lateRun ∧
    ((∀ u ∈ Machine.visited tr t, u.NoStranded) ↔ ∀ p ∈ tr, p.1.Timely p.2) := by
  obtain ⟨tr, t, htr, hls⟩ := Machine.Trace.of_isSome
    (show ((machine .little).run fresh lateRun).isSome = true by decide +kernel)
  exact ⟨tr, t, htr, hls, noStranded_iff fresh_start htr⟩

/-- The follower waits for good, since its leader has posted and returned. -/
theorem not_noStranded_late : ∃ s, (machine .little).run fresh lateRun = some s ∧
    (s.coros 1).pc = .followerWait false ∧ (s.coros 1).leader = 0 ∧
    (machine .little).Reachable s ∧ ¬ s.NoStranded := by
  have hrun : ((machine .little).run fresh lateRun).any (fun s =>
      (s.coros 1).pc = .followerWait false ∧ (s.coros 1).leader = 0 ∧
        (s.coros 0).pc = .returned) = true := by decide +kernel
  obtain ⟨s, hs, hwait, hleader, hret⟩ := Machine.exists_of_run hrun
  refine ⟨s, hs, hwait, hleader, .of_run fresh_start hs, fun hok => ?_⟩
  have hopen := (hok 1 hwait).2.2
  rw [hleader] at hopen
  exact hopen hret

end QStorage.Db.LogWriter
