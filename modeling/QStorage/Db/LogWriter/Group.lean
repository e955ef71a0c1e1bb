import QStorage.Db.LogWriter.Invariant

/-!
# Membership of groups and the space of the ring

`count_` is raised before the ring is asked, and `len` is zeroed before the ring is told to
release it. The first loses the count of members with the first refusal, and the second keeps
every byte ever granted.

## Main results

* `LogWriter.groupOk_iff` — `count_` and the leaders are right as long as no request is refused.
* `LogWriter.accounted_iff` — the ring balances as long as the finished groups hold no bytes.
-/

namespace QStorage.Db.LogWriter

open QStorage.Lib QStorage.Infra

/-! ## Membership -/

/-- In each bank `count_` counts the tasks granted space since the last `Reset`, and of these
the first, and no other, is the leader. -/
def State.GroupOk (s : State) : Prop :=
  ∀ b, (s.w.writers_ b).count_ = (s.members b).length ∧
    ∀ l rest, s.members b = l :: rest →
      (s.coros l).task.is_leader_ = true ∧ ∀ i ∈ rest, (s.coros i).task.is_leader_ = false

/-- Bytes of the ring that are in use. -/
def State.used (s : State) : ℕ := (s.w.buffer_.head_ - s.w.buffer_.tail_).toNat

/-- The ring has room for what the step requests. -/
def State.Fits (s : State) : Label → Prop
  | .lock i | .memoryResume i => (s.coros i).size.toNat ≤ kBufferSize - s.used
  | _ => True

variable {host : Endian} {s t : State} {i : ℕ}

theorem Inv.used_eq (h : Inv s) : s.used = s.total := by
  have hfits := h.fits
  rw [State.used, h.counts.toNat_sub (Nat.zero_le _) (by omega), Nat.sub_zero]

/-- Every member that is not the first was granted its region after the leader. -/
theorem Inv.leader_first (h : Inv s) {l : ℕ} {rest : List ℕ} (hm : s.members 0 = l :: rest) :
    (s.coros l).task.is_leader_ = true ∧ ∀ i ∈ rest, (s.coros i).task.is_leader_ = false := by
  have hall (j : ℕ) (hj : j ∈ s.members 0) :
      (s.coros j).task.is_leader_ = true ↔ l = j := by
    rw [h.leads j (h.mem_granted hj)]
    have hhead := (h.opened j hj).1
    rw [hm, List.head?_cons, Option.some.injEq] at hhead
    rw [← hhead]
  refine ⟨(hall l (by simp [hm])).mpr rfl, fun j hj => ?_⟩
  have hnd := h.members_nodup
  rw [hm] at hnd
  have hne : l ≠ j := fun heq => (List.nodup_cons.mp hnd).1 (heq ▸ hj)
  rw [← Bool.not_eq_true, hall j (by simp [hm, hj])]
  exact hne

/-- The invariant of a run without refusals. -/
structure Unrefused (s : State) : Prop extends Inv s where
  count : (s.w.writers_ 0).count_ = (s.members 0).length
  noWait : ∀ i, (s.coros i).pc.isMemoryWait = false

theorem Unrefused.groupOk (h : Unrefused s) : s.GroupOk := by
  intro b
  obtain rfl | rfl : b = 0 ∨ b = 1 := by omega
  · exact ⟨h.count, fun l rest hm => h.toInv.leader_first hm⟩
  · simp [h.bank1]

theorem Inv.fits_iff (h : Inv s) :
    (s.coros i).size.toNat ≤ kBufferSize - s.used ↔
      s.total + (s.coros i).size.toNat ≤ kBufferSize := by
  have hfits := h.fits
  rw [h.used_eq]
  omega

/-- A writer that is granted a region, or whose group ends, is not parked. -/
theorem Unrefused.step {l : Label} (h : Unrefused s) (hfits : s.Fits l)
    (hst : (machine host).step s l = some t) : Unrefused t := by
  have hinv := inv_step h.toInv hst
  cases h.effect (h.steps hst) with
  | calm q =>
    refine ⟨hinv, by rw [q.count_eq, q.members, h.count], fun j => ?_⟩
    rw [Bool.eq_false_iff]
    exact fun hj => Bool.eq_false_iff.mp (h.noWait j) (q.waits j hj)
  | @refuse i n task l hl _ _ _ hfull =>
    have hroom : (s.coros i).size.toNat ≤ kBufferSize - s.used := by
      rcases hl with rfl | rfl <;> exact hfits
    rw [h.fits_iff] at hroom
    omega
  | @grant i hpc hlock hroom =>
    refine ⟨hinv, by simp [State.granting, h.count], fun j => ?_⟩
    by_cases hj : j = i
    · subst hj
      simp [State.granting, Pc.isMemoryWait]
    · simp [State.granting, hj, h.noWait]
  | @finish i hpc =>
    refine ⟨hinv, by simp [h.finish_eq], fun j => ?_⟩
    rw [h.finish_eq]
    by_cases hj : j = i
    · subst hj
      simp [Pc.isMemoryWait]
    · rw [← Pc.isMemoryWait_place, s.finishCoro_place hj, Pc.isMemoryWait_place]
      exact h.noWait j

/-- A refused request is counted. -/
theorem Unrefused.spoil {l : Label} (h : Unrefused s) (hfits : ¬ s.Fits l)
    (hst : (machine host).step s l = some t) : ¬ t.GroupOk := by
  cases h.steps hst with
  | grant hpc hlock hroom => exact absurd (h.fits_iff.mpr hroom) hfits
  | @refuse i n task l hpc hn htask hfull =>
    intro hok
    have hcount := (hok 0).1
    simp only [State.refusing, Function.update_self, h.count] at hcount
    omega
  | lead hpc _ => rcases hpc with ⟨rfl, -⟩ | ⟨rfl, -⟩ <;> exact absurd trivial hfits
  | _ => exact absurd trivial hfits

theorem Unrefused.start (hs : (machine host).start s) : Unrefused s := by
  refine ⟨inv_start hs, ?_, ?_⟩ <;> obtain ⟨raw_space, fd, mem, file, -, rfl⟩ := hs
  · rfl
  · exact fun _ => rfl

/-- In a run, `count_` is the number of members and the first of them leads in every state
exactly if the ring has had room for every request. -/
theorem groupOk_iff {tr : List (State × Label)} (hs : (machine host).start s)
    (htr : (machine host).Trace s tr t) :
    (∀ u ∈ Machine.visited tr t, u.GroupOk) ↔ ∀ p ∈ tr, p.1.Fits p.2 :=
  htr.forall_visited_iff (fun _ => Unrefused.groupOk) (fun _ _ _ h hok hst => h.step hok hst)
    (fun _ _ _ h hbad hst => h.spoil hbad hst) (Unrefused.start hs)

/-- The first writer fills the ring, and the second asks for one byte more. -/
def refusedRun : List Label := [.call 0 8388608, .lock 0, .call 1 1, .lock 1]

theorem groupOk_iff_refused : ∃ tr t, (machine .little).Trace fresh tr t ∧
    tr.map Prod.snd = refusedRun ∧
    ((∀ u ∈ Machine.visited tr t, u.GroupOk) ↔ ∀ p ∈ tr, p.1.Fits p.2) := by
  obtain ⟨tr, t, htr, hls⟩ := Machine.Trace.of_isSome
    (show ((machine .little).run fresh refusedRun).isSome = true by decide +kernel)
  exact ⟨tr, t, htr, hls, groupOk_iff fresh_start htr⟩

/-- The refused writer is counted as a second member of the group of one. -/
theorem not_groupOk_refused : ∃ s, (machine .little).run fresh refusedRun = some s ∧
    (s.w.writers_ 0).count_ = 2 ∧ s.members 0 = [0] ∧
    (machine .little).Reachable s ∧ ¬ s.GroupOk := by
  have hrun : ((machine .little).run fresh refusedRun).any (fun s =>
      (s.w.writers_ 0).count_ = 2 ∧ s.members 0 = [0]) = true := by decide +kernel
  obtain ⟨s, hs, hcount, hmembers⟩ := Machine.exists_of_run hrun
  refine ⟨s, hs, hcount, hmembers, .of_run fresh_start hs, fun hok => ?_⟩
  have := (hok 0).1
  simp [hcount, hmembers] at this

/-! ## The space of the ring -/

/-- The tasks of groups whose `LeaderComplete` has not finished. -/
def State.unfinished (s : State) : List ℕ :=
  s.granted.filter fun i => (s.coros (s.coros i).leader).pc ≠ .returned

/-- The ring holds the bytes of the unfinished groups, and once there are none it is free again. -/
def State.Accounted (s : State) : Prop :=
  s.used = s.bytes s.unfinished ∧
  (s.unfinished = [] → s.w.buffer_.head_ = s.w.buffer_.tail_ ∧
    ∀ size : BitVec 64, size.toNat ≤ kBufferSize → (s.w.buffer_.RequestWriteSpace size).isSome)

/-- The group that ends, if the step ends one, was granted no bytes. -/
def State.EndsEmpty (s : State) : Label → Prop
  | .leaderFinish i => (s.bank i).len = 0
  | _ => True

theorem Inv.unfinished_eq (h : Inv s) : s.unfinished = s.members 0 := by
  have hfinished :
      s.finished.filter (fun i => (s.coros (s.coros i).leader).pc ≠ .returned) = [] := by
    simpa using h.closed
  have hmembers : (s.members 0).filter (fun i => (s.coros (s.coros i).leader).pc ≠ .returned) =
      s.members 0 := by
    simpa using fun i hi => (h.opened i hi).2
  rw [State.unfinished, h.split, List.filter_append, hfinished, hmembers, List.nil_append]

/-- The ring balances exactly if the finished groups hold no bytes. -/
theorem Inv.accounted_iff_empty (h : Inv s) : s.Accounted ↔ s.bytes s.finished = 0 := by
  have htotal := h.total_eq
  rw [h.len] at htotal
  rw [State.Accounted, h.used_eq, h.unfinished_eq]
  constructor
  · intro hok
    have := hok.1
    omega
  · intro hempty
    refine ⟨by omega, fun hnone => ?_⟩
    have hzero : s.total = 0 := by rw [htotal, hnone, hempty]; rfl
    refine ⟨by rw [h.counts.head, h.counts.tail, hzero], fun size hsize => ?_⟩
    rw [h.requestWriteSpace, if_pos (by omega)]
    rfl

/-- The invariant of a run that ends only empty groups. -/
structure Balanced (s : State) : Prop extends Inv s where
  empty : s.bytes s.finished = 0

theorem Balanced.step {l : Label} (h : Balanced s) (hends : s.EndsEmpty l)
    (hst : (machine host).step s l = some t) : Balanced t := by
  refine ⟨inv_step h.toInv hst, ?_⟩
  cases h.effect (h.steps hst) with
  | calm q => rw [q.bytes_finished h.toInv, h.empty]
  | refuse _ hpc _ htask hfull =>
    rw [(h.refusing_quiet hpc htask hfull).bytes_finished h.toInv, h.empty]
  | @grant i hpc _ _ =>
    have hfinished : (s.granting i).finished = s.finished := rfl
    rw [hfinished, h.granting_bytes hpc fun j hj => h.finished_granted hj, h.empty]
  | @finish i _ =>
    rw [h.bytes_finished_finish, h.empty, ← h.bank_eq i, show (s.bank i).len = 0 from hends]

/-- What a finished group was granted is never released. -/
theorem Balanced.spoil {l : Label} (h : Balanced s) (hends : ¬ s.EndsEmpty l)
    (hst : (machine host).step s l = some t) : ¬ t.Accounted := by
  rw [(inv_step h.toInv hst).accounted_iff_empty]
  cases h.steps hst with
  | @finish i _ =>
    have hlen : (s.bank i).len ≠ 0 := hends
    rw [h.bank_eq] at hlen
    rw [h.bytes_finished_finish]
    omega
  | lead hpc _ => rcases hpc with ⟨rfl, -⟩ | ⟨rfl, -⟩ <;> exact absurd trivial hends
  | refuse hpc _ _ _ => rcases hpc with ⟨rfl, -⟩ | ⟨rfl, -⟩ <;> exact absurd trivial hends
  | _ => exact absurd trivial hends

theorem Balanced.start (hs : (machine host).start s) : Balanced s := by
  refine ⟨inv_start hs, ?_⟩
  obtain ⟨raw_space, fd, mem, file, -, rfl⟩ := hs
  rfl

/-- In a run, the ring balances in every state exactly if every group that ended was granted
no bytes. -/
theorem accounted_iff {tr : List (State × Label)} (hs : (machine host).start s)
    (htr : (machine host).Trace s tr t) :
    (∀ u ∈ Machine.visited tr t, u.Accounted) ↔ ∀ p ∈ tr, p.1.EndsEmpty p.2 :=
  htr.forall_visited_iff (fun _ h => h.accounted_iff_empty.mpr h.empty)
    (fun _ _ _ h hok hst => h.step hok hst) (fun _ _ _ h hbad hst => h.spoil hbad hst)
    (Balanced.start hs)

/-- One writer, whose group of 100 bytes ends. -/
def finishedRun : List Label :=
  [.call 0 100, .lock 0, .copy 0 fun _ => 7, .leaderComplete 0 1 94, .leave 0,
    .ioComplete 0 8192, .leaderFinish 0]

theorem accounted_iff_finished : ∃ tr t, (machine .little).Trace fresh tr t ∧
    tr.map Prod.snd = finishedRun ∧
    ((∀ u ∈ Machine.visited tr t, u.Accounted) ↔ ∀ p ∈ tr, p.1.EndsEmpty p.2) := by
  obtain ⟨tr, t, htr, hls⟩ := Machine.Trace.of_isSome
    (show ((machine .little).run fresh finishedRun).isSome = true by decide +kernel)
  exact ⟨tr, t, htr, hls, accounted_iff fresh_start htr⟩

/-- The group has finished and its 100 bytes are still in use. -/
theorem not_accounted_finished : ∃ s, (machine .little).run fresh finishedRun = some s ∧
    s.used = 100 ∧ s.unfinished = [] ∧ (machine .little).Reachable s ∧ ¬ s.Accounted := by
  have hrun : ((machine .little).run fresh finishedRun).any (fun s =>
      s.used = 100 ∧ s.unfinished = []) = true := by decide +kernel
  obtain ⟨s, hs, hused, hnone⟩ := Machine.exists_of_run hrun
  refine ⟨s, hs, hused, hnone, .of_run fresh_start hs, fun hok => ?_⟩
  have := hok.1
  simp [hused, hnone, State.bytes] at this

end QStorage.Db.LogWriter
