import QStorage.Db.LogWriter.Invariant

/-!
# Which requests the log grants

The lock is taken by one writer at a time and given back with the region. A writer whose request
is refused keeps it, and since nothing is ever released the ring refuses it again after each group.

## Main results

* `LogWriter.granted_until_refused` — the first refusal of a run is the last answer of the ring.
-/

namespace QStorage.Db.LogWriter

open QStorage.Lib QStorage.Infra

variable {host : Endian} {s t : State} {i : ℕ}

/-- The writer that gets the lock in a step. -/
def Label.asks : Label → Option ℕ
  | .lock i => some i
  | _ => none

/-- The writers that have got the lock, in this order. -/
def asked (tr : List (State × Label)) : List ℕ := (tr.map Prod.snd).filterMap Label.asks

theorem asked_concat (tr : List (State × Label)) (l : Label) :
    asked (tr ++ [(s, l)]) = asked tr ++ asked [(s, l)] := by
  simp [asked]

/-- A refused writer stays where it is. -/
theorem Inv.parked_stays (h : Inv s) {l : Label} (hst : Steps host s l t) {j : ℕ}
    (hj : (s.coros j).pc.isMemoryWait = true) : (t.coros j).pc.isMemoryWait = true := by
  have hstay {i : ℕ} {c : Coro} (hcoros : t.coros = Function.update s.coros i c)
      (hi : (s.coros i).pc.isMemoryWait = false) : (t.coros j).pc.isMemoryWait = true := by
    have hji : j ≠ i := fun heq => by simp [heq, hi] at hj
    rwa [hcoros, Function.update_of_ne hji]
  cases hst with
  | @refuse i n task _ _ _ _ _ =>
    by_cases hji : j = i
    · subst hji
      simp [State.refusing, Pc.isMemoryWait]
    · simp [State.refusing, hji, hj]
  | @finish i hpc =>
    have hji : j ≠ i := fun heq => by simp [heq, hpc, Pc.isMemoryWait] at hj
    rw [h.finish_eq, ← Pc.isMemoryWait_place, s.finishCoro_place hji, Pc.isMemoryWait_place, hj]
  | lead hpc _ => exact hstay rfl (by rcases hpc with ⟨-, hpc⟩ | ⟨-, hpc⟩ <;> rw [hpc] <;> rfl)
  | @followerComplete i hpc _ =>
    refine hstay (i := i) (c := { s.coros i with pc := .followerWait false }) ?_ (by rw [hpc]; rfl)
    rw [h.followerComplete_eq]
    rfl
  | call hpc => exact hstay rfl (by rw [hpc]; rfl)
  | grant hpc _ _ => exact hstay rfl (by rw [hpc]; rfl)
  | copy hpc => exact hstay rfl (by rw [hpc]; rfl)
  | leaderWait hpc _ => exact hstay rfl (by rw [hpc]; rfl)
  | leave hpc _ => exact hstay rfl (by rw [hpc]; rfl)
  | ioComplete hpc _ _ => exact hstay rfl (by rw [hpc]; rfl)
  | followerResume hpc => exact hstay rfl (by rw [hpc]; rfl)

/-- What a step does to the requests: the writer that gets the lock is granted its region, or is
refused and keeps the lock, or nobody gets the lock. -/
theorem Inv.request_cases (h : Inv s) {l : Label} (hst : (machine host).step s l = some t) :
    (∃ i, l = .lock i ∧ s.w.lock_ = false ∧ t.w.lock_ = false ∧ t.granted = s.granted ++ [i]) ∨
    (∃ i, l = .lock i ∧ s.w.lock_ = false ∧ t.granted = s.granted ∧
      (t.coros i).pc.isMemoryWait = true) ∨
    (asked [(s, l)] = [] ∧ t.w.lock_ = s.w.lock_ ∧ t.granted = s.granted) := by
  cases h.steps hst with
  | @grant i hpc hfree hroom => exact .inl ⟨i, rfl, hfree, rfl, rfl⟩
  | @refuse i n task _ hpc hn htask hfull =>
    rcases hpc with ⟨rfl, hpc⟩ | ⟨rfl, hpc⟩
    · have hfree : s.w.lock_ = false := by
        by_contra hlock
        simp [machine, LogWriter.step, hpc, hlock] at hst
      exact .inr (.inl ⟨i, rfl, hfree, rfl, by simp [State.refusing, Pc.isMemoryWait]⟩)
    · have hlock := (h.locked i (by rw [hpc]; rfl)).1
      exact .inr (.inr ⟨rfl, hlock.symm, rfl⟩)
  | lead hpc _ =>
    refine .inr (.inr ⟨?_, rfl, rfl⟩)
    rcases hpc with ⟨rfl, -⟩ | ⟨rfl, -⟩ <;> rfl
  | finish hpc =>
    rw [h.finish_eq]
    exact .inr (.inr ⟨rfl, rfl, rfl⟩)
  | followerComplete hpc hfollow =>
    rw [h.followerComplete_eq]
    exact .inr (.inr ⟨rfl, rfl, rfl⟩)
  | _ => exact .inr (.inr ⟨rfl, rfl, rfl⟩)

/-- Writer `i` waits with the lock for more memory than the ring has. -/
structure State.Parked (s : State) (i : ℕ) : Prop where
  lock : s.w.lock_ = true
  waits : (s.coros i).pc.isMemoryWait = true
  full : kBufferSize < s.total + (s.coros i).size.toNat

/-- Writer `i` is refused for good: whatever happens from here on, it stays parked, nobody is
granted a region and nobody gets the lock. -/
def Refused (host : Endian) (s : State) (i : ℕ) : Prop :=
  ∀ tr t, (machine host).Trace s tr t → t.Parked i ∧ t.granted = s.granted ∧ asked tr = []

theorem Inv.parked (h : Inv s) (hi : (s.coros i).pc.isMemoryWait = true) : s.Parked i :=
  ⟨(h.locked i hi).1, hi, (h.locked i hi).2⟩

theorem Inv.refused (h : Inv s) (hi : (s.coros i).pc.isMemoryWait = true) : Refused host s i := by
  intro tr t htr
  suffices hall : Inv t ∧ t.Parked i ∧ t.granted = s.granted ∧ asked tr = [] from hall.2
  induction htr with
  | nil => exact ⟨h, h.parked hi, rfl, rfl⟩
  | @snoc u v l tr htr hst ih =>
    obtain ⟨hinv, hparked, hgranted, hasked⟩ := ih
    have hinv' := inv_step hinv hst
    have hwaits := hinv.parked_stays (hinv.steps hst) hparked.waits
    rcases hinv.request_cases hst with ⟨_, -, hfree, -⟩ | ⟨_, -, hfree, -⟩ | ⟨hnone, -, hsame⟩
    · simp [hparked.lock] at hfree
    · simp [hparked.lock] at hfree
    · refine ⟨hinv', hinv'.parked hwaits, hsame.trans hgranted, ?_⟩
      rw [asked_concat, hasked, hnone, List.append_nil]

/-- What a run has done with its requests. Either all of them were granted, in the order in which
the writers got the lock, and none ever waited for memory; or all but the last, which is refused
for good. -/
def Served (host : Endian) (tr : List (State × Label)) (t : State) : Prop :=
  (t.w.lock_ = false ∧ t.granted = asked tr ∧
      ∀ u ∈ Machine.visited tr t, ∀ i, (u.coros i).pc.isMemoryWait = false) ∨
    ∃ i, asked tr = t.granted ++ [i] ∧ Refused host t i

theorem Served.step {tr : List (State × Label)} {l : Label} (h : Served host tr s) (hinv : Inv s)
    (hst : (machine host).step s l = some t) : Served host (tr ++ [(s, l)]) t := by
  have hinv' := inv_step hinv hst
  rw [Served, asked_concat]
  rcases h with ⟨hlock, hgranted, hnone⟩ | ⟨i, hasked, hrefused⟩
  · -- as long as the lock is free nobody is parked
    have hunparked (hfree : t.w.lock_ = false) :
        ∀ u ∈ Machine.visited (tr ++ [(s, l)]) t, ∀ i, (u.coros i).pc.isMemoryWait = false := by
      intro u hu i
      have hcase : u ∈ Machine.visited tr s ∨ u = t := by
        simpa [Machine.visited, or_assoc] using hu
      rcases hcase with hbefore | rfl
      · exact hnone u hbefore i
      · by_contra hwaits
        simp [(hinv'.locked i (by simpa using hwaits)).1] at hfree
    rw [← hgranted]
    rcases hinv.request_cases hst with ⟨i, rfl, -, hfree, hgrant⟩ |
      ⟨i, rfl, -, hsame, hwaits⟩ | ⟨hasked, hsame, hgrants⟩
    · exact .inl ⟨hfree, hgrant, hunparked hfree⟩
    · exact .inr ⟨i, by rw [hsame]; rfl, hinv'.refused hwaits⟩
    · have hfree := hsame.trans hlock
      rw [hasked, List.append_nil, hgrants]
      exact .inl ⟨hfree, rfl, hunparked hfree⟩
  · obtain ⟨hparked, hgranted, hnone⟩ := hrefused _ t (.snoc .nil hst)
    rw [show asked [(s, l)] = [] from hnone, List.append_nil, hgranted]
    exact .inr ⟨i, hasked, hinv'.refused hparked.waits⟩

/-- Requests are granted in the order in which the writers get the lock, until one does not fit
into what the whole run has left of the ring; that one is never granted, nor is any after it. -/
theorem granted_until_refused {tr : List (State × Label)} (hs : (machine host).start s)
    (htr : (machine host).Trace s tr t) : Served host tr t := by
  suffices hall : Inv t ∧ Served host tr t from hall.2
  induction htr with
  | nil =>
    have hinv := inv_start hs
    obtain ⟨raw_space, fd, mem, file, -, rfl⟩ := hs
    refine ⟨hinv, .inl ⟨rfl, rfl, ?_⟩⟩
    simp [Machine.visited, initial, Pc.isMemoryWait]
  | snoc _ hst ih => exact ⟨inv_step ih.1 hst, ih.2.step ih.1 hst⟩

/-- A leader spins when the request of another writer is refused. -/
def stuckRun : List Label :=
  [.call 0 100, .lock 0, .copy 0 fun _ => 1, .leaderComplete 0 1 94, .call 1 8388608, .lock 1]

theorem granted_until_refused_stuck : ∃ tr t, (machine .little).Trace fresh tr t ∧
    tr.map Prod.snd = stuckRun ∧ t.granted = [0] ∧ Refused .little t 1 := by
  have hrun : ((machine .little).run fresh stuckRun).any (fun t =>
      t.w.lock_ = true ∧ t.granted = [0]) = true := by decide +kernel
  obtain ⟨t, ht, hheld, hgranted⟩ := Machine.exists_of_run hrun
  obtain ⟨tr, htr, hls⟩ := Machine.Trace.of_run ht
  refine ⟨tr, t, htr, hls, hgranted, ?_⟩
  rcases granted_until_refused fresh_start htr with ⟨hfree, -⟩ | ⟨i, hasked, hrefused⟩
  · simp [hheld] at hfree
  · have hlast : asked tr = [0, 1] := by
      rw [asked, hls]
      rfl
    obtain rfl : i = 1 := by simpa [hlast, hgranted] using hasked.symm
    exact hrefused

end QStorage.Db.LogWriter
