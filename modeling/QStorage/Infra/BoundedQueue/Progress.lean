import QStorage.Infra.BoundedQueue
import QStorage.Lib.Progress

/-!
# Which calls on the bounded queue return

A blocking call waits only for a semaphore, and the two semaphores account for every slot and
every item. So a call that waits for a slot can return as long as a call that will free one is
under way, however little the queue holds, and not otherwise; and when nobody can go on, how many
calls have returned depends on how many were made, and not on the order of their steps.

## Main results

* `BoundedQueue.canReturn_iff` — when a call that waits can still return without new calls.
* `BoundedQueue.returned_counts` — how many calls have returned when nobody can go on.
-/

namespace QStorage.Infra.BoundedQueue

open QStorage.Lib

variable {T : Type*} {capacity : ℕ} {s t : State T} {l : Label T} {i : ℕ}

/-! ## Steps of the calls -/

/-- Steps that the call has yet to take. -/
def Pc.toGo : Pc T → ℕ
  | .enqueueWait _ _ | .dequeueWait _ => 3
  | .write _ | .read => 2
  | .dequeueSignal _ _ | .enqueueSignal _ => 1
  | .idle | .enqueued _ | .dequeued _ | .refused => 0

def State.toGo (s : State T) : ℕ := (s.started.map fun i => (s.calls i).toGo).sum

/-- What a step of call `i` does to the calls. -/
theorem advance_calls (hst : s.advance i = some t) :
    t.started = s.started ∧ ∃ pc : Pc T, t.calls = Function.update s.calls i pc ∧
      pc.toGo < (s.calls i).toGo := by
  cases State.advances hst with
  | takeEnqueueToken hpc _ | refuseEnqueue hpc _ | write hpc | signalDequeue hpc
  | takeDequeueToken hpc _ | refuseDequeue hpc _ | read hpc | signalEnqueue hpc =>
    exact ⟨rfl, _, rfl, by simp [hpc, Pc.toGo]⟩

theorem advance_of_ne (hst : s.advance i = some t) {j : ℕ} (hj : j ≠ i) :
    t.calls j = s.calls j := by
  obtain ⟨-, pc, hcalls, -⟩ := advance_calls hst
  rw [hcalls, Function.update_of_ne hj]

theorem Inv.advance_toGo (h : Inv capacity s) (hst : s.advance i = some t) :
    t.toGo < s.toGo := by
  obtain ⟨hstarted, pc, hcalls, hlt⟩ := advance_calls hst
  have hi : i ∈ s.started := by
    by_contra hi
    rw [h.started i hi] at hlt
    simp [Pc.toGo] at hlt
  have hsum := sum_update (f := s.calls) (a := pc) (g := Pc.toGo) h.nodup hi
  rw [State.toGo, State.toGo, hstarted, hcalls]
  omega

/-- What every step of a call keeps, a run keeps that makes no new call. -/
theorem keep_of_no_call {I : State T → Prop} (keep : ∀ u i v, I u → u.advance i = some v → I v)
    {tr : List (State T × Label T)} (htr : (machine T capacity).Trace s tr t)
    (hsame : t.started = s.started) (hs : I s) : I t := by
  suffices hall : s.started.length ≤ t.started.length ∧
      (t.started.length = s.started.length → I t) from hall.2 (by rw [hsame])
  refine htr.keep (I := fun u => s.started.length ≤ u.started.length ∧
    (u.started.length = s.started.length → I u)) ?_ ⟨Nat.le_refl _, fun _ => hs⟩
  intro u l v hu hst
  cases l with
  | call i m =>
    simp only [machine, State.call, Option.ite_none_left_eq_some, Option.some.injEq] at hst
    obtain ⟨-, rfl⟩ := hst
    have hle := hu.1
    simp only [List.length_append, List.length_singleton]
    exact ⟨by omega, fun heq => by omega⟩
  | step i =>
    rw [(advance_calls hst).1]
    exact ⟨hu.1, fun heq => keep u i v (hu.2 heq) hst⟩

/-! ## Who can still return -/

/-- A call that takes an item out and has not yet signalled the slot. -/
def Pc.freesSlot : Pc T → Bool
  | .dequeueWait _ | .read | .enqueueSignal _ => true
  | _ => false

/-- A call that puts an item in and has not yet signalled it. -/
def Pc.bringsItem : Pc T → Bool
  | .enqueueWait _ _ | .write _ | .dequeueSignal _ _ => true
  | _ => false

/-- A slot is free, or a call is under way that will free one. -/
def State.SlotComes (s : State T) : Prop :=
  0 < s.q.enqueueSemaphore_ ∨ ∃ j, (s.calls j).freesSlot = true

/-- An item is there, or a call is under way that will bring one. -/
def State.ItemComes (s : State T) : Prop :=
  0 < s.q.dequeueSemaphore_ ∨ ∃ j, (s.calls j).bringsItem = true

def Pc.waits : Pc T → Bool
  | .enqueueWait _ _ | .dequeueWait _ => true
  | _ => false

/-- Without a token in either semaphore, every slot is with a call that does not wait, so that one
of these can go on. -/
theorem Inv.busy (h : Inv capacity s) (hcap : 0 < capacity) (hslot : s.q.enqueueSemaphore_ = 0)
    (hitem : s.q.dequeueSemaphore_ = 0) :
    ∃ k t, Advances s k t ∧ ∀ j, (s.calls j).waits = true → t.calls j = s.calls j := by
  obtain ⟨k, t, hst, hk⟩ : ∃ k t, Advances s k t ∧ (s.calls k).waits = false := by
    by_contra hnone
    have hzero {p : Pc T → Bool} (hp : ∀ k, p (s.calls k) = true →
        ∃ t, Advances s k t ∧ (s.calls k).waits = false) : tally s.started s.calls p = 0 :=
      tally_eq_zero.mpr fun k _ => by
        by_contra hk
        obtain ⟨t, hst, hwaits⟩ := hp k (by simpa using hk)
        exact hnone ⟨k, t, hst, hwaits⟩
    have hwrite := hzero (p := Pc.isWrite) fun k hk => by
      cases hpc : s.calls k <;> simp [hpc] at hk
      exact ⟨_, .write hpc, rfl⟩
    have hread := hzero (p := Pc.isRead) fun k hk => by
      cases hpc : s.calls k <;> simp [hpc] at hk
      exact ⟨_, .read hpc, rfl⟩
    have hsignalD := hzero (p := Pc.isDequeueSignal) fun k hk => by
      cases hpc : s.calls k <;> simp [hpc] at hk
      exact ⟨_, .signalDequeue hpc, rfl⟩
    have hsignalE := hzero (p := Pc.isEnqueueSignal) fun k hk => by
      cases hpc : s.calls k <;> simp [hpc] at hk
      exact ⟨_, .signalEnqueue hpc, rfl⟩
    have hslots := h.slots
    have hitems := h.items
    omega
  refine ⟨k, t, hst, fun j hj => advance_of_ne hst.advance ?_⟩
  rintro rfl
  simp [hk] at hj

/-- Where no slot is free, a call that will free one can come nearer to it. -/
theorem Inv.slot_nearer (h : Inv capacity s) (hcap : 0 < capacity)
    (hslot : s.q.enqueueSemaphore_ = 0) (hcomes : s.SlotComes) :
    ∃ k t, Advances s k t ∧ t.SlotComes := by
  obtain ⟨j, hj⟩ := hcomes.resolve_left (by omega)
  cases hpc : s.calls j with
  | enqueueSignal item => exact ⟨j, _, .signalEnqueue hpc, .inl (Nat.succ_pos _)⟩
  | read => exact ⟨j, _, .read hpc, .inr ⟨j, by simp [State.doRead, State.goto, Pc.freesSlot]⟩⟩
  | dequeueWait nonblocking =>
    by_cases htoken : 0 < s.q.dequeueSemaphore_
    · exact ⟨j, _, .takeDequeueToken hpc htoken, .inr ⟨j, by simp [State.goto, Pc.freesSlot]⟩⟩
    · obtain ⟨k, t, hst, hstays⟩ := h.busy hcap hslot (by omega)
      exact ⟨k, t, hst, .inr ⟨j, by rw [hstays j (by rw [hpc]; rfl), hj]⟩⟩
  | _ => simp [hpc, Pc.freesSlot] at hj

theorem Inv.item_nearer (h : Inv capacity s) (hcap : 0 < capacity)
    (hitem : s.q.dequeueSemaphore_ = 0) (hcomes : s.ItemComes) :
    ∃ k t, Advances s k t ∧ t.ItemComes := by
  obtain ⟨j, hj⟩ := hcomes.resolve_left (by omega)
  cases hpc : s.calls j with
  | dequeueSignal item ok => exact ⟨j, _, .signalDequeue hpc, .inl (Nat.succ_pos _)⟩
  | write item =>
    exact ⟨j, _, .write hpc, .inr ⟨j, by simp [State.doWrite, State.goto, Pc.bringsItem]⟩⟩
  | enqueueWait nonblocking item =>
    by_cases htoken : 0 < s.q.enqueueSemaphore_
    · exact ⟨j, _, .takeEnqueueToken hpc htoken, .inr ⟨j, by simp [State.goto, Pc.bringsItem]⟩⟩
    · obtain ⟨k, t, hst, hstays⟩ := h.busy hcap (by omega) hitem
      exact ⟨k, t, hst, .inr ⟨j, by rw [hstays j (by rw [hpc]; rfl), hj]⟩⟩
  | _ => simp [hpc, Pc.bringsItem] at hj

/-- As long as `P` does not hold, some step keeps `Q`: then the calls can come to `P`. -/
theorem Inv.canReach {Q P : State T → Prop} (h : Inv capacity s) (hs : Q s)
    (next : ∀ u, Inv capacity u → Q u → ¬ P u → ∃ k v, Advances u k v ∧ Q v) :
    (machine T capacity).CanReach s fun t => t.started = s.started ∧ P t := by
  refine Machine.canReach_of_rank (I := fun u => (Inv capacity u ∧ u.started = s.started) ∧ Q u)
    State.toGo (fun u hu hnot => ?_) ⟨⟨h, rfl⟩, hs⟩
  obtain ⟨⟨hinv, hstarted⟩, hQ⟩ := hu
  obtain ⟨k, v, hst, hv⟩ := next u hinv hQ fun hP => hnot ⟨hstarted, hP⟩
  have hadvance := hst.advance
  refine .after (l := .step k) hadvance (.here ⟨⟨⟨?_, ?_⟩, hv⟩, hinv.advance_toGo hadvance⟩)
  · exact inv_step (l := .step k) hinv hadvance
  · exact (advance_calls hadvance).1.trans hstarted

/-- A call that waits for a slot and finds none takes no step. -/
theorem Advances.enqueueWait {k : ℕ} {item : T} (hst : Advances s k t)
    (hpc : s.calls i = .enqueueWait false item) (hslot : s.q.enqueueSemaphore_ = 0) :
    t.calls i = .enqueueWait false item := by
  rw [advance_of_ne hst.advance, hpc]
  rintro rfl
  cases hst <;> simp_all

theorem Advances.dequeueWait {k : ℕ} (hst : Advances s k t)
    (hpc : s.calls i = .dequeueWait false) (hitem : s.q.dequeueSemaphore_ = 0) :
    t.calls i = .dequeueWait false := by
  rw [advance_of_ne hst.advance, hpc]
  rintro rfl
  cases hst <;> simp_all

theorem Inv.enqueue_returns (h : Inv capacity s) (hcap : 0 < capacity) {item : T}
    (hpc : s.calls i = .enqueueWait false item) (hcomes : s.SlotComes) :
    (machine T capacity).CanReach s fun t =>
      t.started = s.started ∧ t.calls i = .enqueued item := by
  refine h.canReach (Q := fun u => (u.calls i = .enqueueWait false item ∧ u.SlotComes) ∨
    u.calls i = .write item ∨ (∃ ok, u.calls i = .dequeueSignal item ok) ∨
      u.calls i = .enqueued item) (.inl ⟨hpc, hcomes⟩) fun u hu hgoing hnot => ?_
  rcases hgoing with ⟨hpc, hcomes⟩ | hpc | ⟨ok, hpc⟩ | hpc
  · by_cases htoken : 0 < u.q.enqueueSemaphore_
    · exact ⟨i, _, .takeEnqueueToken hpc htoken, .inr (.inl (by simp [State.goto]))⟩
    · obtain ⟨k, v, hst, hv⟩ := hu.slot_nearer hcap (by omega) hcomes
      exact ⟨k, v, hst, .inl ⟨hst.enqueueWait hpc (by omega), hv⟩⟩
  · exact ⟨i, _, .write hpc, .inr (.inr (.inl ⟨_, by simp [State.doWrite, State.goto]; rfl⟩))⟩
  · exact ⟨i, _, .signalDequeue hpc,
      .inr (.inr (.inr (by simp [State.signalDequeue, State.goto])))⟩
  · exact absurd hpc hnot

theorem Inv.dequeue_returns (h : Inv capacity s) (hcap : 0 < capacity)
    (hpc : s.calls i = .dequeueWait false) (hcomes : s.ItemComes) :
    (machine T capacity).CanReach s fun t =>
      t.started = s.started ∧ ∃ item, t.calls i = .dequeued (some item) := by
  refine h.canReach (Q := fun u => (u.calls i = .dequeueWait false ∧ u.ItemComes) ∨
    u.calls i = .read ∨ (∃ item, u.calls i = .enqueueSignal (some item)) ∨
      ∃ item, u.calls i = .dequeued (some item)) (.inl ⟨hpc, hcomes⟩) fun u hu hgoing hnot => ?_
  rcases hgoing with ⟨hpc, hcomes⟩ | hpc | ⟨item, hpc⟩ | hpc
  · by_cases htoken : 0 < u.q.dequeueSemaphore_
    · exact ⟨i, _, .takeDequeueToken hpc htoken, .inr (.inl (by simp [State.goto]))⟩
    · obtain ⟨k, v, hst, hv⟩ := hu.item_nearer hcap (by omega) hcomes
      exact ⟨k, v, hst, .inl ⟨hst.dequeueWait hpc (by omega), hv⟩⟩
  · obtain ⟨item, items, -, hread⟩ := hu.read_succeeds hpc
    exact ⟨i, _, .read hpc, .inr (.inr (.inl ⟨item, by simp [State.doRead, State.goto, hread]⟩))⟩
  · exact ⟨i, _, .signalEnqueue hpc,
      .inr (.inr (.inr ⟨item, by simp [State.signalEnqueue, State.goto]⟩))⟩
  · exact absurd hpc hnot

/-- Only a new call can bring a slot when none is coming. -/
theorem State.SlotComes.of_advances (hst : Advances s i t) (h : t.SlotComes) : s.SlotComes := by
  have hat {pc : Pc T} (hpc : s.calls i = pc) (hfrees : pc.freesSlot = true) : s.SlotComes :=
    .inr ⟨i, by rw [hpc, hfrees]⟩
  have hof (htoken : t.q.enqueueSemaphore_ = s.q.enqueueSemaphore_)
      (hpc : (t.calls i).freesSlot = false) : s.SlotComes := by
    rcases h with htok | ⟨j, hj⟩
    · exact .inl (htoken ▸ htok)
    · have hji : j ≠ i := fun heq => by simp [heq, hpc] at hj
      exact .inr ⟨j, by rwa [← advance_of_ne hst.advance hji]⟩
  cases hst with
  | takeEnqueueToken _ htoken => exact .inl htoken
  | refuseEnqueue => exact hof rfl (by simp [State.goto, Pc.freesSlot])
  | write => exact hof rfl (by simp [State.doWrite, State.goto, Pc.freesSlot])
  | signalDequeue => exact hof rfl (by simp [State.signalDequeue, State.goto, Pc.freesSlot])
  | takeDequeueToken hpc _ => exact hat hpc rfl
  | refuseDequeue hpc _ => exact hat hpc rfl
  | read hpc => exact hat hpc rfl
  | signalEnqueue hpc => exact hat hpc rfl

theorem State.ItemComes.of_advances (hst : Advances s i t) (h : t.ItemComes) : s.ItemComes := by
  have hat {pc : Pc T} (hpc : s.calls i = pc) (hbrings : pc.bringsItem = true) : s.ItemComes :=
    .inr ⟨i, by rw [hpc, hbrings]⟩
  have hof (htoken : t.q.dequeueSemaphore_ = s.q.dequeueSemaphore_)
      (hpc : (t.calls i).bringsItem = false) : s.ItemComes := by
    rcases h with htok | ⟨j, hj⟩
    · exact .inl (htoken ▸ htok)
    · have hji : j ≠ i := fun heq => by simp [heq, hpc] at hj
      exact .inr ⟨j, by rwa [← advance_of_ne hst.advance hji]⟩
  cases hst with
  | takeEnqueueToken hpc _ => exact hat hpc rfl
  | refuseEnqueue hpc _ => exact hat hpc rfl
  | write hpc => exact hat hpc rfl
  | signalDequeue hpc => exact hat hpc rfl
  | takeDequeueToken _ htoken => exact .inl htoken
  | refuseDequeue => exact hof rfl (by simp [State.goto, Pc.bringsItem])
  | read => exact hof rfl (by simp [State.doRead, State.goto, Pc.bringsItem])
  | signalEnqueue => exact hof rfl (by simp [State.signalEnqueue, State.goto, Pc.bringsItem])

/-- From any reachable state, and without new calls: a call that waits for a slot can return
exactly if a slot is free or a call that will free one is under way, and a call that waits for an
item exactly if one is there or a call that will bring one is under way. -/
theorem canReturn_iff (hcap : 0 < capacity) (h : (machine T capacity).Reachable s) (i : ℕ) :
    (∀ item, s.calls i = .enqueueWait false item →
      ((machine T capacity).CanReach s
        (fun t => t.started = s.started ∧ t.calls i = .enqueued item) ↔ s.SlotComes)) ∧
    (s.calls i = .dequeueWait false →
      ((machine T capacity).CanReach s
        (fun t => t.started = s.started ∧ ∃ item, t.calls i = .dequeued (some item)) ↔
          s.ItemComes)) := by
  have hinv := inv_of_reachable h
  refine ⟨fun item hpc => ⟨?_, hinv.enqueue_returns hcap hpc⟩,
    fun hpc => ⟨?_, hinv.dequeue_returns hcap hpc⟩⟩
  · rintro ⟨tr, t, htr, hsame, hret⟩
    by_contra hnone
    have hstuck := keep_of_no_call
      (I := fun u => ¬ u.SlotComes ∧ u.calls i = .enqueueWait false item)
      (fun u k v hu hst => ⟨fun hv => hu.1 (hv.of_advances (State.advances hst)),
        (State.advances hst).enqueueWait hu.2 (by have := not_or.mp hu.1; omega)⟩)
      htr hsame ⟨hnone, hpc⟩
    simp [hstuck.2] at hret
  · rintro ⟨tr, t, htr, hsame, item, hret⟩
    by_contra hnone
    have hstuck := keep_of_no_call
      (I := fun u => ¬ u.ItemComes ∧ u.calls i = .dequeueWait false)
      (fun u k v hu hst => ⟨fun hv => hu.1 (hv.of_advances (State.advances hst)),
        (State.advances hst).dequeueWait hu.2 (by have := not_or.mp hu.1; omega)⟩)
      htr hsame ⟨hnone, hpc⟩
    simp [hstuck.2] at hret

/-- Two items for a queue that holds one, and no reader: one call returns and one waits. -/
def secondWaits : List (Label ℕ) :=
  [.call 0 (.enqueue 7), .call 1 (.co_enqueue 8), .step 1, .step 1, .step 1]

/-- The call that waits returns once somebody dequeues, and only then. -/
theorem canReturn_iff_waits :
    (∃ s, (machine ℕ 1).run { q := construct ℕ 1 } secondWaits = some s ∧
      ¬ (machine ℕ 1).CanReach s fun t => t.started = s.started ∧ t.calls 0 = .enqueued 7) ∧
    ∃ s, (machine ℕ 1).run { q := construct ℕ 1 } (secondWaits ++ [.call 2 .dequeue]) = some s ∧
      (machine ℕ 1).CanReach s fun t => t.started = s.started ∧ t.calls 0 = .enqueued 7 := by
  constructor
  · have hrun : (machine ℕ 1).run { q := construct ℕ 1 } secondWaits = some _ := rfl
    have hreach : (machine ℕ 1).Reachable _ := .of_run rfl hrun
    refine ⟨_, hrun, ?_⟩
    rw [(canReturn_iff (by decide) hreach 0).1 7 rfl]
    rintro (htoken | ⟨j, hj⟩)
    · exact absurd htoken (by decide)
    · rcases j with _ | _ | j <;> cases hj
  · have hrun : (machine ℕ 1).run { q := construct ℕ 1 } (secondWaits ++ [.call 2 .dequeue]) =
      some _ := rfl
    refine ⟨_, hrun, ?_⟩
    rw [(canReturn_iff (by decide) (.of_run rfl hrun) 0).1 7 rfl]
    exact .inr ⟨2, rfl⟩

/-! ## Who has returned -/

def Method.enqueues : Method T → Bool
  | .enqueue _ | .co_enqueue _ | .try_enqueue _ => true
  | .dequeue | .co_dequeue | .try_dequeue => false

/-- A call of a blocking method, or a step. -/
def Label.Blocks : Label T → Prop
  | .call _ m => m.blocking = true
  | .step _ => True

def Label.isEnqueue : Label T → Bool
  | .call _ m => m.enqueues
  | .step _ => false

def Label.isDequeue : Label T → Bool
  | .call _ m => !m.enqueues
  | .step _ => false

/-- The calls of one kind that a run makes. -/
def made (kind : Label T → Bool) (tr : List (State T × Label T)) : ℕ := tr.countP fun p => kind p.2

/-- A blocking call that puts an item in, wherever it stands. -/
def Pc.isEnqueue : Pc T → Bool
  | .enqueueWait false _ | .write _ | .dequeueSignal _ _ | .enqueued _ => true
  | _ => false

/-- A blocking call that takes an item out, wherever it stands. -/
def Pc.isDequeue : Pc T → Bool
  | .dequeueWait false | .read | .enqueueSignal _ | .dequeued _ => true
  | _ => false

def Pc.isEnqueued : Pc T → Bool
  | .enqueued _ => true
  | _ => false

def Pc.isDequeued : Pc T → Bool
  | .dequeued _ => true
  | _ => false

def Pc.waitsEnqueue : Pc T → Bool
  | .enqueueWait _ _ => true
  | _ => false

def Pc.waitsDequeue : Pc T → Bool
  | .dequeueWait _ => true
  | _ => false

/-- The calls that put an item in and have returned. -/
def State.enqueued (s : State T) : ℕ := tally s.started s.calls Pc.isEnqueued

def State.dequeued (s : State T) : ℕ := tally s.started s.calls Pc.isDequeued

/-- A run of blocking calls, and how many it made of each kind. -/
structure Blocking (capacity enqueues dequeues : ℕ) (s : State T) : Prop extends
    Inv capacity s where
  kind : ∀ i ∈ s.started, ((s.calls i).isEnqueue || (s.calls i).isDequeue) = true
  enqueues : tally s.started s.calls Pc.isEnqueue = enqueues
  dequeues : tally s.started s.calls Pc.isDequeue = dequeues

/-- A step of a blocking call leaves it a blocking call of its kind. -/
theorem advance_kind (hst : s.advance i = some t)
    (hkind : ((s.calls i).isEnqueue || (s.calls i).isDequeue) = true) :
    t.started = s.started ∧ ∃ pc : Pc T, t.calls = Function.update s.calls i pc ∧
      pc.isEnqueue = (s.calls i).isEnqueue ∧ pc.isDequeue = (s.calls i).isDequeue := by
  cases State.advances hst with
  | refuseEnqueue hpc _ | refuseDequeue hpc _ => simp [hpc, Pc.isEnqueue, Pc.isDequeue] at hkind
  | @takeEnqueueToken nonblocking item hpc _ =>
    cases nonblocking with
    | true => simp [hpc, Pc.isEnqueue, Pc.isDequeue] at hkind
    | false => exact ⟨rfl, _, rfl, by simp [hpc, Pc.isEnqueue], by simp [hpc, Pc.isDequeue]⟩
  | @takeDequeueToken nonblocking hpc _ =>
    cases nonblocking with
    | true => simp [hpc, Pc.isEnqueue, Pc.isDequeue] at hkind
    | false => exact ⟨rfl, _, rfl, by simp [hpc, Pc.isEnqueue], by simp [hpc, Pc.isDequeue]⟩
  | write hpc | signalDequeue hpc | read hpc | signalEnqueue hpc =>
    exact ⟨rfl, _, rfl, by simp [hpc, Pc.isEnqueue], by simp [hpc, Pc.isDequeue]⟩

theorem Blocking.advance {enqueues dequeues : ℕ} (h : Blocking capacity enqueues dequeues s)
    (hst : s.advance i = some t) : Blocking capacity enqueues dequeues t := by
  have hinv : Inv capacity t := inv_step (l := .step i) h.toInv hst
  have hi : i ∈ s.started := by
    by_contra hi
    simp [State.advance, h.started i hi] at hst
  obtain ⟨hstarted, pc, hcalls, henq, hdeq⟩ := advance_kind hst (h.kind i hi)
  have hone := tally_update (p := Pc.isEnqueue) (f := s.calls) (a := pc) h.nodup hi
  have htwo := tally_update (p := Pc.isDequeue) (f := s.calls) (a := pc) h.nodup hi
  rw [henq] at hone
  rw [hdeq] at htwo
  have hold := h.enqueues
  have hold' := h.dequeues
  refine ⟨hinv, fun j hj => ?_, by rw [hstarted, hcalls]; omega, by rw [hstarted, hcalls]; omega⟩
  rw [hstarted] at hj
  rw [hcalls]
  by_cases hji : j = i
  · subst hji
    rw [Function.update_self, henq, hdeq]
    exact h.kind j hj
  · rw [Function.update_of_ne hji]
    exact h.kind j hj

theorem Blocking.call {enqueues dequeues : ℕ} (h : Blocking capacity enqueues dequeues s)
    {m : Method T} (hm : m.blocking = true) (hst : s.call i m = some t) :
    Blocking capacity (enqueues + m.enqueues.toNat) (dequeues + (!m.enqueues).toNat) t := by
  have hinv : Inv capacity t := h.toInv.call hst
  simp only [State.call, Option.ite_none_left_eq_some, Option.some.injEq] at hst
  obtain ⟨hfresh, rfl⟩ := hst
  have hentry : m.entry.isEnqueue = m.enqueues ∧ m.entry.isDequeue = !m.enqueues := by
    cases m <;> simp [Method.blocking] at hm <;> exact ⟨rfl, rfl⟩
  refine ⟨hinv, fun j hj => ?_, ?_, ?_⟩
  · rcases List.mem_append.mp hj with hold | hnew
    · simp only [State.goto, Function.update_of_ne (ne_of_mem_of_not_mem hold hfresh)]
      exact h.kind j hold
    · obtain rfl : j = i := by simpa using hnew
      simp [State.goto, hentry]
  · simp only [State.goto, tally_append_singleton, tally_update_of_not_mem hfresh,
      Function.update_self, hentry, h.enqueues]
  · simp only [State.goto, tally_append_singleton, tally_update_of_not_mem hfresh,
      Function.update_self, hentry, h.dequeues]

theorem Blocking.of_trace {tr : List (State T × Label T)} (hs : (machine T capacity).start s)
    (htr : (machine T capacity).Trace s tr t) (hblocks : ∀ p ∈ tr, p.2.Blocks) :
    Blocking capacity (made Label.isEnqueue tr) (made Label.isDequeue tr) t := by
  induction htr with
  | nil =>
    have hinv := inv_start hs
    obtain rfl : s = { q := construct T capacity } := hs
    exact ⟨hinv, by simp, rfl, rfl⟩
  | @snoc u v l tr htr hst ih =>
    have hu := ih fun p hp => hblocks p (List.mem_append_left _ hp)
    have hl := hblocks (u, l) (by simp)
    have hmade (kind : Label T → Bool) :
        made kind (tr ++ [(u, l)]) = made kind tr + (kind l).toNat := by
      cases hk : kind l <;> simp [made, List.countP_append, hk]
    rw [hmade, hmade]
    cases l with
    | call i m => exact hu.call hl hst
    | step i => exact hu.advance hst

/-- Where the blocking calls are when nobody can take a step. -/
theorem Blocking.at_rest {enqueues dequeues : ℕ} (h : Blocking capacity enqueues dequeues s)
    (hquiet : ∀ i, s.advance i = none) (hi : i ∈ s.started) :
    (∃ item, s.calls i = .enqueueWait false item ∧ s.q.enqueueSemaphore_ = 0) ∨
    (s.calls i = .dequeueWait false ∧ s.q.dequeueSemaphore_ = 0) ∨
    (∃ item, s.calls i = .enqueued item) ∨ ∃ item, s.calls i = .dequeued (some item) := by
  have hnone := hquiet i
  have hkind := h.kind i hi
  simp only [State.advance] at hnone
  cases hpc : s.calls i with
  | enqueueWait nonblocking item =>
    cases nonblocking with
    | true => simp [hpc, Pc.isEnqueue, Pc.isDequeue] at hkind
    | false =>
      simp only [hpc, State.takeEnqueueToken] at hnone
      exact .inl ⟨item, rfl, by simpa using hnone⟩
  | dequeueWait nonblocking =>
    cases nonblocking with
    | true => simp [hpc, Pc.isEnqueue, Pc.isDequeue] at hkind
    | false =>
      simp only [hpc, State.takeDequeueToken] at hnone
      exact .inr (.inl ⟨rfl, by simpa using hnone⟩)
  | enqueued item => exact .inr (.inr (.inl ⟨item, rfl⟩))
  | dequeued item =>
    have hgood := h.good i
    rw [hpc] at hgood
    obtain ⟨x, rfl⟩ := Option.isSome_iff_exists.mp hgood
    exact .inr (.inr (.inr ⟨x, rfl⟩))
  | write | dequeueSignal | read | enqueueSignal => simp [hpc] at hnone
  | idle | refused => simp [hpc, Pc.isEnqueue, Pc.isDequeue] at hkind

/-- A kind of place falls into two at rest if it does so at the four places that are left. -/
theorem Blocking.tally_at_rest {enqueues dequeues : ℕ}
    (h : Blocking capacity enqueues dequeues s) (hquiet : ∀ i, s.advance i = none)
    {p q r : Pc T → Bool}
    (hwaitE : ∀ item, (p (.enqueueWait false item)).toNat =
      (q (.enqueueWait false item)).toNat + (r (.enqueueWait false item)).toNat)
    (hwaitD : (p (.dequeueWait false)).toNat =
      (q (.dequeueWait false)).toNat + (r (.dequeueWait false)).toNat)
    (hdoneE : ∀ item, (p (.enqueued item)).toNat =
      (q (.enqueued item)).toNat + (r (.enqueued item)).toNat)
    (hdoneD : ∀ item, (p (.dequeued (some item))).toNat =
      (q (.dequeued (some item))).toNat + (r (.dequeued (some item))).toNat) :
    tally s.started s.calls p = tally s.started s.calls q + tally s.started s.calls r := by
  refine tally_add fun i hi => ?_
  rcases h.at_rest hquiet hi with ⟨item, hpc, -⟩ | ⟨hpc, -⟩ | ⟨item, hpc⟩ | ⟨item, hpc⟩
  · rw [hpc, hwaitE]
  · rw [hpc, hwaitD]
  · rw [hpc, hdoneE]
  · rw [hpc, hdoneD]

/-- Whoever still waits to put an item in finds no free slot, and whoever waits for an item
finds none. -/
theorem Blocking.waits_at_rest {enqueues dequeues : ℕ}
    (h : Blocking capacity enqueues dequeues s) (hquiet : ∀ i, s.advance i = none) :
    (tally s.started s.calls Pc.waitsEnqueue = 0 ∨ s.q.enqueueSemaphore_ = 0) ∧
      (tally s.started s.calls Pc.waitsDequeue = 0 ∨ s.q.dequeueSemaphore_ = 0) := by
  constructor
  · rw [or_iff_not_imp_right]
    refine fun hsem => tally_eq_zero.mpr fun i hi => ?_
    rcases h.at_rest hquiet hi with ⟨item, -, hzero⟩ | ⟨hpc, -⟩ | ⟨item, hpc⟩ | ⟨item, hpc⟩
    · exact absurd hzero hsem
    all_goals rw [hpc]; rfl
  · rw [or_iff_not_imp_right]
    refine fun hsem => tally_eq_zero.mpr fun i hi => ?_
    rcases h.at_rest hquiet hi with ⟨item, hpc, -⟩ | ⟨-, hzero⟩ | ⟨item, hpc⟩ | ⟨item, hpc⟩
    · rw [hpc]
      rfl
    · exact absurd hzero hsem
    all_goals rw [hpc]; rfl

/-- The logs are as long as the calls with an entry are many. -/
theorem Inv.logs_length (h : Inv capacity s) :
    s.written.length = tally s.started s.calls (fun pc => pc.wrote.isSome) ∧
      s.handed.length = tally s.started s.calls fun pc => pc.took.isSome := by
  refine ⟨h.wrote.length_eq h.nodup fun j x hx => ?_, h.took.length_eq h.nodup fun j x hx => ?_⟩ <;>
  · by_contra hj
    simp [h.started j hj] at hx

/-- A run of blocking calls that has come to rest: of the calls that put an item in and those that
take one out, as many have returned as the capacity allows, whatever the order of their steps. -/
theorem returned_counts {tr : List (State T × Label T)} (hcap : 0 < capacity)
    (hs : (machine T capacity).start s) (htr : (machine T capacity).Trace s tr t)
    (hblocks : ∀ p ∈ tr, p.2.Blocks) (hquiet : ∀ i, t.advance i = none) :
    t.enqueued = min (made Label.isEnqueue tr) (made Label.isDequeue tr + capacity) ∧
      t.dequeued = min (made Label.isDequeue tr) (made Label.isEnqueue tr) := by
  have h := Blocking.of_trace hs htr hblocks
  have henq : tally t.started t.calls Pc.isEnqueue =
      t.enqueued + tally t.started t.calls Pc.waitsEnqueue :=
    h.tally_at_rest hquiet (fun _ => rfl) rfl (fun _ => rfl) fun _ => rfl
  have hdeq : tally t.started t.calls Pc.isDequeue =
      t.dequeued + tally t.started t.calls Pc.waitsDequeue :=
    h.tally_at_rest hquiet (fun _ => rfl) rfl (fun _ => rfl) fun _ => rfl
  -- nobody is between the wait and the signal of a call
  have hnowhere : tally t.started t.calls (fun _ => false) = 0 := by simp [tally]
  have hwrote : tally t.started t.calls (fun pc => pc.wrote.isSome) =
      t.enqueued + tally t.started t.calls (fun _ => false) :=
    h.tally_at_rest hquiet (fun _ => rfl) rfl (fun _ => rfl) fun _ => rfl
  have htook : tally t.started t.calls (fun pc => pc.took.isSome) =
      t.dequeued + tally t.started t.calls (fun _ => false) :=
    h.tally_at_rest hquiet (fun _ => rfl) rfl (fun _ => rfl) fun _ => rfl
  have hwrite : tally t.started t.calls Pc.isWrite =
      tally t.started t.calls (fun _ => false) + tally t.started t.calls fun _ => false :=
    h.tally_at_rest hquiet (fun _ => rfl) rfl (fun _ => rfl) fun _ => rfl
  have hread : tally t.started t.calls Pc.isRead =
      tally t.started t.calls (fun _ => false) + tally t.started t.calls fun _ => false :=
    h.tally_at_rest hquiet (fun _ => rfl) rfl (fun _ => rfl) fun _ => rfl
  have hsignalD : tally t.started t.calls Pc.isDequeueSignal =
      tally t.started t.calls (fun _ => false) + tally t.started t.calls fun _ => false :=
    h.tally_at_rest hquiet (fun _ => rfl) rfl (fun _ => rfl) fun _ => rfl
  have hsignalE : tally t.started t.calls Pc.isEnqueueSignal =
      tally t.started t.calls (fun _ => false) + tally t.started t.calls fun _ => false :=
    h.tally_at_rest hquiet (fun _ => rfl) rfl (fun _ => rfl) fun _ => rfl
  obtain ⟨hfull, hnone⟩ := h.waits_at_rest hquiet
  obtain ⟨hwritten, hhanded⟩ := h.logs_length
  have hfifo := congrArg List.length h.fifo
  simp only [List.length_map, List.length_append] at hfifo
  have hslots := h.slots
  have hitems := h.items
  have hmadeE := h.enqueues
  have hmadeD := h.dequeues
  omega

theorem returned_counts_waits : ∃ tr t,
    (machine ℕ 1).Trace { q := construct ℕ 1 } tr t ∧ tr.map Prod.snd = secondWaits ∧
    t.enqueued = min (made Label.isEnqueue tr) (made Label.isDequeue tr + 1) ∧
    t.dequeued = min (made Label.isDequeue tr) (made Label.isEnqueue tr) := by
  have hrun : ((machine ℕ 1).run { q := construct ℕ 1 } secondWaits).any (fun t =>
      t.started = [0, 1] ∧ (t.advance 0).isNone = true ∧ (t.advance 1).isNone = true) = true := by
    decide +kernel
  obtain ⟨t, ht, hstarted, hzero, hone⟩ := Machine.exists_of_run hrun
  obtain ⟨tr, htr, hls⟩ := Machine.Trace.of_run ht
  refine ⟨tr, t, htr, hls, returned_counts (by decide) rfl htr (fun p hp => ?_) fun i => ?_⟩
  · have hmem : p.2 ∈ secondWaits := hls ▸ List.mem_map_of_mem hp
    simp only [secondWaits, List.mem_cons, List.not_mem_nil, or_false] at hmem
    rcases hmem with h | h | h | h | h <;> rw [h] <;> simp [Label.Blocks, Method.blocking]
  · by_cases hi : i ∈ t.started
    · rw [hstarted] at hi
      obtain rfl | rfl : i = 0 ∨ i = 1 := by simpa using hi
      · simpa using hzero
      · simpa using hone
    · have hidle := (inv_of_reachable (.of_run rfl ht)).started i hi
      simp [State.advance, hidle]

end QStorage.Infra.BoundedQueue
