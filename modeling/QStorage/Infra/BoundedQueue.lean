import QStorage.Lib.Fifo
import QStorage.Lib.Tally
import Mathlib.Data.List.TakeDrop

/-!
# The bounded queue (`infra/bounded_queue.h`)

Two counting semaphores guard a queue of fixed capacity. Every operation is a semaphore
wait, a queue operation whose result the code ignores, and a signal of the other semaphore;
the steps of different calls interleave freely.

## Main results

* `BoundedQueue.Inv` — the conservation law between the semaphores, the queue length and
  the calls that are under way.
* `BoundedQueue.queue_exact` — no ignored result is ever a failure, and the items handed
  out are the items that the enqueuing calls were made with, in the order of their writes.
* `BoundedQueue.refines` — the queue refines a bounded FIFO channel.
-/

namespace QStorage.Infra

open QStorage.Lib

variable {T : Type*}

/-- `folly::MPMCQueue`, as an atomic queue of the given capacity. -/
structure MPMCQueue (T : Type*) where
  capacity : ℕ
  items : List T := []

namespace MPMCQueue

def writeIfNotFull (q : MPMCQueue T) (item : T) : Bool × MPMCQueue T :=
  if q.items.length < q.capacity then (true, { q with items := q.items ++ [item] })
  else (false, q)

def readIfNotEmpty (q : MPMCQueue T) : Option T × MPMCQueue T :=
  (q.items.head?, { q with items := q.items.tail })

end MPMCQueue

/-- The members of the class; a semaphore is its number of tokens. -/
structure BoundedQueue (T : Type*) where
  queue_ : MPMCQueue T
  enqueueSemaphore_ : ℕ
  dequeueSemaphore_ : ℕ

namespace BoundedQueue

def construct (T : Type*) (capacity : ℕ) : BoundedQueue T :=
  { queue_ := { capacity := capacity }, enqueueSemaphore_ := capacity, dequeueSemaphore_ := 0 }

/-- Where a call stands, with its locals. `ok` is the ignored result of `writeIfNotFull`,
and `item = none` means that `readIfNotEmpty` failed and left the item as it was. -/
inductive Pc (T : Type*) where
  | idle
  | enqueueWait (nonblocking : Bool) (item : T)
  | write (item : T)
  | dequeueSignal (item : T) (ok : Bool)
  | dequeueWait (nonblocking : Bool)
  | read
  | enqueueSignal (item : Option T)
  | enqueued (item : T)
  | dequeued (item : Option T)
  /-- A `try_` call returned without an effect. -/
  | refused

/-- The operations; the overloads of `dequeue`, `co_dequeue` and `try_dequeue` that store
through a reference take the same steps. -/
inductive Method (T : Type*) where
  | enqueue (item : T)
  | co_enqueue (item : T)
  | try_enqueue (item : T)
  | dequeue
  | co_dequeue
  | try_dequeue

def Method.entry : Method T → Pc T
  | .enqueue item => .enqueueWait false item
  | .co_enqueue item => .enqueueWait false item
  | .try_enqueue item => .enqueueWait true item
  | .dequeue => .dequeueWait false
  | .co_dequeue => .dequeueWait false
  | .try_dequeue => .dequeueWait true

/-- The argument of a method that puts an item in. -/
def Method.item : Method T → Option T
  | .enqueue item | .co_enqueue item | .try_enqueue item => some item
  | .dequeue | .co_dequeue | .try_dequeue => none

/-- The call waits until it can go on. -/
def Method.blocking : Method T → Bool
  | .try_enqueue _ | .try_dequeue => false
  | _ => true

/-- The queue and all calls on it. What follows `calls` is history: `methods` are the methods that
were called, `started` lists the calls made so far, `written` the accepted items with the call that
wrote them, `handed` the items read and their readers. -/
structure State (T : Type*) where
  q : BoundedQueue T
  calls : ℕ → Pc T := fun _ => .idle
  methods : ℕ → Option (Method T) := fun _ => none
  started : List ℕ := []
  written : List (ℕ × T) := []
  handed : List (ℕ × T) := []

inductive Label (T : Type*) where
  | call (i : ℕ) (m : Method T)
  | step (i : ℕ)

namespace State

variable (s : State T) (i : ℕ)

def goto (pc : Pc T) : State T := { s with calls := Function.update s.calls i pc }

/-- `enqueueSemaphore_.wait()` or `try_wait()`. -/
def takeEnqueueToken (nonblocking : Bool) (item : T) : Option (State T) :=
  if 0 < s.q.enqueueSemaphore_ then
    some { s.goto i (.write item) with
      q := { s.q with enqueueSemaphore_ := s.q.enqueueSemaphore_ - 1 } }
  else if nonblocking then some (s.goto i .refused) else none

/-- `queue_.writeIfNotFull(item)`. -/
def doWrite (item : T) : State T :=
  let r := s.q.queue_.writeIfNotFull item
  { s.goto i (.dequeueSignal item r.1) with
    q := { s.q with queue_ := r.2 }
    written := if r.1 then s.written ++ [(i, item)] else s.written }

/-- `dequeueSemaphore_.signal()` and the return. -/
def signalDequeue (item : T) : State T :=
  { s.goto i (.enqueued item) with
    q := { s.q with dequeueSemaphore_ := s.q.dequeueSemaphore_ + 1 } }

/-- `dequeueSemaphore_.wait()` or `try_wait()`. -/
def takeDequeueToken (nonblocking : Bool) : Option (State T) :=
  if 0 < s.q.dequeueSemaphore_ then
    some { s.goto i .read with
      q := { s.q with dequeueSemaphore_ := s.q.dequeueSemaphore_ - 1 } }
  else if nonblocking then some (s.goto i .refused) else none

/-- `queue_.readIfNotEmpty(item)`. -/
def doRead : State T :=
  let r := s.q.queue_.readIfNotEmpty
  { s.goto i (.enqueueSignal r.1) with
    q := { s.q with queue_ := r.2 }
    handed := s.handed ++ (r.1.map (i, ·)).toList }

/-- `enqueueSemaphore_.signal()` and the return. -/
def signalEnqueue (item : Option T) : State T :=
  { s.goto i (.dequeued item) with
    q := { s.q with enqueueSemaphore_ := s.q.enqueueSemaphore_ + 1 } }

/-- The next step of call `i`. -/
def advance : Option (State T) :=
  match s.calls i with
  | .enqueueWait nonblocking item => s.takeEnqueueToken i nonblocking item
  | .write item => some (s.doWrite i item)
  | .dequeueSignal item _ => some (s.signalDequeue i item)
  | .dequeueWait nonblocking => s.takeDequeueToken i nonblocking
  | .read => some (s.doRead i)
  | .enqueueSignal item => some (s.signalEnqueue i item)
  | .idle | .enqueued _ | .dequeued _ | .refused => none

def call (m : Method T) : Option (State T) :=
  if i ∈ s.started then none
  else some { s.goto i m.entry with
    methods := Function.update s.methods i (some m)
    started := s.started ++ [i] }

end State

def machine (T : Type*) (capacity : ℕ) : Machine (State T) (Label T) where
  start s := s = { q := construct T capacity }
  step s
    | .call i m => s.call i m
    | .step i => s.advance i

/-- What a step of call `i` does. -/
inductive Advances (s : State T) (i : ℕ) : State T → Prop
  | takeEnqueueToken {nonblocking : Bool} {item : T} :
      s.calls i = .enqueueWait nonblocking item → 0 < s.q.enqueueSemaphore_ →
      Advances s i { s.goto i (.write item) with
        q := { s.q with enqueueSemaphore_ := s.q.enqueueSemaphore_ - 1 } }
  | refuseEnqueue {item : T} : s.calls i = .enqueueWait true item →
      s.q.enqueueSemaphore_ = 0 → Advances s i (s.goto i .refused)
  | write {item : T} : s.calls i = .write item → Advances s i (s.doWrite i item)
  | signalDequeue {item : T} {ok : Bool} : s.calls i = .dequeueSignal item ok →
      Advances s i (s.signalDequeue i item)
  | takeDequeueToken {nonblocking : Bool} : s.calls i = .dequeueWait nonblocking →
      0 < s.q.dequeueSemaphore_ →
      Advances s i { s.goto i .read with
        q := { s.q with dequeueSemaphore_ := s.q.dequeueSemaphore_ - 1 } }
  | refuseDequeue : s.calls i = .dequeueWait true → s.q.dequeueSemaphore_ = 0 →
      Advances s i (s.goto i .refused)
  | read : s.calls i = .read → Advances s i (s.doRead i)
  | signalEnqueue {item : Option T} : s.calls i = .enqueueSignal item →
      Advances s i (s.signalEnqueue i item)

theorem State.advances {s t : State T} {i : ℕ} (hst : s.advance i = some t) : Advances s i t := by
  simp only [State.advance] at hst
  cases hpc : s.calls i with
  | enqueueWait nonblocking item =>
    simp only [hpc, State.takeEnqueueToken] at hst
    split_ifs at hst with htoken hnb
    · exact Option.some.inj hst ▸ .takeEnqueueToken hpc htoken
    · subst hnb
      exact Option.some.inj hst ▸ .refuseEnqueue hpc (by omega)
  | write item =>
    obtain rfl : s.doWrite i item = t := by simpa [hpc] using hst
    exact .write hpc
  | dequeueSignal item ok =>
    obtain rfl : s.signalDequeue i item = t := by simpa [hpc] using hst
    exact .signalDequeue hpc
  | dequeueWait nonblocking =>
    simp only [hpc, State.takeDequeueToken] at hst
    split_ifs at hst with htoken hnb
    · exact Option.some.inj hst ▸ .takeDequeueToken hpc htoken
    · subst hnb
      exact Option.some.inj hst ▸ .refuseDequeue hpc (by omega)
  | read =>
    obtain rfl : s.doRead i = t := by simpa [hpc] using hst
    exact .read hpc
  | enqueueSignal item =>
    obtain rfl : s.signalEnqueue i item = t := by simpa [hpc] using hst
    exact .signalEnqueue hpc
  | idle | enqueued | dequeued | refused => simp [hpc] at hst

theorem Advances.advance {s t : State T} {i : ℕ} (h : Advances s i t) : s.advance i = some t := by
  cases h with
  | takeEnqueueToken hpc htoken => simp [State.advance, hpc, State.takeEnqueueToken, htoken]
  | refuseEnqueue hpc hzero => simp [State.advance, hpc, State.takeEnqueueToken, hzero]
  | takeDequeueToken hpc htoken => simp [State.advance, hpc, State.takeDequeueToken, htoken]
  | refuseDequeue hpc hzero => simp [State.advance, hpc, State.takeDequeueToken, hzero]
  | write hpc | signalDequeue hpc | read hpc | signalEnqueue hpc => simp [State.advance, hpc]

/-! ## The conservation law -/

@[simp] def Pc.isWrite : Pc T → Bool
  | .write _ => true
  | _ => false

@[simp] def Pc.isDequeueSignal : Pc T → Bool
  | .dequeueSignal _ _ => true
  | _ => false

@[simp] def Pc.isRead : Pc T → Bool
  | .read => true
  | _ => false

@[simp] def Pc.isEnqueueSignal : Pc T → Bool
  | .enqueueSignal _ => true
  | _ => false

/-- The item that the call has put into the queue. -/
@[simp] def Pc.wrote : Pc T → Option T
  | .dequeueSignal item _ | .enqueued item => some item
  | _ => none

/-- The item that the call has taken from the queue. -/
@[simp] def Pc.took : Pc T → Option T
  | .enqueueSignal item | .dequeued item => item
  | _ => none

/-- An ignored result was a success. -/
@[simp] def Pc.Good : Pc T → Prop
  | .dequeueSignal _ ok => ok = true
  | .enqueueSignal item | .dequeued item => item.isSome
  | _ => True

structure Inv (capacity : ℕ) (s : State T) : Prop where
  capacity_eq : s.q.queue_.capacity = capacity
  nodup : s.started.Nodup
  started : ∀ i, i ∉ s.started → s.calls i = .idle
  /-- Every slot is a free token, reserved, filled, or read and not yet signalled. -/
  slots : s.q.enqueueSemaphore_ + tally s.started s.calls Pc.isWrite + s.q.queue_.items.length +
    tally s.started s.calls Pc.isEnqueueSignal = capacity
  /-- Every item is announced by a token, claimed, or written and not yet announced. -/
  items : s.q.queue_.items.length = s.q.dequeueSemaphore_ + tally s.started s.calls Pc.isRead +
    tally s.started s.calls Pc.isDequeueSignal
  fifo : s.written.map Prod.snd = s.handed.map Prod.snd ++ s.q.queue_.items
  wrote : Logs Pc.wrote s.calls s.written
  took : Logs Pc.took s.calls s.handed
  good : ∀ i, (s.calls i).Good

theorem inv_start {capacity : ℕ} {s : State T} (h : (machine T capacity).start s) :
    Inv capacity s := by
  obtain rfl : s = { q := construct T capacity } := h
  refine ⟨rfl, .nil, fun _ _ => rfl, rfl, rfl, rfl, ⟨.nil, ?_⟩, ⟨.nil, ?_⟩, fun _ => trivial⟩ <;>
    simp

section Step

variable {capacity : ℕ} {s t : State T} {i : ℕ}

theorem Inv.mem_started (h : Inv capacity s) {pc : Pc T} (hpc : s.calls i = pc)
    (hne : pc ≠ .idle) : i ∈ s.started := by
  by_contra hi
  exact hne (hpc.symm.trans (h.started i hi))

/-- A step of call `i` keeps the invariant if what it does to the semaphores and the queue
balances its own change of place. -/
theorem Inv.move (h : Inv capacity s) {a : Pc T} (hi : i ∈ s.started)
    (hcalls : t.calls = Function.update s.calls i a) (hstarted : t.started = s.started)
    (hcap : t.q.queue_.capacity = s.q.queue_.capacity)
    (hslots : t.q.enqueueSemaphore_ + a.isWrite.toNat + t.q.queue_.items.length +
        a.isEnqueueSignal.toNat =
      s.q.enqueueSemaphore_ + (s.calls i).isWrite.toNat + s.q.queue_.items.length +
        (s.calls i).isEnqueueSignal.toNat)
    (hitems : t.q.queue_.items.length + (s.q.dequeueSemaphore_ + (s.calls i).isRead.toNat +
        (s.calls i).isDequeueSignal.toNat) =
      s.q.queue_.items.length + (t.q.dequeueSemaphore_ + a.isRead.toNat +
        a.isDequeueSignal.toNat))
    (hfifo : t.written.map Prod.snd = t.handed.map Prod.snd ++ t.q.queue_.items)
    (hwrote : Logs Pc.wrote t.calls t.written) (htook : Logs Pc.took t.calls t.handed)
    (hgood : a.Good) : Inv capacity t := by
  have hmove (p : Pc T → Bool) := tally_update (p := p) (f := s.calls) (a := a) h.nodup hi
  have hwrite := hmove Pc.isWrite
  have henq := hmove Pc.isEnqueueSignal
  have hread := hmove Pc.isRead
  have hdeq := hmove Pc.isDequeueSignal
  have hs := h.slots
  have hl := h.items
  refine ⟨hcap.trans h.capacity_eq, hstarted ▸ h.nodup, ?_, ?_, ?_, hfifo, hwrote, htook, ?_⟩
  · intro j hj
    rw [hstarted] at hj
    rw [hcalls, Function.update_of_ne (ne_of_mem_of_not_mem hi hj).symm]
    exact h.started j hj
  · rw [hcalls, hstarted]
    omega
  · rw [hcalls, hstarted]
    omega
  · intro j
    rw [hcalls]
    by_cases hj : j = i
    · subst hj
      rwa [Function.update_self]
    · rw [Function.update_of_ne hj]
      exact h.good j

/-- A reserved slot is free, so that `writeIfNotFull` cannot fail. -/
theorem Inv.write_succeeds (h : Inv capacity s) {item : T} (hpc : s.calls i = .write item) :
    s.q.queue_.writeIfNotFull item =
      (true, { s.q.queue_ with items := s.q.queue_.items ++ [item] }) := by
  have hpos : 0 < tally s.started s.calls Pc.isWrite :=
    tally_pos (h.mem_started hpc (by simp)) (by simp [hpc])
  have hroom : s.q.queue_.items.length < s.q.queue_.capacity := by
    have := h.slots
    have := h.capacity_eq
    omega
  rw [MPMCQueue.writeIfNotFull, if_pos hroom]

/-- A claimed item is there, so that `readIfNotEmpty` cannot fail. -/
theorem Inv.read_succeeds (h : Inv capacity s) (hpc : s.calls i = .read) :
    ∃ item items, s.q.queue_.items = item :: items ∧
      s.q.queue_.readIfNotEmpty = (some item, { s.q.queue_ with items := items }) := by
  have hpos : 0 < tally s.started s.calls Pc.isRead :=
    tally_pos (h.mem_started hpc (by simp)) (by simp [hpc])
  have hlen := h.items
  cases hitems : s.q.queue_.items with
  | nil => simp only [hitems, List.length_nil] at hlen; omega
  | cons item items => exact ⟨item, items, rfl, by simp [MPMCQueue.readIfNotEmpty, hitems]⟩

/-- A step that only changes the place of call `i`, to one that counts for nothing. -/
theorem Inv.refuse (h : Inv capacity s) (hi : i ∈ s.started)
    (hwait : (∃ item, s.calls i = .enqueueWait true item) ∨ s.calls i = .dequeueWait true) :
    Inv capacity (s.goto i .refused) := by
  obtain ⟨item, hpc⟩ | hpc := hwait <;>
  · refine h.move hi rfl rfl rfl ?_ ?_ h.fifo (h.wrote.update ?_) (h.took.update ?_) trivial <;>
      simp [State.goto, hpc]

theorem Inv.takeEnqueueToken (h : Inv capacity s) {nonblocking : Bool} {item : T}
    (hpc : s.calls i = .enqueueWait nonblocking item) (htoken : 0 < s.q.enqueueSemaphore_) :
    Inv capacity { s.goto i (.write item) with
      q := { s.q with enqueueSemaphore_ := s.q.enqueueSemaphore_ - 1 } } := by
  refine h.move (h.mem_started hpc (by simp)) rfl rfl rfl ?_ ?_ h.fifo (h.wrote.update ?_)
    (h.took.update ?_) trivial <;>
    simp [hpc]
  omega

theorem Inv.doWrite (h : Inv capacity s) {item : T} (hpc : s.calls i = .write item) :
    Inv capacity (s.doWrite i item) := by
  have hok := h.write_succeeds hpc
  refine h.move (h.mem_started hpc (by simp)) rfl rfl ?_ ?_ ?_ ?_ ?_ ?_ ?_
  · simp [State.doWrite, hok]
  · simp [State.doWrite, State.goto, hok, hpc]
    omega
  · simp [State.doWrite, State.goto, hok, hpc]
    omega
  · simp [State.doWrite, State.goto, hok, h.fifo]
  · simpa [State.doWrite, State.goto, hok] using
      h.wrote.append (by simp [hpc]) (by simp)
  · exact h.took.update (by simp [hpc])
  · simp [hok]

theorem Inv.signalDequeue (h : Inv capacity s) {item : T} {ok : Bool}
    (hpc : s.calls i = .dequeueSignal item ok) : Inv capacity (s.signalDequeue i item) := by
  refine h.move (h.mem_started hpc (by simp)) rfl rfl rfl ?_ ?_ h.fifo (h.wrote.update ?_)
    (h.took.update ?_) trivial <;>
    simp [State.signalDequeue, State.goto, hpc]

theorem Inv.takeDequeueToken (h : Inv capacity s) {nonblocking : Bool}
    (hpc : s.calls i = .dequeueWait nonblocking) (htoken : 0 < s.q.dequeueSemaphore_) :
    Inv capacity { s.goto i .read with
      q := { s.q with dequeueSemaphore_ := s.q.dequeueSemaphore_ - 1 } } := by
  refine h.move (h.mem_started hpc (by simp)) rfl rfl rfl ?_ ?_ h.fifo (h.wrote.update ?_)
    (h.took.update ?_) trivial <;>
    simp [hpc]
  omega

theorem Inv.doRead (h : Inv capacity s) (hpc : s.calls i = .read) :
    Inv capacity (s.doRead i) := by
  obtain ⟨item, items, hitems, hok⟩ := h.read_succeeds hpc
  refine h.move (h.mem_started hpc (by simp)) rfl rfl ?_ ?_ ?_ ?_ ?_ ?_ ?_
  · simp [State.doRead, hok]
  · simp [State.doRead, State.goto, hok, hitems, hpc]
    omega
  · simp [State.doRead, State.goto, hok, hitems, hpc]
    omega
  · simp [State.doRead, State.goto, hok, h.fifo, hitems]
  · exact h.wrote.update (by simp [hpc])
  · simpa [State.doRead, State.goto, hok] using
      h.took.append (by simp [hpc]) (by simp)
  · simp [hok]

theorem Inv.signalEnqueue (h : Inv capacity s) {item : Option T}
    (hpc : s.calls i = .enqueueSignal item) : Inv capacity (s.signalEnqueue i item) := by
  have hgood : (Pc.dequeued item).Good := by
    have := h.good i
    rwa [hpc] at this
  refine h.move (h.mem_started hpc (by simp)) rfl rfl rfl ?_ ?_ h.fifo (h.wrote.update ?_)
    (h.took.update ?_) hgood <;>
    simp [State.signalEnqueue, State.goto, hpc]
  omega

/-- The entry of an operation touches neither the semaphores nor the queue. -/
theorem Method.entry_spec (m : Method T) : m.entry.isWrite = false ∧
    m.entry.isEnqueueSignal = false ∧ m.entry.isRead = false ∧ m.entry.isDequeueSignal = false ∧
    m.entry.wrote = none ∧ m.entry.took = none ∧ m.entry.Good := by
  cases m <;> exact ⟨rfl, rfl, rfl, rfl, rfl, rfl, trivial⟩

theorem Inv.call (h : Inv capacity s) {m : Method T} (hst : s.call i m = some t) :
    Inv capacity t := by
  simp only [State.call, Option.ite_none_left_eq_some, Option.some.injEq] at hst
  obtain ⟨hfresh, rfl⟩ := hst
  have hidle := h.started i hfresh
  obtain ⟨hwrite, henq, hread, hdeq, hwrote, htook, hgood⟩ := m.entry_spec
  have hslots := h.slots
  have hitems := h.items
  refine ⟨h.capacity_eq, ?_, ?_, ?_, ?_, h.fifo, h.wrote.update ?_, h.took.update ?_, ?_⟩
  · rw [List.nodup_append]
    refine ⟨h.nodup, by simp, fun j hj k hk => ?_⟩
    obtain rfl : k = i := by simpa using hk
    exact ne_of_mem_of_not_mem hj hfresh
  · intro j hj
    simp only [List.mem_append, List.mem_singleton, not_or] at hj
    simp only [State.goto, Function.update_of_ne hj.2]
    exact h.started j hj.1
  · simpa only [State.goto, tally_append_singleton, tally_update_of_not_mem hfresh,
      Function.update_self, hwrite, henq, Bool.toNat_false, Nat.add_zero] using hslots
  · simpa only [State.goto, tally_append_singleton, tally_update_of_not_mem hfresh,
      Function.update_self, hread, hdeq, Bool.toNat_false, Nat.add_zero] using hitems
  · rw [hidle, hwrote]
    rfl
  · rw [hidle, htook]
    rfl
  · intro j
    by_cases hj : j = i
    · subst hj
      simpa [State.goto] using hgood
    · simp only [State.goto, Function.update_of_ne hj]
      exact h.good j

end Step

theorem inv_step {capacity : ℕ} {s t : State T} {l : Label T} (h : Inv capacity s)
    (hst : (machine T capacity).step s l = some t) : Inv capacity t := by
  cases l with
  | call i m => exact h.call hst
  | step i =>
    cases State.advances hst with
    | takeEnqueueToken hpc htoken => exact h.takeEnqueueToken hpc htoken
    | refuseEnqueue hpc _ => exact h.refuse (h.mem_started hpc (by simp)) (.inl ⟨_, hpc⟩)
    | write hpc => exact h.doWrite hpc
    | signalDequeue hpc => exact h.signalDequeue hpc
    | takeDequeueToken hpc htoken => exact h.takeDequeueToken hpc htoken
    | refuseDequeue hpc _ => exact h.refuse (h.mem_started hpc (by simp)) (.inr hpc)
    | read hpc => exact h.doRead hpc
    | signalEnqueue hpc => exact h.signalEnqueue hpc

theorem inv_of_reachable {capacity : ℕ} {s : State T} (h : (machine T capacity).Reachable s) :
    Inv capacity s := by
  induction h using Machine.Reachable.induction with
  | init s hs => exact inv_start hs
  | next s l t _ hst ih => exact inv_step ih hst

/-! ## The channel -/

/-- The queue is a bounded FIFO channel: a call puts its item in when it writes, takes one
out when it reads, and is silent otherwise. -/
def refines (T : Type*) (capacity : ℕ) :
    Machine.Refinement (machine T capacity) (Fifo.machine T capacity) where
  abs s := s.q.queue_.items
  start s hs := by
    obtain rfl : s = { q := construct T capacity } := hs
    rfl
  step s l t hs hst := by
    have hinv := inv_of_reachable hs
    cases l with
    | call i m =>
      simp only [machine, State.call, Option.ite_none_left_eq_some, Option.some.injEq] at hst
      obtain ⟨-, rfl⟩ := hst
      exact .inl rfl
    | step i =>
      cases State.advances hst with
      | @write item hpc =>
        have hok := hinv.write_succeeds hpc
        have hroom : s.q.queue_.items.length < capacity := by
          by_contra hfull
          simp [MPMCQueue.writeIfNotFull, hinv.capacity_eq, hfull] at hok
        exact .inr ⟨.put item, by simp [Fifo.machine, hroom, State.doWrite, State.goto, hok]⟩
      | read hpc =>
        obtain ⟨item, items, hitems, hok⟩ := hinv.read_succeeds hpc
        exact .inr ⟨.get, by simp [Fifo.machine, hitems, State.doRead, State.goto, hok]⟩
      | _ => exact .inl rfl

/-! ## What the callers see -/

/-- Where a call of method `m` may stand, and with which item. -/
def Pc.Of (m : Method T) : Pc T → Prop
  | .idle => False
  | .enqueueWait nonblocking item => m.item = some item ∧ nonblocking = !m.blocking
  | .write item | .dequeueSignal item _ | .enqueued item => m.item = some item
  | .dequeueWait nonblocking => m.item = none ∧ nonblocking = !m.blocking
  | .read | .enqueueSignal _ | .dequeued _ => m.item = none
  | .refused => m.blocking = false

/-- Every call stands where its method can be. -/
def State.Called (s : State T) : Prop :=
  ∀ i, (s.methods i = none ∧ s.calls i = .idle) ∨ ∃ m, s.methods i = some m ∧ (s.calls i).Of m

section Called

variable {capacity : ℕ} {s t : State T} {i : ℕ}

theorem State.Called.of_calls (h : s.Called) {pc : Pc T} (hpc : s.calls i = pc)
    (hne : pc ≠ .idle) : ∃ m, s.methods i = some m ∧ pc.Of m := by
  rcases h i with ⟨-, hidle⟩ | ⟨m, hm, hof⟩
  · exact absurd (hpc.symm.trans hidle) hne
  · exact ⟨m, hm, hpc ▸ hof⟩

/-- What a call has put into the queue is its argument. -/
theorem State.Called.of_wrote (h : s.Called) {item : T} (hwrote : (s.calls i).wrote = some item) :
    ∃ m, s.methods i = some m ∧ m.item = some item := by
  cases hpc : s.calls i with
  | dequeueSignal item' ok | enqueued item' =>
    obtain ⟨m, hm, hof⟩ := h.of_calls hpc (by simp)
    obtain rfl : item' = item := by simpa [hpc] using hwrote
    exact ⟨m, hm, hof⟩
  | _ => simp [hpc] at hwrote

theorem State.Called.of_took (h : s.Called) {item : T} (htook : (s.calls i).took = some item) :
    ∃ m, s.methods i = some m ∧ m.item = none := by
  cases hpc : s.calls i with
  | enqueueSignal item' | dequeued item' =>
    obtain ⟨m, hm, hof⟩ := h.of_calls hpc (by simp)
    exact ⟨m, hm, hof⟩
  | _ => simp [hpc] at htook

/-- A step of call `i` that stays within its method. -/
theorem State.Called.move (h : s.Called) {pc pc' : Pc T} (hpc : s.calls i = pc)
    (hne : pc ≠ .idle) (hcalls : t.calls = Function.update s.calls i pc')
    (hmethods : t.methods = s.methods) (hstays : ∀ m : Method T, pc.Of m → pc'.Of m) :
    t.Called := by
  intro j
  rw [hmethods, hcalls]
  by_cases hj : j = i
  · subst hj
    obtain ⟨m, hm, hof⟩ := h.of_calls hpc hne
    rw [Function.update_self]
    exact .inr ⟨m, hm, hstays m hof⟩
  · rw [Function.update_of_ne hj]
    exact h j

theorem State.Called.advance (h : s.Called) (hst : s.advance i = some t) : t.Called := by
  cases State.advances hst with
  | takeEnqueueToken hpc _ => exact h.move hpc (by simp) rfl rfl fun m hof => hof.1
  | refuseEnqueue hpc _ =>
    exact h.move hpc (by simp) rfl rfl fun m hof => by simpa [Pc.Of] using hof.2
  | write hpc => exact h.move hpc (by simp) rfl rfl fun m hof => hof
  | signalDequeue hpc => exact h.move hpc (by simp) rfl rfl fun m hof => hof
  | takeDequeueToken hpc _ => exact h.move hpc (by simp) rfl rfl fun m hof => hof.1
  | refuseDequeue hpc _ =>
    exact h.move hpc (by simp) rfl rfl fun m hof => by simpa [Pc.Of] using hof.2
  | read hpc => exact h.move hpc (by simp) rfl rfl fun m hof => hof
  | signalEnqueue hpc => exact h.move hpc (by simp) rfl rfl fun m hof => hof

theorem Method.entry_of (m : Method T) : m.entry.Of m := by
  cases m <;> exact ⟨rfl, rfl⟩

theorem State.Called.call (h : s.Called) {m : Method T} (hst : s.call i m = some t) :
    t.Called := by
  simp only [State.call, Option.ite_none_left_eq_some, Option.some.injEq] at hst
  obtain ⟨-, rfl⟩ := hst
  intro j
  by_cases hj : j = i
  · subst hj
    exact .inr ⟨m, by simp, by simpa [State.goto] using m.entry_of⟩
  · simpa [State.goto, hj] using h j

theorem called_of_reachable (h : (machine T capacity).Reachable s) : s.Called := by
  induction h using Machine.Reachable.induction with
  | init s hs =>
    obtain rfl : s = { q := construct T capacity } := hs
    exact fun _ => .inl ⟨rfl, rfl⟩
  | next s l t _ hst ih =>
    cases l with
    | call i m => exact ih.call hst
    | step i => exact ih.advance hst

/-- A refused call only returns. -/
theorem advance_refused (hst : s.advance i = some t) (ht : t.calls i = .refused) :
    t = s.goto i .refused := by
  cases State.advances hst with
  | refuseEnqueue => rfl
  | refuseDequeue => rfl
  | _ => simp [State.doWrite, State.signalDequeue, State.doRead, State.signalEnqueue,
      State.goto] at ht

end Called

/-- No ignored result is a failure, the queue keeps its capacity, the items handed out are
the items written in the same order, each the argument of its one writer and handed to one
reader, and only a `try_` call is refused, which changes nothing. -/
theorem queue_exact {capacity : ℕ} {s : State T} (h : (machine T capacity).Reachable s) :
    (∀ i item, s.calls i = .write item → (s.q.queue_.writeIfNotFull item).1 = true) ∧
    (∀ i, s.calls i = .read → s.q.queue_.readIfNotEmpty.1.isSome) ∧
    s.q.queue_.items.length ≤ capacity ∧
    s.written.map Prod.snd = s.handed.map Prod.snd ++ s.q.queue_.items ∧
    (s.written.map Prod.fst).Nodup ∧ (s.handed.map Prod.fst).Nodup ∧
    (∀ i item, (i, item) ∈ s.written → ∃ m, s.methods i = some m ∧ m.item = some item) ∧
    (∀ i item, (i, item) ∈ s.handed → ∃ m, s.methods i = some m ∧ m.item = none) ∧
    (∀ i item, s.calls i = .enqueued item → (i, item) ∈ s.written) ∧
    (∀ i item, s.calls i = .dequeued item → ∃ x, item = some x ∧ (i, x) ∈ s.handed) ∧
    (∀ i, s.calls i = .refused → ∃ m, s.methods i = some m ∧ m.blocking = false) ∧
    ∀ i t, s.advance i = some t → t.calls i = .refused → t = s.goto i .refused := by
  have hinv := inv_of_reachable h
  have hcalled := called_of_reachable h
  refine ⟨fun i item hpc => ?_, fun i hpc => ?_, ?_, hinv.fifo, hinv.wrote.nodup,
    hinv.took.nodup, fun i item hmem => ?_, fun i item hmem => ?_, fun i item hpc => ?_,
    fun i item hpc => ?_, fun i hpc => ?_, fun i t hst ht => advance_refused hst ht⟩
  · rw [hinv.write_succeeds hpc]
  · obtain ⟨item, items, -, hok⟩ := hinv.read_succeeds hpc
    rw [hok]
    rfl
  · exact Fifo.length_le ((refines T capacity).reachable h)
  · exact hcalled.of_wrote ((hinv.wrote.mem_iff i item).mp hmem)
  · exact hcalled.of_took ((hinv.took.mem_iff i item).mp hmem)
  · exact (hinv.wrote.mem_iff i item).mpr (by rw [hpc]; rfl)
  · have hgood := hinv.good i
    rw [hpc] at hgood
    obtain ⟨x, rfl⟩ := Option.isSome_iff_exists.mp hgood
    exact ⟨x, rfl, (hinv.took.mem_iff i x).mpr (by rw [hpc]; rfl)⟩
  · exact hcalled.of_calls hpc (by simp)

/-- A queue for one item: a second `try_enqueue` is refused, and the item written is read. -/
def oneItem : List (Label ℕ) :=
  [.call 0 (.try_enqueue 7), .step 0, .call 1 (.try_enqueue 8), .step 1, .step 0, .step 0,
    .call 2 .dequeue, .step 2, .step 2]

theorem queue_exact_one : ∃ s, (machine ℕ 1).run { q := construct ℕ 1 } oneItem = some s ∧
    s.handed = [(2, 7)] ∧
    s.written.map Prod.snd = s.handed.map Prod.snd ++ s.q.queue_.items := by
  refine ⟨_, rfl, rfl, ?_⟩
  have hrun : (machine ℕ 1).run { q := construct ℕ 1 } oneItem = some _ := rfl
  exact (queue_exact (.of_run rfl hrun)).2.2.2.1

end BoundedQueue

end QStorage.Infra
