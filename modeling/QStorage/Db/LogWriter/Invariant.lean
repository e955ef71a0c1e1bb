import QStorage.Db.LogWriter

/-!
# What holds in every run of the log writer

`CommitWrite` always releases 0 bytes, since the bank was reset before. So `tail_` never moves,
and a request that the ring refuses once is refused for ever, with the lock held. The invariant
says this, and which writers belong to which group.

## Main results

* `LogWriter.Inv` — the invariant of all reachable states.
* `LogWriter.Inv.lock_cases`, `LogWriter.Inv.memoryResume_eq` — what `asyncMalloc` does.
* `LogWriter.Quiet` — the steps that only move a coroutine on.
-/

namespace QStorage.Db.LogWriter

open QStorage.Lib QStorage.Infra

/-! ## Kinds of places -/

/-- The writer has a region. -/
def Pc.holds : Pc → Bool
  | .idle | .lockWait | .memoryWait _ => false
  | _ => true

def Pc.isMemoryWait : Pc → Bool
  | .memoryWait _ => true
  | _ => false

/-- Inside `LeaderComplete`. -/
def Pc.leading : Pc → Bool
  | .leaderWait _ | .spin | .commit _ => true
  | _ => false

/-- Inside `FollowerComplete`. -/
def Pc.following : Pc → Bool
  | .followerWait _ => true
  | _ => false

section Wake

variable (c : Coro) (b : Signal)

@[simp] theorem Coro.wake_size : (c.wake b).size = c.size := rfl
@[simp] theorem Coro.wake_aw_index : (c.wake b).aw_index = c.aw_index := rfl
@[simp] theorem Coro.wake_task : (c.wake b).task = c.task := rfl
@[simp] theorem Coro.wake_leader : (c.wake b).leader = c.leader := rfl
@[simp] theorem Coro.wake_pos : (c.wake b).pos = c.pos := rfl
@[simp] theorem Coro.wake_stamp : (c.wake b).stamp = c.stamp := rfl
@[simp] theorem Coro.wake_wr : (c.wake b).wr = c.wr := rfl

/-- The place without the flag of its wait. -/
def Pc.place : Pc → Pc
  | .memoryWait _ => .memoryWait false
  | .leaderWait _ => .leaderWait false
  | .followerWait _ => .followerWait false
  | pc => pc

@[simp] theorem Coro.wake_place : (c.wake b).pc.place = c.pc.place := by
  unfold Coro.wake Pc.place
  grind

end Wake

theorem Pc.holds_place (pc : Pc) : pc.place.holds = pc.holds := by cases pc <;> rfl
theorem Pc.isMemoryWait_place (pc : Pc) : pc.place.isMemoryWait = pc.isMemoryWait := by
  cases pc <;> rfl
theorem Pc.leading_place (pc : Pc) : pc.place.leading = pc.leading := by cases pc <;> rfl
theorem Pc.following_place (pc : Pc) : pc.place.following = pc.following := by cases pc <;> rfl
theorem Pc.place_eq_returned {pc : Pc} : pc.place = .returned ↔ pc = .returned := by
  cases pc <;> simp [Pc.place]

/-! ## The invariant -/

/-- The positions of the region of writer `i` in the stream of granted bytes. -/
def State.region (s : State) (i : ℕ) : Span := ⟨(s.coros i).pos, (s.coros i).size.toNat⟩

/-- The bytes granted to the listed writers. -/
def State.bytes (s : State) (is : List ℕ) : ℕ := (is.map fun i => (s.coros i).size.toNat).sum

structure Inv (s : State) : Prop where
  active : s.w.active_writer_ = 0
  file_pos : s.w.file_pos_ = 0
  index : ∀ i, (s.coros i).aw_index = 0 ∧ (s.coros i).task.index_ = 0
  completion : ∀ b, (s.w.writers_ b).completion_ = false
  bank1 : (s.w.writers_ 1).count_ = 0 ∧ s.members 1 = []
  /-- Nothing was ever released. -/
  counts : s.w.buffer_.Counts 0 s.total
  fits : s.total ≤ kBufferSize
  nodup : s.granted.Nodup
  held : ∀ i, i ∈ s.granted ↔ (s.coros i).pc.holds = true
  /-- A refused writer keeps the lock. -/
  locked : ∀ i, (s.coros i).pc.isMemoryWait = true →
    s.w.lock_ = true ∧ kBufferSize < s.total + (s.coros i).size.toNat
  tiles : Tiles 0 (s.granted.map s.region) s.total
  addr : ∀ i ∈ s.granted,
    (s.coros i).task.addr_ = s.w.buffer_.buffer_ + (s.coros i).pos % kBufferSize
  split : s.granted = s.finished ++ s.members 0
  closed : ∀ i ∈ s.finished, (s.coros (s.coros i).leader).pc = .returned
  opened : ∀ i ∈ s.members 0, (s.members 0).head? = some (s.coros i).leader ∧
    (s.coros (s.coros i).leader).pc ≠ .returned
  leads : ∀ i ∈ s.granted, (s.coros i).task.is_leader_ = true ↔ (s.coros i).leader = i
  leading : ∀ i, (s.coros i).pc.leading = true → (s.coros i).task.is_leader_ = true
  following : ∀ i, (s.coros i).pc.following = true → (s.coros i).task.is_leader_ = false
  count_le : (s.members 0).length ≤ (s.w.writers_ 0).count_
  count_eq : s.w.lock_ = false → (s.w.writers_ 0).count_ = (s.members 0).length
  len : (s.w.writers_ 0).len = s.bytes (s.members 0)

theorem inv_initial (raw_space : ℕ) (fd : ℤ) (mem file : ℕ → BitVec 8) :
    Inv (initial raw_space fd mem file) := by
  constructor <;> simp [initial, init, State.total, State.bytes, Pc.holds, Pc.isMemoryWait,
    Pc.leading, Pc.following, SPSCRingBuffer.construct]
  exact ⟨rfl, rfl⟩

variable {host : Endian} {s t : State} {i : ℕ}

theorem total_eq_bytes : s.total = s.bytes s.granted := rfl

theorem bytes_append (xs ys : List ℕ) : s.bytes (xs ++ ys) = s.bytes xs + s.bytes ys := by
  simp [State.bytes]

/-- The bytes of writers whose sizes agree in two states. -/
theorem bytes_congr {is : List ℕ} (h : ∀ i ∈ is, (t.coros i).size = (s.coros i).size) :
    t.bytes is = s.bytes is := by
  unfold State.bytes
  rw [List.map_congr_left fun i hi => by rw [h i hi]]

/-! ## One writer moves -/

section Update

variable {c : Coro} (hcoros : t.coros = Function.update s.coros i c) {pc : Pc} {j : ℕ}
include hcoros

/-- Nobody comes to a place where writer `i` does not go. -/
theorem pc_of_update (hc : c.pc ≠ pc) (hj : (t.coros j).pc = pc) : (s.coros j).pc = pc := by
  rw [hcoros] at hj
  by_cases hji : j = i
  · subst hji
    rw [Function.update_self] at hj
    exact absurd hj hc
  · rwa [Function.update_of_ne hji] at hj

/-- Nobody leaves a place where writer `i` was not. -/
theorem pc_ne_of_update (hpc : (s.coros i).pc ≠ pc) (hj : (t.coros j).pc ≠ pc) :
    (s.coros j).pc ≠ pc := by
  by_cases hji : j = i
  · exact hji ▸ hpc
  · rwa [hcoros, Function.update_of_ne hji] at hj

end Update

/-! ## `asyncMalloc` -/

theorem Inv.awIndex (h : Inv s) : s.w.awIndex = 0 := by
  rw [LogWriter.awIndex, h.active]
  rfl

theorem Inv.requestWriteSpace (h : Inv s) (size : BitVec 64) :
    s.w.buffer_.RequestWriteSpace size =
      if s.total + size.toNat ≤ kBufferSize then
        some (s.w.buffer_.buffer_ + s.total % kBufferSize,
          { s.w.buffer_ with head_ := BitVec.ofNat 64 (s.total + size.toNat) })
      else none := by
  have hfits := h.fits
  have heq := SPSCRingBuffer.requestFrom_eq h.counts (Nat.zero_le _) (by omega) size
  rw [Nat.zero_add] at heq
  rw [SPSCRingBuffer.RequestWriteSpace, h.counts.tail]
  exact heq

/-- The state after writer `i` was granted its region. -/
def State.granting (s : State) (i : ℕ) : State :=
  let c := s.coros i
  let bank := s.w.writers_ 0
  let members := s.members 0 ++ [i]
  { s with
    w := { s.w with
      writers_ := Function.update s.w.writers_ 0
        { bank with count_ := bank.count_ + 1, len := bank.len + c.size.toNat }
      buffer_ := { s.w.buffer_ with head_ := BitVec.ofNat 64 (s.total + c.size.toNat) }
      lock_ := false }
    coros := Function.update s.coros i { c with
      pc := .granted
      task := {
        is_leader_ := bank.count_ == 0
        addr_ := s.w.buffer_.buffer_ + s.total % kBufferSize }
      leader := members.headD i
      pos := s.total }
    members := Function.update s.members 0 members
    granted := s.granted ++ [i] }

/-- The state after writer `i` was refused `n` times since it last ran. -/
def State.refusing (s : State) (i n : ℕ) (task : WriteTask) (memory_notify : Bool) : State :=
  let bank := s.w.writers_ 0
  { s with
    w := { s.w with
      writers_ := Function.update s.w.writers_ 0 { bank with count_ := bank.count_ + n }
      lock_ := true
      memory_notify_ := memory_notify }
    coros := Function.update s.coros i
      { s.coros i with pc := .memoryWait false, task := task, aw_index := 0 } }

/-- A writer without a region was not granted one. -/
theorem Inv.not_mem (h : Inv s) (hpc : (s.coros i).pc.holds = false) : i ∉ s.granted := by
  simp [h.held, hpc]

/-! ## Quiet steps -/

/-- What a step other than a grant or the end of a group does to a writer. -/
structure Coro.Moves (c c' : Coro) : Prop where
  index : c'.aw_index = 0 ∧ c'.task.index_ = 0
  holds : c'.pc.holds = c.pc.holds
  same : c.pc.holds = true →
    c'.size = c.size ∧ c'.task = c.task ∧ c'.leader = c.leader ∧ c'.pos = c.pos
  stays : c.pc = .returned → c'.pc = .returned
  opened : c.task.is_leader_ = true → c'.pc = .returned → c.pc = .returned
  leading : c'.pc.leading = true → c'.task.is_leader_ = true
  following : c'.pc.following = true → c'.task.is_leader_ = false

/-- A step that neither grants a region nor ends a group. -/
structure Quiet (s t : State) : Prop where
  active : t.w.active_writer_ = s.w.active_writer_
  file_pos : t.w.file_pos_ = s.w.file_pos_
  buffer : t.w.buffer_ = s.w.buffer_
  banks : ∀ b, (t.w.writers_ b).completion_ = (s.w.writers_ b).completion_ ∧
    (t.w.writers_ b).len = (s.w.writers_ b).len
  count : (t.w.writers_ 1).count_ = (s.w.writers_ 1).count_ ∧
    (s.w.writers_ 0).count_ ≤ (t.w.writers_ 0).count_
  unlocked : t.w.lock_ = false →
    s.w.lock_ = false ∧ (t.w.writers_ 0).count_ = (s.w.writers_ 0).count_
  members : t.members = s.members
  finished : t.finished = s.finished
  granted : t.granted = s.granted
  moves : ∀ j, (s.coros j).Moves (t.coros j)
  locked : ∀ j, (t.coros j).pc.isMemoryWait = true →
    t.w.lock_ = true ∧ kBufferSize < s.total + (t.coros j).size.toNat

/-- A quiet step that is no refusal. -/
structure Calm (s t : State) : Prop extends Quiet s t where
  count_eq : (t.w.writers_ 0).count_ = (s.w.writers_ 0).count_
  waits : ∀ j, (t.coros j).pc.isMemoryWait = true → (s.coros j).pc.isMemoryWait = true

theorem Inv.moves_refl (h : Inv s) (j : ℕ) : (s.coros j).Moves (s.coros j) :=
  ⟨h.index j, rfl, fun _ => ⟨rfl, rfl, rfl, rfl⟩, id, fun _ => id, h.leading j, h.following j⟩

theorem Inv.moves_update (h : Inv s) {c : Coro} (hmoves : (s.coros i).Moves c) (j : ℕ) :
    (s.coros j).Moves (Function.update s.coros i c j) := by
  by_cases hj : j = i
  · subst hj
    rwa [Function.update_self]
  · rw [Function.update_of_ne hj]
    exact h.moves_refl j

/-- The leader of an unfinished group is one of its members. -/
theorem Inv.leader_mem (h : Inv s) (hi : i ∈ s.members 0) : (s.coros i).leader ∈ s.members 0 :=
  List.mem_of_head? (h.opened i hi).1

theorem Inv.mem_granted (h : Inv s) (hi : i ∈ s.members 0) : i ∈ s.granted :=
  h.split ▸ List.mem_append_right _ hi

theorem Inv.finished_granted (h : Inv s) (hi : i ∈ s.finished) : i ∈ s.granted :=
  h.split ▸ List.mem_append_left _ hi

/-- A writer with a region is in a finished group or in the open one. -/
theorem Inv.granted_cases (h : Inv s) (hi : i ∈ s.granted) : i ∈ s.finished ∨ i ∈ s.members 0 :=
  List.mem_append.mp (h.split ▸ hi)

theorem Inv.members_nodup (h : Inv s) : (s.members 0).Nodup := by
  have hnd := h.nodup
  rw [h.split] at hnd
  exact hnd.of_append_right

theorem Inv.leader_leads (h : Inv s) (hi : i ∈ s.members 0) :
    (s.coros (s.coros i).leader).task.is_leader_ = true := by
  have hl := h.leader_mem hi
  rw [h.leads _ (h.mem_granted hl)]
  exact Option.some.inj ((h.opened _ hl).1.symm.trans (h.opened i hi).1)

section Quiet

variable (q : Quiet s t) (h : Inv s)
include q h

theorem Quiet.same (hi : i ∈ s.granted) : (t.coros i).size = (s.coros i).size ∧
    (t.coros i).task = (s.coros i).task ∧ (t.coros i).leader = (s.coros i).leader ∧
    (t.coros i).pos = (s.coros i).pos :=
  (q.moves i).same ((h.held i).mp hi)

theorem Quiet.total_eq : t.total = s.total := by
  rw [total_eq_bytes, total_eq_bytes, q.granted]
  exact bytes_congr fun i hi => (q.same h hi).1

theorem Quiet.inv : Inv t := by
  have htotal := q.total_eq h
  have hmem {i : ℕ} (hi : i ∈ s.members 0) : i ∈ s.granted := h.mem_granted hi
  constructor
  · exact q.active.trans h.active
  · exact q.file_pos.trans h.file_pos
  · exact fun i => (q.moves i).index
  · exact fun b => (q.banks b).1.trans (h.completion b)
  · exact ⟨q.count.1.trans h.bank1.1, q.members ▸ h.bank1.2⟩
  · rw [htotal, q.buffer]
    exact h.counts
  · exact htotal ▸ h.fits
  · exact q.granted ▸ h.nodup
  · intro i
    rw [q.granted, h.held, (q.moves i).holds]
  · intro i hi
    rw [htotal]
    exact q.locked i hi
  · rw [htotal, q.granted, List.map_congr_left (g := s.region)]
    · exact h.tiles
    · intro i hi
      obtain ⟨hsize, -, -, hpos⟩ := q.same h hi
      simp only [State.region, hsize, hpos]
  · intro i hi
    rw [q.granted] at hi
    obtain ⟨-, htask, -, hpos⟩ := q.same h hi
    rw [htask, hpos, q.buffer]
    exact h.addr i hi
  · rw [q.granted, q.finished, q.members]
    exact h.split
  · intro i hi
    rw [q.finished] at hi
    rw [(q.same h (h.finished_granted hi)).2.2.1]
    exact (q.moves _).stays (h.closed i hi)
  · intro i hi
    rw [q.members] at hi ⊢
    rw [(q.same h (hmem hi)).2.2.1]
    refine ⟨(h.opened i hi).1, fun hret => (h.opened i hi).2 ?_⟩
    exact (q.moves _).opened (h.leader_leads hi) hret
  · intro i hi
    rw [q.granted] at hi
    obtain ⟨-, htask, hleader, -⟩ := q.same h hi
    rw [htask, hleader]
    exact h.leads i hi
  · exact fun i => (q.moves i).leading
  · exact fun i => (q.moves i).following
  · rw [q.members]
    exact h.count_le.trans q.count.2
  · intro hlock
    obtain ⟨hlock, hcount⟩ := q.unlocked hlock
    rw [hcount, q.members]
    exact h.count_eq hlock
  · rw [(q.banks 0).2, q.members, h.len]
    exact (bytes_congr fun i hi => (q.same h (hmem hi)).1).symm

theorem Quiet.bytes_finished : t.bytes t.finished = s.bytes s.finished := by
  rw [q.finished]
  exact bytes_congr fun i hi => (q.same h (h.finished_granted hi)).1

end Quiet

/-- A refusal only raises `count_`. -/
theorem Inv.refusing_quiet (h : Inv s) {n : ℕ} {task : WriteTask} {notify : Bool}
    (hpc : (s.coros i).pc.holds = false) (htask : task.index_ = 0)
    (hfull : kBufferSize < s.total + (s.coros i).size.toNat) :
    Quiet s (s.refusing i n task notify) := by
  have hmoves : (s.coros i).Moves
      { s.coros i with pc := .memoryWait false, task := task, aw_index := 0 } := by
    refine ⟨⟨rfl, htask⟩, hpc.symm, ?_, ?_, ?_, ?_, ?_⟩ <;> intro hfalse
    · simp [hpc] at hfalse
    · simp [hfalse, Pc.holds] at hpc
    all_goals simp [Pc.leading, Pc.following] at hfalse ⊢
  refine ⟨rfl, rfl, rfl, fun b => ?_, ?_, ?_, rfl, rfl, rfl, h.moves_update hmoves, fun j hj => ?_⟩
  · by_cases hb : b = 0
    · subst hb
      simp [State.refusing]
    · simp [State.refusing, hb]
  · simp [State.refusing]
  · simp [State.refusing]
  · refine ⟨rfl, ?_⟩
    by_cases hji : j = i
    · subst hji
      simpa [State.refusing] using hfull
    · simp only [State.refusing, Function.update_of_ne hji] at hj ⊢
      exact (h.locked j hj).2

theorem Inv.l1_eq (h : Inv s) (hlock : s.w.lock_ = true) :
    s.l1 i = if s.total + (s.coros i).size.toNat ≤ kBufferSize then s.granting i
      else s.refusing i 1 { is_leader_ := (s.w.writers_ 0).count_ == 0 } s.w.memory_notify_ := by
  obtain ⟨haw, -⟩ := h.index i
  rw [State.l1, haw, h.requestWriteSpace]
  split_ifs with hroom
  · simp [State.allocated, State.grant, State.granting, State.setCoro, setBank, State.total, haw]
  · simp [State.allocated, State.refusing, State.setCoro, setBank, hlock, haw]

/-- A refused writer that retries is refused again. -/
theorem Inv.retry_eq (h : Inv s) {n : ℕ} {task : WriteTask} {notify : Bool}
    (hpc : (s.coros i).pc.holds = false) (htask : task.index_ = 0)
    (hfull : kBufferSize < s.total + (s.coros i).size.toNat) :
    ∃ task' : WriteTask, task'.index_ = 0 ∧
      ((s.refusing i n task notify).retry i).l1 i = s.refusing i (n + 1) task' false := by
  have hretry : (s.refusing i n task notify).retry i = s.refusing i n task false := by
    have haw : (s.refusing i n task notify).w.awIndex = 0 := h.awIndex
    rw [State.retry, haw]
    simp [State.refusing, State.setCoro]
  have q : Quiet s (s.refusing i n task false) := h.refusing_quiet hpc htask hfull
  have hinv := q.inv h
  have htotal := q.total_eq h
  refine ⟨{ is_leader_ := (s.w.writers_ 0).count_ + n == 0 }, rfl, ?_⟩
  rw [hretry, hinv.l1_eq rfl, if_neg]
  · simp [State.refusing, Nat.add_assoc]
  · rw [htotal]
    simp only [State.refusing, Function.update_self]
    omega

/-- A writer that takes the lock gets a region if the ring has room, else it waits with the
lock held. -/
theorem Inv.lock_cases (h : Inv s) (hpc : (s.coros i).pc = .lockWait) :
    (s.total + (s.coros i).size.toNat ≤ kBufferSize ∧ s.lock i = s.granting i) ∨
    (kBufferSize < s.total + (s.coros i).size.toNat ∧ ∃ n task, 0 < n ∧ task.index_ = 0 ∧
      s.lock i = s.refusing i n task false) := by
  have hheld : (s.coros i).pc.holds = false := by rw [hpc]; rfl
  have hlocked : Inv s.takeLock :=
    { h with
      locked := fun j hj => ⟨rfl, (h.locked j hj).2⟩
      count_eq := fun hfalse => nomatch hfalse }
  have hl1 : s.takeLock.l1 i =
      if s.total + (s.coros i).size.toNat ≤ kBufferSize then s.granting i
      else s.refusing i 1 { is_leader_ := (s.w.writers_ 0).count_ == 0 } s.w.memory_notify_ :=
    hlocked.l1_eq rfl
  by_cases hroom : s.total + (s.coros i).size.toNat ≤ kBufferSize
  · left
    rw [if_pos hroom] at hl1
    refine ⟨hroom, ?_⟩
    rw [State.lock, hl1, State.await, if_neg]
    simp [State.granting]
  · right
    have hfull : kBufferSize < s.total + (s.coros i).size.toNat := by omega
    rw [if_neg hroom] at hl1
    refine ⟨hfull, ?_⟩
    rw [State.lock, hl1]
    cases hnotify : s.w.memory_notify_ with
    | false =>
      exact ⟨1, { is_leader_ := (s.w.writers_ 0).count_ == 0 }, by simp, rfl,
        by simp [State.await, State.refusing]⟩
    | true =>
      obtain ⟨task, htask, heq⟩ : ∃ task : WriteTask, task.index_ = 0 ∧
          ((s.refusing i 1 { is_leader_ := (s.w.writers_ 0).count_ == 0 } true).retry i).l1 i =
            s.refusing i 2 task false := h.retry_eq hheld rfl hfull
      refine ⟨2, task, by simp, htask, ?_⟩
      rw [State.await, if_pos]
      · exact heq
      · simp [State.refusing]

theorem Inv.memoryResume_eq (h : Inv s) {released : Bool}
    (hpc : (s.coros i).pc = .memoryWait released) :
    ∃ task : WriteTask, task.index_ = 0 ∧ s.memoryResume i = s.refusing i 1 task false := by
  obtain ⟨hlock, hfull⟩ := h.locked i (by rw [hpc]; rfl)
  have hretry : s.retry i = { s with w := { s.w with memory_notify_ := false } } := by
    have hcoro : { s.coros i with aw_index := 0 } = s.coros i := by rw [← (h.index i).1]
    simp [State.retry, State.setCoro, h.awIndex, hcoro]
  have hinv : Inv { s with w := { s.w with memory_notify_ := false } } := { h with }
  refine ⟨{ is_leader_ := (s.w.writers_ 0).count_ == 0 }, rfl, ?_⟩
  rw [State.memoryResume, hretry, hinv.l1_eq hlock, if_neg]
  · rfl
  · have htotal : State.total { s with w := { s.w with memory_notify_ := false } } = s.total := rfl
    simp only [htotal]
    omega

/-! ## The other steps -/

/-- A step in which writer `i` moves and the object changes in batons or counters of copies. -/
theorem Inv.calm_move (h : Inv s) {c : Coro} (hmoves : (s.coros i).Moves c)
    (hwait : c.pc.isMemoryWait = false) (hcoros : t.coros = Function.update s.coros i c)
    (hactive : t.w.active_writer_ = s.w.active_writer_)
    (hfile_pos : t.w.file_pos_ = s.w.file_pos_) (hbuffer : t.w.buffer_ = s.w.buffer_)
    (hlock : t.w.lock_ = s.w.lock_)
    (hbanks : ∀ b, (t.w.writers_ b).completion_ = (s.w.writers_ b).completion_ ∧
      (t.w.writers_ b).count_ = (s.w.writers_ b).count_ ∧
      (t.w.writers_ b).len = (s.w.writers_ b).len)
    (hmembers : t.members = s.members) (hfinished : t.finished = s.finished)
    (hgranted : t.granted = s.granted) : Calm s t := by
  have hwaits (j : ℕ) (hj : (t.coros j).pc.isMemoryWait = true) : t.coros j = s.coros j := by
    rw [hcoros] at hj ⊢
    by_cases hji : j = i
    · subst hji
      simp [hwait] at hj
    · exact Function.update_of_ne hji _ _
  refine ⟨⟨hactive, hfile_pos, hbuffer, fun b => ⟨(hbanks b).1, (hbanks b).2.2⟩,
    ⟨(hbanks 1).2.1, (hbanks 0).2.1.ge⟩, fun hfree => ⟨hlock ▸ hfree, (hbanks 0).2.1⟩, hmembers,
    hfinished, hgranted, fun j => hcoros ▸ h.moves_update hmoves j, fun j hj => ?_⟩,
    (hbanks 0).2.1, fun j hj => hwaits j hj ▸ hj⟩
  have hsame := hwaits j hj
  rw [hsame] at hj ⊢
  rw [hlock]
  exact h.locked j hj

/-- A writer with a region goes on. -/
theorem Inv.moves_on (h : Inv s) {c : Coro} (hheld : (s.coros i).pc.holds = true)
    (hnot : (s.coros i).pc ≠ .returned)
    (hc : c = { s.coros i with pc := c.pc, stamp := c.stamp, wr := c.wr })
    (hheld' : c.pc.holds = true)
    (hopened : (s.coros i).task.is_leader_ = true → c.pc ≠ .returned)
    (hleading : c.pc.leading = true → (s.coros i).task.is_leader_ = true)
    (hfollowing : c.pc.following = true → (s.coros i).task.is_leader_ = false) :
    (s.coros i).Moves c := by
  have htask : c.task = (s.coros i).task := by rw [hc]
  refine ⟨?_, hheld'.trans hheld.symm, fun _ => ⟨by rw [hc], htask, by rw [hc], by rw [hc]⟩,
    fun hret => absurd hret hnot, fun hlead hret => absurd hret (hopened hlead), ?_, ?_⟩
  · rw [hc]
    exact h.index i
  · rw [htask]
    exact hleading
  · rw [htask]
    exact hfollowing

theorem Inv.call_calm (h : Inv s) {size : BitVec 64} (hpc : (s.coros i).pc = .idle) :
    Calm s (s.call i size) := by
  refine h.calm_move (c := { s.coros i with
    pc := .lockWait, size := size, aw_index := s.w.awIndex }) ?_ rfl rfl rfl rfl rfl rfl
    (fun _ => ⟨rfl, rfl, rfl⟩) rfl rfl rfl
  refine ⟨⟨h.awIndex, (h.index i).2⟩, ?_, ?_, ?_, ?_, ?_, ?_⟩ <;>
    simp [hpc, Pc.holds, Pc.leading, Pc.following]

theorem Inv.copy_calm (h : Inv s) {bytes : ℕ → BitVec 8} (hpc : (s.coros i).pc = .granted) :
    Calm s (s.copy i bytes) := by
  refine h.calm_move (c := { s.coros i with pc := .copied, stamp := s.writes.length })
    ?_ rfl rfl rfl rfl rfl rfl (fun _ => ⟨rfl, rfl, rfl⟩) rfl rfl rfl
  apply h.moves_on <;> simp [hpc, Pc.holds, Pc.leading, Pc.following]

theorem Inv.lead_calm (h : Inv s) {crc : BitVec 32} {len : BitVec 16}
    (hpc : (s.coros i).pc = .copied ∨ (s.coros i).pc = .leaderWait true)
    (hlead : (s.coros i).task.is_leader_ = true) : Calm s (s.lead i host crc len) := by
  refine h.calm_move (c := { s.coros i with pc := .spin })
    ?_ rfl rfl rfl rfl rfl rfl (fun _ => ⟨rfl, rfl, rfl⟩) rfl rfl rfl
  apply h.moves_on <;> rcases hpc with hpc | hpc <;>
    simp [hpc, hlead, Pc.holds, Pc.following]

theorem Inv.leaderWait_calm (h : Inv s) (hpc : (s.coros i).pc = .copied)
    (hlead : (s.coros i).task.is_leader_ = true) : Calm s (s.goto i (.leaderWait false)) := by
  refine h.calm_move (c := { s.coros i with pc := .leaderWait false })
    ?_ rfl rfl rfl rfl rfl rfl (fun _ => ⟨rfl, rfl, rfl⟩) rfl rfl rfl
  apply h.moves_on <;> simp [hpc, hlead, Pc.holds, Pc.following]

theorem Inv.leave_calm (h : Inv s) (hpc : (s.coros i).pc = .spin) : Calm s (s.leave i) := by
  have hlead := h.leading i (by rw [hpc]; rfl)
  refine h.calm_move (c := { s.coros i with pc := .commit false, wr := s.writes.length })
    ?_ rfl rfl rfl rfl rfl rfl (fun _ => ⟨rfl, rfl, rfl⟩) rfl rfl rfl
  apply h.moves_on <;> simp [hpc, hlead, Pc.holds, Pc.following]

theorem Inv.ioComplete_calm (h : Inv s) {write : Write} {res : ℤ}
    (hpc : (s.coros i).pc = .commit false) : Calm s (s.ioComplete i write res) := by
  have hlead := h.leading i (by rw [hpc]; rfl)
  refine h.calm_move (c := { s.coros i with pc := .commit true })
    ?_ rfl rfl rfl rfl rfl rfl (fun _ => ⟨rfl, rfl, rfl⟩) rfl rfl rfl
  apply h.moves_on <;> simp [hpc, hlead, Pc.holds, Pc.following]

/-- No `completion_` is signalled between two steps, so that a follower always waits. -/
theorem Inv.followerComplete_eq (h : Inv s) : s.followerComplete i =
    { s.goto i (.followerWait false) with
      w := s.w.setBank 0 { s.w.writers_ 0 with
        completed_copy_ := (s.w.writers_ 0).completed_copy_ + 1 } } := by
  simp [State.followerComplete, State.bank, (h.index i).2, h.completion 0]

theorem Inv.followerComplete_calm (h : Inv s) (hpc : (s.coros i).pc = .copied)
    (hfollow : (s.coros i).task.is_leader_ = false) : Calm s (s.followerComplete i) := by
  rw [h.followerComplete_eq]
  refine h.calm_move (c := { s.coros i with pc := .followerWait false })
    ?_ rfl rfl rfl rfl rfl rfl (fun b => ?_) rfl rfl rfl
  · apply h.moves_on <;> simp [hpc, hfollow, Pc.holds, Pc.leading]
  · by_cases hb : b = 0
    · subst hb
      simp [setBank]
    · simp [setBank, hb]

theorem Inv.followerResume_calm (h : Inv s) (hpc : (s.coros i).pc = .followerWait true) :
    Calm s (s.goto i .returned) := by
  have hfollow := h.following i (by rw [hpc]; rfl)
  refine h.calm_move (c := { s.coros i with pc := .returned })
    ?_ rfl rfl rfl rfl rfl rfl (fun _ => ⟨rfl, rfl, rfl⟩) rfl rfl rfl
  apply h.moves_on <;> simp [hpc, hfollow, Pc.holds, Pc.leading, Pc.following]

/-! ## A grant -/

section Granting

variable (h : Inv s) (hpc : (s.coros i).pc = .lockWait)
include h hpc

theorem Inv.granting_coros {j : ℕ} (hj : j ∈ s.granted) :
    (s.granting i).coros j = s.coros j :=
  Function.update_of_ne (ne_of_mem_of_not_mem hj (h.not_mem (by rw [hpc]; rfl))) _ _

theorem Inv.granting_bytes {is : List ℕ} (his : ∀ j ∈ is, j ∈ s.granted) :
    (s.granting i).bytes is = s.bytes is :=
  bytes_congr fun j hj => by rw [h.granting_coros hpc (his j hj)]

theorem Inv.granting_total : (s.granting i).total = s.total + (s.coros i).size.toNat := by
  have hgranted : (s.granting i).granted = s.granted ++ [i] := rfl
  rw [total_eq_bytes, hgranted, bytes_append, h.granting_bytes hpc fun _ hj => hj]
  simp [State.bytes, State.granting, total_eq_bytes]

theorem Inv.granting (hlock : s.w.lock_ = false)
    (hroom : s.total + (s.coros i).size.toNat ≤ kBufferSize) : Inv (s.granting i) := by
  have hi := h.not_mem (i := i) (by rw [hpc]; rfl)
  have hold {j : ℕ} (hj : j ∈ s.granted) := h.granting_coros hpc hj
  have hnew : (s.granting i).coros i = { s.coros i with
      pc := .granted
      task := {
        is_leader_ := (s.w.writers_ 0).count_ == 0
        addr_ := s.w.buffer_.buffer_ + s.total % kBufferSize }
      leader := (s.members 0 ++ [i]).headD i
      pos := s.total } := Function.update_self _ _ _
  have hne {j : ℕ} (hj : j ≠ i) : (s.granting i).coros j = s.coros j :=
    Function.update_of_ne hj _ _
  have htotal := h.granting_total hpc
  have hgranted : (s.granting i).granted = s.granted ++ [i] := rfl
  have hmembers : (s.granting i).members 0 = s.members 0 ++ [i] := by simp [State.granting]
  have hcount := h.count_eq hlock
  -- the first member leads; `i` does exactly if the group is new
  have hfirst : ((s.members 0 ++ [i]).headD i = i ↔ s.members 0 = []) ∧
      (s.members 0 ++ [i]).head? = some ((s.members 0 ++ [i]).headD i) := by
    cases hm : s.members 0 with
    | nil => simp
    | cons l rest =>
      have hl : l ≠ i := ne_of_mem_of_not_mem (h.mem_granted (by simp [hm])) hi
      simp [hl]
  constructor
  · exact h.active
  · exact h.file_pos
  · intro j
    by_cases hj : j = i
    · subst hj
      rw [hnew]
      exact ⟨(h.index j).1, rfl⟩
    · rw [hne hj]
      exact h.index j
  · intro b
    by_cases hb : b = 0
    · subst hb
      simp [State.granting, h.completion]
    · simp [State.granting, hb, h.completion]
  · exact h.bank1
  · rw [htotal]
    exact ⟨h.counts.tail, rfl⟩
  · rwa [htotal]
  · rw [hgranted]
    exact List.nodup_append.mpr ⟨h.nodup, by simp, by grind⟩
  · intro j
    by_cases hj : j = i
    · subst hj
      simp [hgranted, hnew, Pc.holds]
    · simp [hgranted, hj, hne hj, h.held]
  · intro j hj
    by_cases hji : j = i
    · subst hji
      simp [hnew, Pc.isMemoryWait] at hj
    · rw [hne hji] at hj
      simp [(h.locked j hj).1] at hlock
  · rw [hgranted, htotal, List.map_append]
    have hregions : s.granted.map (s.granting i).region = s.granted.map s.region :=
      List.map_congr_left fun j hj => by simp only [State.region, hold hj]
    have hregion : (s.granting i).region i = ⟨s.total, (s.coros i).size.toNat⟩ := by
      simp only [State.region, hnew]
    simpa [hregions, hregion] using h.tiles.snoc (s.coros i).size.toNat
  · intro j hj
    rcases List.mem_append.mp (hgranted ▸ hj) with hj | hj
    · rw [hold hj]
      exact h.addr j hj
    · obtain rfl : j = i := by simpa using hj
      rw [hnew]
      rfl
  · rw [hgranted, hmembers, h.split, List.append_assoc]
    rfl
  · intro j hj
    have hmem := h.finished_granted hj
    rw [hold hmem]
    have hret := h.closed j hj
    rw [hne fun hl => ?_]
    · exact hret
    · rw [hl, hpc] at hret
      cases hret
  · intro j hj
    rw [hmembers] at hj ⊢
    rcases List.mem_append.mp hj with hj | hj
    · have hl := h.leader_mem hj
      rw [hold (h.mem_granted hj), hold (h.mem_granted hl)]
      refine ⟨?_, (h.opened j hj).2⟩
      rw [List.head?_append, (h.opened j hj).1]
      rfl
    · obtain rfl : j = i := by simpa using hj
      rw [hnew]
      refine ⟨hfirst.2, ?_⟩
      cases hm : s.members 0 with
      | nil => simp [hnew]
      | cons l rest =>
        have hl : l ∈ s.members 0 := by simp [hm]
        obtain ⟨hhead, hopen⟩ := h.opened l hl
        have hself : (s.coros l).leader = l := by simpa [hm, eq_comm] using hhead
        rw [hself] at hopen
        simpa [hold (h.mem_granted hl)] using hopen
  · intro j hj
    rcases List.mem_append.mp (hgranted ▸ hj) with hj | hj
    · rw [hold hj]
      exact h.leads j hj
    · obtain rfl : j = i := by simpa using hj
      rw [hnew, beq_iff_eq, hcount, List.length_eq_zero_iff]
      exact hfirst.1.symm
  · intro j hj
    by_cases hji : j = i
    · subst hji
      simp [hnew, Pc.leading] at hj
    · rw [hne hji] at hj ⊢
      exact h.leading j hj
  · intro j hj
    by_cases hji : j = i
    · subst hji
      simp [hnew, Pc.following] at hj
    · rw [hne hji] at hj ⊢
      exact h.following j hj
  · simp [State.granting, hcount]
  · simp [State.granting, hcount]
  · rw [hmembers, bytes_append, h.granting_bytes hpc fun j hj => h.mem_granted hj]
    simp [State.granting, State.bytes, h.len]

end Granting

/-! ## The end of a group -/

/-- Writer `i` returns and the posts release the others. -/
def State.finishCoro (s : State) (i j : ℕ) : Coro :=
  let c := s.coros j
  (((if j = i then { c with pc := .returned } else c).wake (.completion 0)).wake
    .notifyLeader).wake .memoryNotify

section FinishCoro

variable (s : State) (i j : ℕ)

@[simp] theorem State.finishCoro_size : (s.finishCoro i j).size = (s.coros j).size := by
  unfold State.finishCoro; split_ifs <;> rfl
@[simp] theorem State.finishCoro_aw_index :
    (s.finishCoro i j).aw_index = (s.coros j).aw_index := by
  unfold State.finishCoro; split_ifs <;> rfl
@[simp] theorem State.finishCoro_task : (s.finishCoro i j).task = (s.coros j).task := by
  unfold State.finishCoro; split_ifs <;> rfl
@[simp] theorem State.finishCoro_leader : (s.finishCoro i j).leader = (s.coros j).leader := by
  unfold State.finishCoro; split_ifs <;> rfl
@[simp] theorem State.finishCoro_pos : (s.finishCoro i j).pos = (s.coros j).pos := by
  unfold State.finishCoro; split_ifs <;> rfl
@[simp] theorem State.finishCoro_stamp : (s.finishCoro i j).stamp = (s.coros j).stamp := by
  unfold State.finishCoro; split_ifs <;> rfl
@[simp] theorem State.finishCoro_wr : (s.finishCoro i j).wr = (s.coros j).wr := by
  unfold State.finishCoro; split_ifs <;> rfl

@[simp] theorem State.finishCoro_self : (s.finishCoro i i).pc = .returned := by
  simp [State.finishCoro, Coro.wake]

variable {i j}

/-- The other writers stay where they are. -/
theorem State.finishCoro_place (hj : j ≠ i) :
    (s.finishCoro i j).pc.place = (s.coros j).pc.place := by
  simp [State.finishCoro, hj]

theorem State.finishCoro_returned (hret : (s.coros j).pc = .returned) :
    (s.finishCoro i j).pc = .returned := by
  by_cases hj : j = i
  · subst hj
    exact s.finishCoro_self j
  · rw [← Pc.place_eq_returned, s.finishCoro_place hj, Pc.place_eq_returned, hret]

end FinishCoro

section Finish

variable (h : Inv s)
include h

/-- A leader that has not returned leads the members. -/
theorem Inv.head_eq (hi : i ∈ s.granted) (hlead : (s.coros i).task.is_leader_ = true)
    (hopen : (s.coros i).pc ≠ .returned) :
    i ∈ s.members 0 ∧ ∀ j ∈ s.members 0, (s.coros j).leader = i := by
  have hself := (h.leads i hi).mp hlead
  have hmem : i ∈ s.members 0 := by
    rcases h.granted_cases hi with hold | hnew
    · have hret := h.closed i hold
      rw [hself] at hret
      exact absurd hret hopen
    · exact hnew
  refine ⟨hmem, fun j hj => ?_⟩
  have heq := (h.opened j hj).1.symm.trans (h.opened i hmem).1
  rw [hself] at heq
  exact Option.some.inj heq

/-- The bank is empty when its length is released. -/
theorem Inv.finish_eq : s.finish i = { s with
    w := { s.w with
      writers_ := Function.update s.w.writers_ 0 {}
      buffer_ := s.w.buffer_.CommitWrite 0
      memory_notify_ := true
      notify_leader_ := true }
    coros := s.finishCoro i
    members := Function.update s.members 0 []
    finished := s.finished ++ s.members 0 } := by
  have hindex := (h.index i).2
  have hcoros : (s.finish i).coros = s.finishCoro i := by
    funext j
    by_cases hj : j = i
    · subst hj
      simp [State.finish, State.post, State.release, State.goto, State.setCoro, State.finishCoro,
        hindex]
    · simp [State.finish, State.post, State.release, State.goto, State.setCoro, State.finishCoro,
        hindex, hj]
  rw [← hcoros, State.finish, hindex]
  simp [State.post, State.release, State.goto, State.setCoro, signal, setBank, Writers.Reset]

/-- The members are the leader inside `LeaderComplete` and those behind it. -/
theorem Inv.members_cons (hpc : (s.coros i).pc.leading = true) :
    ∃ rest, s.members 0 = i :: rest := by
  have hheld : (s.coros i).pc.holds = true ∧ (s.coros i).pc ≠ .returned := by
    cases hp : (s.coros i).pc <;> simp [hp, Pc.leading, Pc.holds] at hpc ⊢
  obtain ⟨hmem, hleader⟩ := h.head_eq ((h.held i).mpr hheld.1) (h.leading i hpc) hheld.2
  have hhead := (h.opened i hmem).1
  rw [hleader i hmem] at hhead
  exact ⟨(s.members 0).tail, List.eq_cons_of_mem_head? hhead⟩

/-- The leader of a granted writer was granted a region itself. -/
theorem Inv.leader_granted (hi : i ∈ s.granted) : (s.coros i).leader ∈ s.granted := by
  rcases h.granted_cases hi with hold | hnew
  · rw [h.held, h.closed i hold]
    rfl
  · exact h.mem_granted (h.leader_mem hnew)

/-- A writer whose leader has not returned is a member. -/
theorem Inv.mem_of_open (hi : i ∈ s.granted)
    (hopen : (s.coros (s.coros i).leader).pc ≠ .returned) : i ∈ s.members 0 := by
  rcases h.granted_cases hi with hold | hnew
  · exact absurd (h.closed i hold) hopen
  · exact hnew

theorem Inv.finish_total : (s.finish i).total = s.total := by
  rw [total_eq_bytes, bytes_congr (s := s) fun j _ => by rw [h.finish_eq]; simp, h.finish_eq]
  rfl

theorem Inv.finish (hpc : (s.coros i).pc = .commit true) : Inv (s.finish i) := by
  have hgranted : i ∈ s.granted := by simp [h.held, hpc, Pc.holds]
  have hlead := h.leading i (by rw [hpc]; rfl)
  obtain ⟨hmem, hleader⟩ := h.head_eq hgranted hlead (by simp [hpc])
  have htotal := h.finish_total (i := i)
  rw [h.finish_eq] at htotal ⊢
  have hplace {j : ℕ} (hj : j ≠ i) := s.finishCoro_place hj
  constructor
  · exact h.active
  · exact h.file_pos
  · simpa using h.index
  · intro b
    by_cases hb : b = 0
    · subst hb
      simp
    · simp [hb, h.completion]
  · simpa using h.bank1
  · rw [htotal]
    simpa using h.counts.commit 0
  · rw [htotal]
    exact h.fits
  · exact h.nodup
  · intro j
    by_cases hj : j = i
    · subst hj
      simp [hgranted, Pc.holds]
    · rw [← Pc.holds_place, hplace hj, Pc.holds_place]
      exact h.held j
  · intro j hj
    rw [htotal]
    by_cases hji : j = i
    · subst hji
      simp [Pc.isMemoryWait] at hj
    · rw [← Pc.isMemoryWait_place, hplace hji, Pc.isMemoryWait_place] at hj
      simpa using h.locked j hj
  · rw [htotal, List.map_congr_left (g := s.region) fun j _ => by simp [State.region]]
    exact h.tiles
  · simpa [SPSCRingBuffer.CommitWrite] using h.addr
  · simp [h.split]
  · intro j hj
    rcases List.mem_append.mp hj with hj | hj
    · simpa using s.finishCoro_returned (h.closed j hj)
    · simp [hleader j hj]
  · simp
  · simpa using h.leads
  · intro j hj
    by_cases hji : j = i
    · subst hji
      simp [Pc.leading] at hj
    · rw [← Pc.leading_place, hplace hji, Pc.leading_place] at hj
      simpa using h.leading j hj
  · intro j hj
    by_cases hji : j = i
    · subst hji
      simp [Pc.following] at hj
    · rw [← Pc.following_place, hplace hji, Pc.following_place] at hj
      simpa using h.following j hj
  · simp
  · simp
  · simp [State.bytes]

theorem Inv.bytes_finished_finish :
    (s.finish i).bytes (s.finish i).finished = s.bytes s.finished + (s.w.writers_ 0).len := by
  rw [h.len, ← bytes_append, h.finish_eq]
  exact bytes_congr fun j _ => s.finishCoro_size i j

/-- The ring holds the finished groups and the members. -/
theorem Inv.total_eq : s.total = s.bytes s.finished + (s.w.writers_ 0).len := by
  rw [total_eq_bytes, h.split, bytes_append, h.len]

end Finish

/-! ## The stretch of a group -/

/-- The regions of the members follow each other from the leader's on to the head. -/
theorem Inv.members_tile (h : Inv s) {rest : List ℕ} (hm : s.members 0 = i :: rest) :
    Tiles (s.coros i).pos ((s.members 0).map s.region) s.total ∧
      (s.coros i).pos + (s.w.writers_ 0).len = s.total := by
  have htiles := h.tiles
  rw [h.split, List.map_append, tiles_append] at htiles
  obtain ⟨b, -, hmembers⟩ := htiles
  have hstart : (s.coros i).pos = b := by
    rw [hm] at hmembers
    exact hmembers.1
  subst hstart
  refine ⟨hmembers, ?_⟩
  have hsum := hmembers.sum
  rwa [List.map_map, show (Span.len ∘ s.region) = fun j => (s.coros j).size.toNat from rfl,
    ← State.bytes, ← h.len] at hsum

/-- There is one leader inside `LeaderComplete` at a time. -/
theorem Inv.leading_eq (h : Inv s) {j : ℕ} (hi : (s.coros i).pc.leading = true)
    (hj : (s.coros j).pc.leading = true) : j = i := by
  obtain ⟨_, hmi⟩ := h.members_cons hi
  obtain ⟨_, hmj⟩ := h.members_cons hj
  exact (List.cons.inj (hmj.symm.trans hmi)).1

/-! ## All runs -/

/-- The steps that a state with the invariant can take, with what each finds. -/
inductive Steps (host : Endian) (s : State) : Label → State → Prop
  | call {i : ℕ} {size : BitVec 64} : (s.coros i).pc = .idle →
      Steps host s (.call i size) (s.call i size)
  | grant {i : ℕ} : (s.coros i).pc = .lockWait → s.w.lock_ = false →
      s.total + (s.coros i).size.toNat ≤ kBufferSize →
      Steps host s (.lock i) (s.granting i)
  | refuse {i n : ℕ} {task : WriteTask} {l : Label} :
      (l = .lock i ∧ (s.coros i).pc = .lockWait) ∨
        (l = .memoryResume i ∧ (s.coros i).pc = .memoryWait true) →
      0 < n → task.index_ = 0 → kBufferSize < s.total + (s.coros i).size.toNat →
      Steps host s l (s.refusing i n task false)
  | copy {i : ℕ} {bytes : ℕ → BitVec 8} : (s.coros i).pc = .granted →
      Steps host s (.copy i bytes) (s.copy i bytes)
  | leaderWait {i : ℕ} {crc : BitVec 32} {len : BitVec 16} : (s.coros i).pc = .copied →
      (s.coros i).task.is_leader_ = true →
      Steps host s (.leaderComplete i crc len) (s.goto i (.leaderWait false))
  | lead {i : ℕ} {crc : BitVec 32} {len : BitVec 16} {l : Label} :
      (l = .leaderComplete i crc len ∧ (s.coros i).pc = .copied) ∨
        (l = .leaderResume i crc len ∧ (s.coros i).pc = .leaderWait true) →
      (s.coros i).task.is_leader_ = true → Steps host s l (s.lead i host crc len)
  | leave {i : ℕ} : (s.coros i).pc = .spin →
      (s.w.writers_ 0).completed_copy_ + 1 = (s.w.writers_ 0).count_ →
      Steps host s (.leave i) (s.leave i)
  | ioComplete {i : ℕ} {write : Write} {res : ℤ} : (s.coros i).pc = .commit false →
      s.writes[(s.coros i).wr]? = some write → s.CanTransfer write.req res →
      Steps host s (.ioComplete i res) (s.ioComplete i write res)
  | finish {i : ℕ} : (s.coros i).pc = .commit true → Steps host s (.leaderFinish i) (s.finish i)
  | followerComplete {i : ℕ} : (s.coros i).pc = .copied →
      (s.coros i).task.is_leader_ = false →
      Steps host s (.followerComplete i) (s.followerComplete i)
  | followerResume {i : ℕ} : (s.coros i).pc = .followerWait true →
      Steps host s (.followerResume i) (s.goto i .returned)

theorem Inv.bank_eq (h : Inv s) (i : ℕ) : s.bank i = s.w.writers_ 0 := by
  rw [State.bank, (h.index i).2]

theorem Inv.steps (h : Inv s) {l : Label} (hst : (machine host).step s l = some t) :
    Steps host s l t := by
  cases l with
  | call i size =>
    simp only [machine, step, Option.ite_none_right_eq_some, Option.some.injEq] at hst
    obtain ⟨hpc, rfl⟩ := hst
    exact .call hpc
  | lock i =>
    simp only [machine, step, Option.ite_none_right_eq_some, Option.some.injEq] at hst
    obtain ⟨⟨hpc, hlock⟩, rfl⟩ := hst
    rcases h.lock_cases hpc with ⟨hroom, heq⟩ | ⟨hfull, n, task, hn, htask, heq⟩
    · rw [heq]
      exact .grant hpc hlock hroom
    · rw [heq]
      exact .refuse (.inl ⟨rfl, hpc⟩) hn htask hfull
  | memoryResume i =>
    simp only [machine, step, Option.ite_none_right_eq_some, Option.some.injEq] at hst
    obtain ⟨hpc, rfl⟩ := hst
    obtain ⟨task, htask, heq⟩ := h.memoryResume_eq hpc
    rw [heq]
    exact .refuse (.inr ⟨rfl, hpc⟩) (by simp) htask (h.locked i (by rw [hpc]; rfl)).2
  | copy i bytes =>
    simp only [machine, step, Option.ite_none_right_eq_some, Option.some.injEq] at hst
    obtain ⟨hpc, rfl⟩ := hst
    exact .copy hpc
  | leaderComplete i crc len =>
    simp only [machine, step, Option.ite_none_right_eq_some, Option.some.injEq] at hst
    obtain ⟨⟨hpc, hlead⟩, rfl⟩ := hst
    unfold State.leaderComplete
    split_ifs
    · exact .lead (.inl ⟨rfl, hpc⟩) hlead
    · exact .leaderWait hpc hlead
  | leaderResume i crc len =>
    simp only [machine, step, Option.ite_none_right_eq_some, Option.some.injEq] at hst
    obtain ⟨hpc, rfl⟩ := hst
    exact .lead (.inr ⟨rfl, hpc⟩) (h.leading i (by rw [hpc]; rfl))
  | leave i =>
    obtain ⟨⟨hpc, hdone⟩, rfl⟩ := step_leave hst
    rw [h.bank_eq] at hdone
    exact .leave hpc hdone
  | ioComplete i res =>
    obtain ⟨write, hwrite, ⟨hpc, hcan⟩, rfl⟩ := step_ioComplete hst
    exact .ioComplete hpc hwrite hcan
  | leaderFinish i =>
    obtain ⟨hpc, rfl⟩ := step_leaderFinish hst
    exact .finish hpc
  | followerComplete i =>
    obtain ⟨⟨hpc, hfollow⟩, rfl⟩ := step_followerComplete hst
    exact .followerComplete hpc hfollow
  | followerResume i =>
    simp only [machine, step, Option.ite_none_right_eq_some, Option.some.injEq] at hst
    obtain ⟨hpc, rfl⟩ := hst
    exact .followerResume hpc

/-- What the steps do to the groups and the ring. -/
inductive Effect (s : State) : Label → State → Prop
  | calm {l : Label} {t : State} : Calm s t → Effect s l t
  | refuse {i n : ℕ} {task : WriteTask} {l : Label} : l = .lock i ∨ l = .memoryResume i →
      (s.coros i).pc.holds = false → 0 < n → task.index_ = 0 →
      kBufferSize < s.total + (s.coros i).size.toNat → Effect s l (s.refusing i n task false)
  | grant {i : ℕ} : (s.coros i).pc = .lockWait → s.w.lock_ = false →
      s.total + (s.coros i).size.toNat ≤ kBufferSize → Effect s (.lock i) (s.granting i)
  | finish {i : ℕ} : (s.coros i).pc = .commit true → Effect s (.leaderFinish i) (s.finish i)

theorem Inv.effect (h : Inv s) {l : Label} (hst : Steps host s l t) : Effect s l t := by
  cases hst with
  | call hpc => exact .calm (h.call_calm hpc)
  | grant hpc hlock hroom => exact .grant hpc hlock hroom
  | refuse hpc hn htask hfull =>
    refine .refuse (hpc.imp And.left And.left) ?_ hn htask hfull
    rcases hpc with ⟨-, hpc⟩ | ⟨-, hpc⟩ <;> rw [hpc] <;> rfl
  | copy hpc => exact .calm (h.copy_calm hpc)
  | leaderWait hpc hlead => exact .calm (h.leaderWait_calm hpc hlead)
  | lead hpc hlead => exact .calm (h.lead_calm (hpc.imp And.right And.right) hlead)
  | leave hpc _ => exact .calm (h.leave_calm hpc)
  | ioComplete hpc _ _ => exact .calm (h.ioComplete_calm hpc)
  | finish hpc => exact .finish hpc
  | followerComplete hpc hfollow => exact .calm (h.followerComplete_calm hpc hfollow)
  | followerResume hpc => exact .calm (h.followerResume_calm hpc)

theorem inv_step {l : Label} (h : Inv s) (hst : (machine host).step s l = some t) : Inv t := by
  cases h.effect (h.steps hst) with
  | calm q => exact q.toQuiet.inv h
  | refuse _ hpc _ htask hfull => exact (h.refusing_quiet hpc htask hfull).inv h
  | grant hpc hlock hroom => exact h.granting hpc hlock hroom
  | finish hpc => exact h.finish hpc

theorem inv_start (hs : (machine host).start s) : Inv s := by
  obtain ⟨raw_space, fd, mem, file, -, rfl⟩ := hs
  exact inv_initial raw_space fd mem file

theorem inv_of_reachable (h : (machine host).Reachable s) : Inv s := by
  induction h using Machine.Reachable.induction with
  | init s hs => exact inv_start hs
  | next s l t _ hst ih => exact inv_step ih hst

end QStorage.Db.LogWriter
