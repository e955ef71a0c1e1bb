import QStorage.Db.SPSCRingBuffer
import QStorage.Infra.IoUring
import QStorage.Infra.Serialize

/-!
# The group-commit log writer (`db/log_writer.h`)

Each writer coroutine calls `asyncMalloc`, copies its bytes into the region it got, and calls
`LeaderComplete` or `FollowerComplete`. A coroutine runs without interruption from one
`co_await` to the next, and at the leader's spin; one label of the machine is one such stretch.

The source redeclares the parameter `len` in `LeaderComplete`; here the parameter goes into the
header and the local is `writer.len + 6`. The request that `commit` builds is taken as issued;
what becomes of it is the subject of `LogWriter.Commit`.

## Main definitions

* `LogWriter` — the members of the class.
* `LogWriter.State` — the object, the writers, the bytes of the ring, the file and the writes.
* `LogWriter.machine` — the interleavings.
-/

namespace QStorage.Db

open QStorage.Lib QStorage.Infra

/-- There are two banks of writers, numbered by `Fin 2`. -/
instance neZero_two : NeZero 2 := ⟨by decide⟩

structure WriteTask where
  index_ : Fin 2 := 0
  is_leader_ : Bool := false
  addr_ : ℕ := 0
  deriving DecidableEq, Repr

/-- A baton is the flag whether it is signalled; its waiters are found in the coroutines. -/
structure Writers where
  completion_ : Bool := false
  count_ : ℕ := 0
  len : ℕ := 0
  completed_copy_ : ℕ := 0
  deriving DecidableEq, Repr

def Writers.Reset (w : Writers) : Writers :=
  { w with completion_ := false, count_ := 0, len := 0, completed_copy_ := 0 }

structure LogWriter where
  writers_ : Fin 2 → Writers := fun _ => {}
  active_writer_ : ℕ := 0
  file_pos_ : ℕ := 0
  fd_ : ℤ := 0
  buffer_ : SPSCRingBuffer
  lock_ : Bool := false
  memory_notify_ : Bool := false
  notify_leader_ : Bool := false

namespace LogWriter

/-- The end of `init`, with the file open: the first leader must not block. -/
def init (w : LogWriter) (fd : ℤ) : LogWriter := { w with fd_ := fd, notify_leader_ := true }

/-- The bank that `asyncMalloc` uses. -/
def awIndex (w : LogWriter) : Fin 2 := Fin.ofNat 2 (w.active_writer_ &&& 1)

def setBank (w : LogWriter) (index : Fin 2) (bank : Writers) : LogWriter :=
  { w with writers_ := Function.update w.writers_ index bank }

/-- Where a coroutine stands. A wait carries whether a post has released it. -/
inductive Pc where
  | idle
  /-- `co_await lock_.co_lock()`. -/
  | lockWait
  /-- `co_await memory_notify_`, holding the lock. -/
  | memoryWait (released : Bool)
  /-- `asyncMalloc` returned the task. -/
  | granted
  | copied
  /-- `co_await writer_.notify_leader_`. -/
  | leaderWait (released : Bool)
  | spin
  /-- `co_await baton` in `commit`. -/
  | commit (posted : Bool)
  /-- `co_await` of the bank's `completion_`. -/
  | followerWait (released : Bool)
  | returned
  deriving DecidableEq, Repr

/-- A writer with its locals. The last four fields are history: the first task that was granted
in the group, the position of the region in the stream of granted bytes, how many writes had
been submitted when the copy ended, and the number of the write that a leader submitted. -/
structure Coro where
  pc : Pc := .idle
  size : BitVec 64 := 0
  aw_index : Fin 2 := 0
  task : WriteTask := {}
  leader : ℕ := 0
  pos : ℕ := 0
  stamp : ℕ := 0
  wr : ℕ := 0

/-- A request for the log file, with its result once the kernel has completed it. -/
structure Write where
  req : IoRequest
  res_ : Option ℤ := none
  deriving DecidableEq, Repr

/-- `mem` are the bytes of the ring's memory object. `members` lists the tasks that were granted
space in a bank since its last `Reset`, `finished` the others, and `granted` all of them. -/
structure State where
  w : LogWriter
  coros : ℕ → Coro := fun _ => {}
  mem : ℕ → BitVec 8
  file : ℕ → BitVec 8
  writes : List Write := []
  members : Fin 2 → List ℕ := fun _ => []
  finished : List ℕ := []
  granted : List ℕ := []

inductive Label where
  /-- Writer `i` calls `asyncMalloc(size)`. -/
  | call (i : ℕ) (size : BitVec 64)
  | lock (i : ℕ)
  | memoryResume (i : ℕ)
  /-- Writer `i` copies its bytes into the region. -/
  | copy (i : ℕ) (bytes : ℕ → BitVec 8)
  | leaderComplete (i : ℕ) (crc : BitVec 32) (len : BitVec 16)
  | leaderResume (i : ℕ) (crc : BitVec 32) (len : BitVec 16)
  /-- Leader `i` finds all copies done and submits its write. -/
  | leave (i : ℕ)
  | ioComplete (i : ℕ) (res : ℤ)
  | leaderFinish (i : ℕ)
  | followerComplete (i : ℕ)
  | followerResume (i : ℕ)

namespace State

variable (s : State) (i : ℕ)

def setCoro (c : Coro) : State := { s with coros := Function.update s.coros i c }

def goto (pc : Pc) : State := s.setCoro i { s.coros i with pc := pc }

/-- The bank of task `i`. -/
def bank : Writers := s.w.writers_ (s.coros i).task.index_

/-- Bytes granted so far. -/
def total : ℕ := (s.granted.map fun i => (s.coros i).size.toNat).sum

/-- The byte of the memory object behind an address of the double mapping. -/
def cell (addr : ℕ) : ℕ := (addr - s.w.buffer_.buffer_) % kBufferSize

/-- Store `n ≤ kBufferSize` bytes from `addr` on. -/
def memcpy (addr n : ℕ) (src : ℕ → BitVec 8) : State :=
  { s with mem := fun c =>
      let k := (c + (kBufferSize - s.cell addr)) % kBufferSize
      if k < n then src k else s.mem c }

/-! ### `asyncMalloc` -/

def call (size : BitVec 64) : State :=
  s.setCoro i { s.coros i with pc := .lockWait, size := size, aw_index := s.w.awIndex }

/-- The return of `asyncMalloc` with the region at `res`. -/
def grant (task : WriteTask) (res : ℕ) (buffer : SPSCRingBuffer) : State :=
  let c := s.coros i
  let bank := s.w.writers_ c.aw_index
  let members := s.members c.aw_index ++ [i]
  { s.setCoro i { c with
      pc := .granted
      task := { task with addr_ := res }
      leader := members.headD i
      pos := s.total } with
    w := { s.w.setBank c.aw_index { bank with len := bank.len + c.size.toNat } with
      buffer_ := buffer
      lock_ := false }
    members := Function.update s.members c.aw_index members
    granted := s.granted ++ [i] }

/-- From the result of `RequestWriteSpace` to the return or to `co_await memory_notify_`. -/
def allocated (task : WriteTask) : Option (ℕ × SPSCRingBuffer) → State
  | none => s.setCoro i { s.coros i with pc := .memoryWait false, task := task }
  | some (res, buffer) => s.grant i task res buffer

/-- From `l1` to the return or to `co_await memory_notify_`. -/
def l1 : State :=
  let c := s.coros i
  let bank := s.w.writers_ c.aw_index
  let task : WriteTask := { is_leader_ := bank.count_ == 0, index_ := c.aw_index }
  let s' := { s with w := s.w.setBank c.aw_index { bank with count_ := bank.count_ + 1 } }
  s'.allocated i task (s.w.buffer_.RequestWriteSpace c.size)

/-- From the end of `co_await memory_notify_` to `goto l1`. -/
def retry : State :=
  { s with w := { s.w with memory_notify_ := false } }.setCoro i
    { s.coros i with aw_index := s.w.awIndex }

/-- `co_await memory_notify_` goes on at once when the baton is signalled. -/
def await : State :=
  if (s.coros i).pc = .memoryWait false ∧ s.w.memory_notify_ = true then (s.retry i).l1 i else s

def takeLock : State := { s with w := { s.w with lock_ := true } }

def lock : State := (s.takeLock.l1 i).await i

def memoryResume : State := (s.retry i).l1 i

/-! ### The writer's copy -/

def copy (bytes : ℕ → BitVec 8) : State :=
  let c := s.coros i
  (s.memcpy c.task.addr_ c.size.toNat bytes).setCoro i
    { c with pc := .copied, stamp := s.writes.length }

/-! ### `LeaderComplete` -/

/-- The header of the group, `crc` in four bytes and `len` in two. -/
def header (host : Endian) (crc : BitVec 32) (len : BitVec 16) : List (BitVec 8) :=
  SerializeLE (w := 4) host crc ++ SerializeLE (w := 2) host len

/-- From the end of `co_await notify_leader_` to the spin. -/
def lead (host : Endian) (crc : BitVec 32) (len : BitVec 16) : State :=
  ({ s with w := { s.w with notify_leader_ := false } }.memcpy (s.coros i).task.addr_ 6
    fun k => (header host crc len).getD k 0).goto i .spin

def leaderComplete (host : Endian) (crc : BitVec 32) (len : BitVec 16) : State :=
  if s.w.notify_leader_ then s.lead i host crc len else s.goto i (.leaderWait false)

/-- `addr` rounded down to a multiple of `kBlockSize`. -/
def alignDown (addr : ℕ) : ℕ := addr / kBlockSize * kBlockSize

/-- `len` rounded up to a multiple of `kBlockSize`. -/
def alignUp (len : ℕ) : ℕ := (len + kBlockSize - 1) / kBlockSize * kBlockSize

/-- The request that `commit` builds; its parameter `len` is a `uint16_t`. -/
def commitReq (fd : ℤ) (addr size offset : ℕ) : IoRequest :=
  { op_code_ := .WRITE, fd_ := fd, addr_ := addr, size_ := size % 2 ^ 16, offset_ := offset }

/-- The write of a group of `len` bytes whose leader's region is at `addr_`. -/
def groupReq (addr_ len : ℕ) : IoRequest :=
  commitReq s.w.fd_ (alignDown addr_) (alignUp (len + 6)) s.w.file_pos_

/-- From the end of the spin to `co_await baton`. -/
def leave : State :=
  let c := s.coros i
  let writer := s.bank i
  { (s.memcpy (c.task.addr_ + writer.len) 6 fun _ => 0).setCoro i
      { c with pc := .commit false, wr := s.writes.length } with
    writes := s.writes ++ [{ req := s.groupReq c.task.addr_ writer.len }] }

/-- The kernel has transferred `n` bytes of the request. -/
def transfer (req : IoRequest) (n : ℕ) : State :=
  { s with file := fun p =>
      if req.offset_ ≤ p ∧ p < req.offset_ + n then s.mem (s.cell (req.addr_ + (p - req.offset_)))
      else s.file p }

/-- The kernel cannot transfer more than was requested, nor bytes outside the mapping. -/
def CanTransfer (req : IoRequest) (res : ℤ) : Prop :=
  0 < res → res.toNat ≤ req.size_ ∧ s.w.buffer_.buffer_ ≤ req.addr_ ∧
    req.addr_ + res.toNat ≤ s.w.buffer_.buffer_ + 2 * kBufferSize

instance (req : IoRequest) (res : ℤ) : Decidable (s.CanTransfer req res) := by
  unfold CanTransfer
  infer_instance

def ioComplete (write : Write) (res : ℤ) : State :=
  let c := s.coros i
  { (s.transfer write.req res.toNat).setCoro i { c with pc := .commit true } with
    writes := s.writes.set c.wr { write with res_ := some res } }

theorem ioComplete_coros (write : Write) (res : ℤ) : (s.ioComplete i write res).coros =
    Function.update s.coros i { s.coros i with pc := .commit true } := rfl

theorem ioComplete_self (write : Write) (res : ℤ) :
    (s.ioComplete i write res).coros i = { s.coros i with pc := .commit true } :=
  Function.update_self _ _ _

theorem ioComplete_of_ne (write : Write) (res : ℤ) {j : ℕ} (hj : j ≠ i) :
    (s.ioComplete i write res).coros j = s.coros j :=
  Function.update_of_ne hj _ _

theorem ioComplete_writes (write : Write) (res : ℤ) : (s.ioComplete i write res).writes =
    s.writes.set (s.coros i).wr { write with res_ := some res } := rfl

/-! ### Batons -/

end State

inductive Signal where
  | completion (index : Fin 2)
  | notifyLeader
  | memoryNotify

/-- A post releases the coroutines that wait for the baton. -/
def Coro.wake (c : Coro) (b : Signal) : Coro :=
  { c with
    pc := match b, c.pc with
      | .completion index, .followerWait released =>
        .followerWait (released || c.task.index_ == index)
      | .notifyLeader, .leaderWait _ => .leaderWait true
      | .memoryNotify, .memoryWait _ => .memoryWait true
      | _, pc => pc }

/-- The baton stays signalled. -/
def signal (w : LogWriter) : Signal → LogWriter
  | .completion index => w.setBank index { w.writers_ index with completion_ := true }
  | .notifyLeader => { w with notify_leader_ := true }
  | .memoryNotify => { w with memory_notify_ := true }

namespace State

variable (s : State) (i : ℕ)

def post (b : Signal) : State :=
  { s with w := s.w.signal b, coros := fun j => (s.coros j).wake b }

/-- `writer.Reset()`, which starts a new group, and `buffer_.CommitWrite(writer.len)`. -/
def release (index : Fin 2) : State :=
  let w := s.w.setBank index (s.w.writers_ index).Reset
  { s with
    w := { w with buffer_ := w.buffer_.CommitWrite (BitVec.ofNat 64 (w.writers_ index).len) }
    members := Function.update s.members index []
    finished := s.finished ++ s.members index }

/-- From the end of `commit` to the return. -/
def finish : State :=
  let index := (s.coros i).task.index_
  (((((s.goto i .returned).post (.completion index)).post .notifyLeader).release index).post
    .memoryNotify)

/-! ### `FollowerComplete` -/

def followerComplete : State :=
  let index := (s.coros i).task.index_
  let bank := s.bank i
  { s.goto i (if bank.completion_ then .returned else .followerWait false) with
    w := s.w.setBank index { bank with completed_copy_ := bank.completed_copy_ + 1 } }

end State

def step (host : Endian) (s : State) : Label → Option State
  | .call i size => if (s.coros i).pc = .idle then some (s.call i size) else none
  | .lock i => if (s.coros i).pc = .lockWait ∧ s.w.lock_ = false then some (s.lock i) else none
  | .memoryResume i =>
    if (s.coros i).pc = .memoryWait true then some (s.memoryResume i) else none
  | .copy i bytes => if (s.coros i).pc = .granted then some (s.copy i bytes) else none
  | .leaderComplete i crc len =>
    if (s.coros i).pc = .copied ∧ (s.coros i).task.is_leader_ = true then
      some (s.leaderComplete i host crc len)
    else none
  | .leaderResume i crc len =>
    if (s.coros i).pc = .leaderWait true then some (s.lead i host crc len) else none
  | .leave i =>
    if (s.coros i).pc = .spin ∧ (s.bank i).completed_copy_ + 1 = (s.bank i).count_ then
      some (s.leave i)
    else none
  | .ioComplete i res =>
    match s.writes[(s.coros i).wr]? with
    | none => none
    | some write =>
      if (s.coros i).pc = .commit false ∧ s.CanTransfer write.req res then
        some (s.ioComplete i write res)
      else none
  | .leaderFinish i => if (s.coros i).pc = .commit true then some (s.finish i) else none
  | .followerComplete i =>
    if (s.coros i).pc = .copied ∧ (s.coros i).task.is_leader_ = false then
      some (s.followerComplete i)
    else none
  | .followerResume i =>
    if (s.coros i).pc = .followerWait true then some (s.goto i .returned) else none

/-- The log writer after `init`, on any ring, descriptor, memory and file. -/
def initial (raw_space : ℕ) (fd : ℤ) (mem file : ℕ → BitVec 8) : State :=
  { w := { buffer_ := .construct raw_space : LogWriter }.init fd, mem := mem, file := file }

def machine (host : Endian) : Machine State Label where
  start s := ∃ raw_space fd mem file, raw_space % kPageSize = 0 ∧
    s = initial raw_space fd mem file
  step := step host

section Step

variable {host : Endian} {s t : State} {i : ℕ}

theorem step_leave (hst : (machine host).step s (.leave i) = some t) :
    ((s.coros i).pc = .spin ∧ (s.bank i).completed_copy_ + 1 = (s.bank i).count_) ∧
      s.leave i = t := by
  simpa only [machine, step, Option.ite_none_right_eq_some, Option.some.injEq] using hst

theorem step_ioComplete {res : ℤ} (hst : (machine host).step s (.ioComplete i res) = some t) :
    ∃ write, s.writes[(s.coros i).wr]? = some write ∧
      ((s.coros i).pc = .commit false ∧ s.CanTransfer write.req res) ∧
      s.ioComplete i write res = t := by
  simp only [machine, step] at hst
  cases hwrite : s.writes[(s.coros i).wr]? with
  | none => simp [hwrite] at hst
  | some write =>
    simp only [hwrite, Option.ite_none_right_eq_some, Option.some.injEq] at hst
    exact ⟨write, rfl, hst⟩

theorem step_leaderFinish (hst : (machine host).step s (.leaderFinish i) = some t) :
    (s.coros i).pc = .commit true ∧ s.finish i = t := by
  simpa only [machine, step, Option.ite_none_right_eq_some, Option.some.injEq] using hst

theorem step_followerComplete (hst : (machine host).step s (.followerComplete i) = some t) :
    ((s.coros i).pc = .copied ∧ (s.coros i).task.is_leader_ = false) ∧
      s.followerComplete i = t := by
  simpa only [machine, step, Option.ite_none_right_eq_some, Option.some.injEq] using hst

end Step

/-- A log writer whose ring starts at a multiple of `kBlockSize`, for runs on fixed inputs. -/
def fresh : State := initial 4096 3 (fun _ => 0) (fun _ => 0)

theorem fresh_start {host : Endian} : (machine host).start fresh :=
  ⟨4096, 3, fun _ => 0, fun _ => 0, rfl, rfl⟩

end LogWriter

end QStorage.Db
