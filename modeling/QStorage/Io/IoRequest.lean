import Mathlib.Tactic.Ring

/-!
# Requests and their splitting (`io/io_request.h`, `io/io_request.cc`)

The tagged union `IoRequest` becomes an inductive type with one constructor for each
member that `Split` looks at; `read_op` and `write_op` share a layout, and so do
`readv_op` and `writev_op`. A pointer to an array of `iovec` is the list of the entries
behind it. Loops take fuel, and `Stop.outOfFuel` stands for a loop that has not ended.
-/

namespace QStorage.Io

inductive IoRequestType where
  | read | readv | write | writev | fdatasync | recv | recvmsg | send | sendmsg | accept
  | connect | poll_add | poll_remove | cancel
  deriving DecidableEq, Repr

structure Iovec where
  iov_base : BitVec 64
  iov_len : BitVec 64
  deriving DecidableEq, Repr

/-- `read_op` and `write_op`; the tag says which. -/
structure ReadOp where
  op : IoRequestType
  nowait_works : Bool
  fd : ℤ
  pos : BitVec 64
  addr : BitVec 64
  size : BitVec 64
  op_flat : op = .read ∨ op = .write
  deriving DecidableEq, Repr

/-- `readv_op` and `writev_op`; `iov_len` counts the entries of `iovec` in use. -/
structure ReadvOp where
  op : IoRequestType
  nowait_works : Bool
  fd : ℤ
  pos : BitVec 64
  iovec : List Iovec
  iov_len : ℕ
  op_vectored : op = .readv ∨ op = .writev
  deriving DecidableEq, Repr

/-- The members of the union that `Split` handles, and any request it does not. -/
inductive IoRequest where
  | read_ (op : ReadOp)
  | readv_ (op : ReadvOp)
  | other (op : IoRequestType) (not_split : op ∉ [.read, .write, .readv, .writev])
  deriving DecidableEq, Repr

def IoRequest.OpType : IoRequest → IoRequestType
  | .read_ op => op.op
  | .readv_ op => op.op
  | .other op _ => op

structure IoPart where
  req : IoRequest
  size : ℕ
  iovecs : List Iovec
  deriving DecidableEq, Repr

/-- How a call can fail to return its parts. -/
inductive Stop where
  | divisionByZero | abort | outOfFuel
  deriving DecidableEq, Repr

def ReadOp.SubReqBuffer (op : ReadOp) (pos len : ℕ) : IoRequest :=
  .read_ { op with
    pos := op.pos + BitVec.ofNat 64 pos
    addr := op.addr + BitVec.ofNat 64 pos
    size := BitVec.ofNat 64 len }

def ReadvOp.SubReqIovec (op : ReadvOp) (pos : ℕ) (iov : List Iovec) : IoRequest :=
  .readv_ { op with
    pos := op.pos + BitVec.ofNat 64 pos
    iovec := iov
    iov_len := iov.length }

/-- The `do … while (off < op.size)` loop of `SplitBuffer`. -/
def ReadOp.splitBufferLoop (op : ReadOp) (max_length : ℕ) :
    ℕ → ℕ → List IoPart → Except Stop (List IoPart)
  | 0, _, _ => .error .outOfFuel
  | fuel + 1, off, ret =>
    let len := min (op.size.toNat - off) max_length
    let ret := ret ++ [⟨op.SubReqBuffer off len, len, []⟩]
    let off := off + len
    if off < op.size.toNat then op.splitBufferLoop max_length fuel off ret else .ok ret

/-- `ret.reserve` divides by `max_length` before the loop starts. -/
def ReadOp.SplitBuffer (op : ReadOp) (fuel max_length : ℕ) : Except Stop (List IoPart) :=
  if max_length = 0 then .error .divisionByZero
  else op.splitBufferLoop max_length fuel 0 []

/-- The `while (cur != end)` loop of `SplitIovec` and what follows it. The list is the
array from `cur` to `end`. -/
def ReadvOp.splitIovecLoop (op : ReadvOp) (max_length : ℕ) :
    ℕ → List Iovec → (remaining pos off : ℕ) → (vecs : List Iovec) → (parts : List IoPart) →
    Except Stop (List IoPart)
  | 0, _, _, _, _, _, _ => .error .outOfFuel
  | _ + 1, [], remaining, pos, _, vecs, parts =>
    if vecs.length > 0 then
      .ok (parts ++ [⟨op.SubReqIovec pos vecs, max_length - remaining, vecs⟩])
    else .ok parts
  | fuel + 1, cur :: rest, remaining, pos, off, vecs, parts =>
    let iov_base := cur.iov_base + BitVec.ofNat 64 off
    let iov_len := cur.iov_len.toNat - off
    if iov_len ≤ remaining then
      op.splitIovecLoop max_length fuel rest (remaining - iov_len) pos 0
        (vecs ++ [⟨iov_base, BitVec.ofNat 64 iov_len⟩]) parts
    else
      -- a part is full; it takes `remaining` bytes of this buffer, which may be none
      let vecs := if remaining > 0 then vecs ++ [⟨iov_base, BitVec.ofNat 64 remaining⟩] else vecs
      op.splitIovecLoop max_length fuel (cur :: rest) max_length (pos + max_length)
        (off + remaining) [] (parts ++ [⟨op.SubReqIovec pos vecs, max_length, vecs⟩])

def ReadvOp.SplitIovec (op : ReadvOp) (fuel max_length : ℕ) : Except Stop (List IoPart) :=
  op.splitIovecLoop max_length fuel (op.iovec.take op.iov_len) max_length 0 0 [] []

def IoRequest.Split (req : IoRequest) (fuel max_length : ℕ) : Except Stop (List IoPart) :=
  match req with
  | .read_ op => op.SplitBuffer fuel max_length
  | .readv_ op => op.SplitIovec fuel max_length
  | .other _ _ => .error .abort

end QStorage.Io
