import QStorage.Io.IoRequest
import QStorage.Lib.Store

/-!
# What a transferred request does

A world is the byte-addressed memory and the files. A read or write moves its whole
range, byte `k` of the buffers being byte `pos + k` of the file. The main result is that a
transfer can be cut into chunks, and the chunks executed in any order.
-/

namespace QStorage.Io

open QStorage.Lib

structure File where
  bytes : ℕ → UInt8
  size : ℕ

structure World where
  mem : ℕ → UInt8
  files : ℤ → File

/-- The addresses of a buffer, in order. -/
def Iovec.addrs (v : Iovec) : List ℕ := List.range' v.iov_base.toNat v.iov_len.toNat

def ReadOp.addrs (op : ReadOp) : List ℕ := List.range' op.addr.toNat op.size.toNat

def ReadvOp.addrs (op : ReadvOp) : List ℕ := (op.iovec.take op.iov_len).flatMap Iovec.addrs

/-- The file size after a write of `len` bytes at `pos`. -/
def extend (size pos len : ℕ) : ℕ := if len = 0 then size else max size (pos + len)

/-- A file position and the memory addresses that the bytes from there on belong to. -/
structure Chunk where
  pos : ℕ
  addrs : List ℕ

/-- Where a request for data reads or writes, the whole request taken as one chunk. -/
def IoRequest.chunk : IoRequest → Chunk
  | .read_ op => ⟨op.pos.toNat, op.addrs⟩
  | .readv_ op => ⟨op.pos.toNat, op.addrs⟩
  | .other _ _ => ⟨0, []⟩

/-- The assignments to memory that reading the chunk performs. -/
def Chunk.loads (f : File) (c : Chunk) : List (ℕ × UInt8) :=
  (c.addrs.zipIdx c.pos).map fun x => (x.1, f.bytes x.2)

/-- The assignments to the file that writing the chunk performs. -/
def Chunk.stores (mem : ℕ → UInt8) (c : Chunk) : List (ℕ × UInt8) :=
  (c.addrs.zipIdx c.pos).map fun x => (x.2, mem x.1)

namespace World

def pread (w : World) (fd : ℤ) (c : Chunk) : World :=
  { w with mem := store w.mem (c.loads (w.files fd)) }

def pwrite (w : World) (fd : ℤ) (c : Chunk) : World :=
  let f := w.files fd
  { w with
    files := Function.update w.files fd
      { bytes := store f.bytes (c.stores w.mem)
        size := extend f.size c.pos c.addrs.length } }

def transfer (w : World) (op : IoRequestType) (fd : ℤ) (c : Chunk) : World :=
  if op = .read ∨ op = .readv then w.pread fd c else w.pwrite fd c

/-- Execute a request with its whole range transferred. -/
def exec (w : World) : IoRequest → Option World
  | .read_ op => some (w.transfer op.op op.fd (IoRequest.read_ op).chunk)
  | .readv_ op => some (w.transfer op.op op.fd (IoRequest.readv_ op).chunk)
  | .other _ _ => none

def execAll (w : World) (reqs : List IoRequest) : Option World := reqs.foldlM exec w

end World

/-! ## Cutting a transfer into chunks -/

/-- The chunks cut the addresses `A`, placed in the file from `pos` on, into pieces. -/
def Cut : ℕ → List ℕ → List Chunk → Prop
  | _, A, [] => A = []
  | pos, A, c :: cs => c.pos = pos ∧ ∃ B, A = c.addrs ++ B ∧ Cut (pos + c.addrs.length) B cs

theorem Cut.flatMap_loads {pos : ℕ} {A : List ℕ} {cs : List Chunk} (h : Cut pos A cs)
    (f : File) : cs.flatMap (Chunk.loads f) = Chunk.loads f ⟨pos, A⟩ := by
  induction cs generalizing pos A with
  | nil =>
    obtain rfl : A = [] := h
    rfl
  | cons c cs ih =>
    obtain ⟨rfl, B, rfl, hB⟩ := h
    rw [List.flatMap_cons, ih hB]
    simp [Chunk.loads, List.zipIdx_append]

theorem Cut.flatMap_stores {pos : ℕ} {A : List ℕ} {cs : List Chunk} (h : Cut pos A cs)
    (mem : ℕ → UInt8) : cs.flatMap (Chunk.stores mem) = Chunk.stores mem ⟨pos, A⟩ := by
  induction cs generalizing pos A with
  | nil =>
    obtain rfl : A = [] := h
    rfl
  | cons c cs ih =>
    obtain ⟨rfl, B, rfl, hB⟩ := h
    rw [List.flatMap_cons, ih hB]
    simp [Chunk.stores, List.zipIdx_append]

@[simp] theorem Chunk.loads_keys (f : File) (c : Chunk) :
    (c.loads f).map Prod.fst = c.addrs := by
  simp [Chunk.loads, Function.comp_def]

@[simp] theorem Chunk.stores_keys (mem : ℕ → UInt8) (c : Chunk) :
    (c.stores mem).map Prod.fst = List.range' c.pos c.addrs.length := by
  simp [Chunk.stores, Function.comp_def]

/-! ## Any order -/

theorem World.foldl_pread (w : World) (fd : ℤ) (cs : List Chunk) :
    cs.foldl (fun w c => w.pread fd c) w =
      { w with mem := store w.mem (cs.flatMap (Chunk.loads (w.files fd))) } := by
  induction cs generalizing w with
  | nil => rfl
  | cons c cs ih =>
    rw [List.foldl_cons, ih, List.flatMap_cons, store_append]
    rfl

theorem World.foldl_pwrite (w : World) (fd : ℤ) (cs : List Chunk) :
    cs.foldl (fun w c => w.pwrite fd c) w =
      { w with
        files := Function.update w.files fd
          { bytes := store (w.files fd).bytes (cs.flatMap (Chunk.stores w.mem))
            size := cs.foldl (fun n c => extend n c.pos c.addrs.length) (w.files fd).size } } := by
  induction cs generalizing w with
  | nil => simp
  | cons c cs ih =>
    rw [List.foldl_cons, ih, List.flatMap_cons, store_append]
    simp [World.pwrite]

theorem extend_comm (n p l q m : ℕ) :
    extend (extend n p l) q m = extend (extend n q m) p l := by
  unfold extend
  split_ifs <;> omega

theorem Cut.foldl_extend {pos : ℕ} {A : List ℕ} {cs : List Chunk} (h : Cut pos A cs) (n : ℕ) :
    cs.foldl (fun n c => extend n c.pos c.addrs.length) n = extend n pos A.length := by
  induction cs generalizing pos A n with
  | nil =>
    obtain rfl : A = [] := h
    rfl
  | cons c cs ih =>
    obtain ⟨rfl, B, rfl, hB⟩ := h
    rw [List.foldl_cons, ih hB, List.length_append]
    unfold extend
    split_ifs <;> omega

theorem World.pread_any_order (w : World) (fd : ℤ) {pos : ℕ} {A : List ℕ}
    {cs order : List Chunk} (h : Cut pos A cs) (hA : A.Nodup) (ho : order.Perm cs) :
    order.foldl (fun w c => w.pread fd c) w = w.pread fd ⟨pos, A⟩ := by
  have hkeys : ((cs.flatMap (Chunk.loads (w.files fd))).map Prod.fst).Nodup := by
    rw [h.flatMap_loads, Chunk.loads_keys]
    exact hA
  have hassign := store_perm w.mem hkeys (ho.symm.flatMap_right _)
  rw [World.foldl_pread, ← hassign, h.flatMap_loads]
  rfl

theorem World.pwrite_any_order (w : World) (fd : ℤ) {pos : ℕ} {A : List ℕ}
    {cs order : List Chunk} (h : Cut pos A cs) (ho : order.Perm cs) :
    order.foldl (fun w c => w.pwrite fd c) w = w.pwrite fd ⟨pos, A⟩ := by
  have hkeys : ((cs.flatMap (Chunk.stores w.mem)).map Prod.fst).Nodup := by
    rw [h.flatMap_stores, Chunk.stores_keys]
    exact List.nodup_range'
  have hassign := store_perm (w.files fd).bytes hkeys (ho.symm.flatMap_right _)
  have hsize := ho.foldl_eq' (f := fun n c => extend n c.pos c.addrs.length)
    (fun c _ d _ n => extend_comm _ _ _ _ _) (w.files fd).size
  rw [World.foldl_pwrite, ← hassign, h.flatMap_stores, hsize, h.foldl_extend]
  rfl

/-- The chunks of a transfer, executed in any order, do what the transfer does. Only a
read needs its addresses to be distinct. -/
theorem World.transfer_any_order (w : World) (op : IoRequestType) (fd : ℤ) {pos : ℕ}
    {A : List ℕ} {cs order : List Chunk} (h : Cut pos A cs)
    (hA : op = .read ∨ op = .readv → A.Nodup) (ho : order.Perm cs) :
    order.foldl (fun w c => w.transfer op fd c) w = w.transfer op fd ⟨pos, A⟩ := by
  unfold World.transfer
  split_ifs with hread
  · exact w.pread_any_order fd h (hA hread) ho
  · exact w.pwrite_any_order fd h ho

end QStorage.Io
