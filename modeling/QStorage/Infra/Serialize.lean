import Mathlib.Data.List.GetD
import Mathlib.Data.Nat.Notation

/-!
# The little-endian codec (`infra/serialize.h`)

A value of `w` bytes is a bit pattern. Its native representation depends on the host; the
codec swaps the bytes on a big-endian one.

## Main results

* `SerializeLE_eq`, `SerializeLE_float_eq` — the bytes stored do not depend on the host.
* `DeserializeLE_eq`, `DeserializeLE_float_eq` — nor does the value that is read from them.
* `SerializeLE_littleEndian` — what a codec does to the memory, and the round trips.
-/

namespace QStorage.Infra

inductive Endian where
  | little
  | big
  deriving DecidableEq, Repr

variable {w : ℕ}

/-- Byte `i` of a value, the least significant one being byte 0. -/
def byteAt (v : BitVec (8 * w)) (i : ℕ) : BitVec 8 := v.extractLsb' (8 * i) 8

/-- `memcpy` out of a value: its bytes in the order in which the host stores them. -/
def nativeBytes : Endian → BitVec (8 * w) → List (BitVec 8)
  | .little, v => (List.range w).map (byteAt v)
  | .big, v => ((List.range w).map (byteAt v)).reverse

/-- The value with the given bytes, least significant first. -/
def ofBytes : (w : ℕ) → (ℕ → BitVec 8) → BitVec (8 * w)
  | 0, _ => 0
  | w + 1, bytes => ((ofBytes w fun i => bytes (i + 1)) ++ bytes 0).cast (by omega)

def byteswap (v : BitVec (8 * w)) : BitVec (8 * w) := ofBytes w fun i => byteAt v (w - 1 - i)

/-- The bytes that `SerializeLE(dst, value)` stores from `dst` on. -/
def SerializeLE (host : Endian) (value : BitVec (8 * w)) : List (BitVec 8) :=
  nativeBytes host (if host = .big then byteswap value else value)

/-- `memcpy` into a value: the value that the host keeps in the given bytes. -/
def ofNative : Endian → (ℕ → BitVec 8) → BitVec (8 * w)
  | .little, bytes => ofBytes w bytes
  | .big, bytes => ofBytes w fun i => bytes (w - 1 - i)

/-- The value that `DeserializeLE(src)` reads. -/
def DeserializeLE (host : Endian) (src : ℕ → BitVec 8) : BitVec (8 * w) :=
  let value : BitVec (8 * w) := ofNative host src
  if host = .big then byteswap value else value

/-! ## The overloads for floating types -/

/-- `memcpy` between two values of one size. -/
def reinterpret (host : Endian) (value : BitVec (8 * w)) : BitVec (8 * w) :=
  ofNative host fun i => (nativeBytes host value).getD i 0

/-- The swap of a `float` in a `uint32_t` and of a `double` in a `uint64_t`; there is no branch for
another size. -/
def floatSwap (host : Endian) (value : BitVec (8 * w)) : BitVec (8 * w) :=
  if w = 4 then reinterpret host (byteswap (reinterpret host value))
  else if w = 8 then reinterpret host (byteswap (reinterpret host value))
  else value

/-- The sizes that `FloatingPointOnly` admits. -/
def FloatingPointOnly (w : ℕ) : Prop := w = 4 ∨ w = 8

def SerializeLE_float (host : Endian) (value : BitVec (8 * w)) : List (BitVec 8) :=
  nativeBytes host (if host = .big then floatSwap host value else value)

def DeserializeLE_float (host : Endian) (src : ℕ → BitVec 8) : BitVec (8 * w) :=
  let value : BitVec (8 * w) := ofNative host src
  if host = .big then floatSwap host value else value

/-! ## Bytes -/

@[simp] theorem length_SerializeLE (host : Endian) (value : BitVec (8 * w)) :
    (SerializeLE host value).length = w := by
  cases host <;> simp [SerializeLE, nativeBytes]

theorem getLsbD_byteAt (v : BitVec (8 * w)) (i j : ℕ) :
    (byteAt v i).getLsbD j = (decide (j < 8) && v.getLsbD (8 * i + j)) := by
  rw [byteAt, BitVec.getLsbD_extractLsb']

/-- A value is its bytes. -/
theorem eq_of_byteAt {u v : BitVec (8 * w)} (h : ∀ i < w, byteAt u i = byteAt v i) : u = v := by
  apply BitVec.eq_of_getLsbD_eq
  intro k hk
  have hbit := congrArg (fun b => b.getLsbD (k % 8)) (h (k / 8) (by omega))
  simpa only [getLsbD_byteAt, Nat.div_add_mod, Nat.mod_lt k (show 8 > 0 by decide), decide_true,
    Bool.true_and] using hbit

theorem byteAt_ofBytes {bytes : ℕ → BitVec 8} {i : ℕ} (hi : i < w) :
    byteAt (ofBytes w bytes) i = bytes i := by
  induction w generalizing bytes i with
  | zero => omega
  | succ w ih =>
    apply BitVec.eq_of_getLsbD_eq
    intro j hj
    rw [getLsbD_byteAt, ofBytes, BitVec.getLsbD_cast, BitVec.getLsbD_append]
    cases i with
    | zero => simp [hj]
    | succ i =>
      have hrest : byteAt (ofBytes w fun i => bytes (i + 1)) i = bytes (i + 1) := ih (by omega)
      rw [← hrest, getLsbD_byteAt, if_neg (by omega), show 8 * (i + 1) + j - 8 = 8 * i + j by omega]

theorem ofBytes_congr {bytes bytes' : ℕ → BitVec 8} (h : ∀ i < w, bytes i = bytes' i) :
    ofBytes w bytes = ofBytes w bytes' := by
  apply eq_of_byteAt
  intro i hi
  rw [byteAt_ofBytes hi, byteAt_ofBytes hi, h i hi]

theorem ofBytes_byteAt (v : BitVec (8 * w)) : ofBytes w (byteAt v) = v :=
  eq_of_byteAt fun _ hi => byteAt_ofBytes hi

theorem byteAt_byteswap (v : BitVec (8 * w)) {i : ℕ} (hi : i < w) :
    byteAt (byteswap v) i = byteAt v (w - 1 - i) := byteAt_ofBytes hi

theorem nativeBytes_getD (host : Endian) (v : BitVec (8 * w)) {i : ℕ} (hi : i < w) :
    (nativeBytes host v).getD i 0 = byteAt v (if host = .big then w - 1 - i else i) := by
  cases host with
  | little => simp [nativeBytes, hi]
  | big => simp [nativeBytes, hi, Nat.sub_sub, Nat.add_comm]

/-- A value copied byte by byte keeps its bits, whatever the order of its bytes. -/
theorem reinterpret_eq (host : Endian) (v : BitVec (8 * w)) : reinterpret host v = v := by
  apply eq_of_byteAt
  intro i hi
  cases host with
  | little => simp only [reinterpret, ofNative, byteAt_ofBytes hi, nativeBytes_getD _ _ hi,
      reduceCtorEq, if_false]
  | big =>
    simp only [reinterpret, ofNative, byteAt_ofBytes hi, if_true,
      nativeBytes_getD _ _ (show w - 1 - i < w by omega)]
    rw [show w - 1 - (w - 1 - i) = i by omega]

theorem floatSwap_eq (host : Endian) (hw : FloatingPointOnly w) (v : BitVec (8 * w)) :
    floatSwap host v = byteswap v := by
  rcases hw with rfl | rfl <;> simp [floatSwap, reinterpret_eq]

/-! ## One format -/

/-- Byte `i` of the stored value holds its bits `8 * i` to `8 * i + 7`, on both hosts. -/
theorem SerializeLE_eq (host : Endian) (v : BitVec (8 * w)) :
    SerializeLE host v = (List.range w).map (byteAt v) := by
  cases host with
  | little => simp [SerializeLE, nativeBytes]
  | big =>
    apply List.ext_getElem
    · simp
    · intro i hi _
      have hlt : i < w := by simpa using hi
      rw [← List.getD_eq_getElem _ 0 hi, SerializeLE, if_pos rfl, nativeBytes_getD _ _ hlt,
        if_pos rfl, byteAt_byteswap _ (by omega), show w - 1 - (w - 1 - i) = i by omega]
      simp

theorem DeserializeLE_eq (host : Endian) (src : ℕ → BitVec 8) :
    DeserializeLE host src = ofBytes w src := by
  cases host with
  | little => simp [DeserializeLE, ofNative]
  | big =>
    apply eq_of_byteAt
    intro i hi
    simp only [DeserializeLE, ofNative, if_true]
    rw [byteAt_byteswap _ hi, byteAt_ofBytes (by omega), byteAt_ofBytes hi,
      show w - 1 - (w - 1 - i) = i by omega]

theorem SerializeLE_float_eq (host : Endian) (hw : FloatingPointOnly w) (v : BitVec (8 * w)) :
    SerializeLE_float host v = SerializeLE host v := by
  rw [SerializeLE_float, SerializeLE, floatSwap_eq host hw]

theorem DeserializeLE_float_eq (host : Endian) (hw : FloatingPointOnly w) (src : ℕ → BitVec 8) :
    (DeserializeLE_float host src : BitVec (8 * w)) = DeserializeLE host src := by
  simp only [DeserializeLE_float, DeserializeLE, floatSwap_eq host hw]

/-! ## In memory -/

/-- `memcpy(dst, bytes, …)`. -/
def store (mem : ℕ → BitVec 8) (dst : ℕ) (bytes : List (BitVec 8)) : ℕ → BitVec 8 := fun a =>
  if dst ≤ a ∧ a < dst + bytes.length then bytes.getD (a - dst) 0 else mem a

/-- A codec for values of `w` bytes stores byte `i` of the value at `dst + i` and nothing else,
and the two directions undo each other. -/
structure LittleEndian (w : ℕ) (serialize : BitVec (8 * w) → List (BitVec 8))
    (deserialize : (ℕ → BitVec 8) → BitVec (8 * w)) : Prop where
  stored : ∀ mem dst v i, i < w → store mem dst (serialize v) (dst + i) = v.extractLsb' (8 * i) 8
  frame : ∀ mem dst v a, a < dst ∨ dst + w ≤ a → store mem dst (serialize v) a = mem a
  store_load : ∀ mem dst v, deserialize (fun i => store mem dst (serialize v) (dst + i)) = v
  load_store : ∀ mem src, store mem src (serialize (deserialize fun i => mem (src + i))) = mem

/-- The two directions fit, also if they run on hosts of different byte order. -/
theorem SerializeLE_littleEndian (w : ℕ) (host host' : Endian) :
    LittleEndian w (SerializeLE host) (DeserializeLE host') := by
  have hstored (mem : ℕ → BitVec 8) (dst : ℕ) (v : BitVec (8 * w)) {i : ℕ} (hi : i < w) :
      store mem dst (SerializeLE host v) (dst + i) = byteAt v i := by
    rw [store, if_pos (by rw [length_SerializeLE]; omega), SerializeLE_eq, Nat.add_sub_cancel_left]
    simp [hi]
  have hframe (mem : ℕ → BitVec 8) (dst : ℕ) (v : BitVec (8 * w)) {a : ℕ}
      (ha : a < dst ∨ dst + w ≤ a) : store mem dst (SerializeLE host v) a = mem a := by
    rw [store, if_neg (by rw [length_SerializeLE]; omega)]
  refine ⟨fun mem dst v i hi => hstored mem dst v hi, fun mem dst v a ha => hframe mem dst v ha,
    ?_, ?_⟩
  · intro mem dst v
    rw [DeserializeLE_eq, ofBytes_congr fun i hi => hstored mem dst v hi, ofBytes_byteAt]
  · intro mem src
    funext a
    by_cases ha : src ≤ a ∧ a < src + w
    · obtain ⟨i, rfl⟩ := Nat.exists_eq_add_of_le ha.1
      have hi : i < w := by omega
      rw [hstored mem src _ hi, DeserializeLE_eq, byteAt_ofBytes hi]
    · exact hframe mem src _ (by omega)

theorem SerializeLE_float_littleEndian {w : ℕ} (hw : FloatingPointOnly w) (host host' : Endian) :
    LittleEndian w (SerializeLE_float host) (DeserializeLE_float host') := by
  have hser : SerializeLE_float (w := w) host = SerializeLE host :=
    funext (SerializeLE_float_eq host hw)
  have hde : DeserializeLE_float (w := w) host' = DeserializeLE host' :=
    funext (DeserializeLE_float_eq host' hw)
  rw [hser, hde]
  exact SerializeLE_littleEndian w host host'

end QStorage.Infra
