import QStorage.Db.Constant
import QStorage.Lib.Counter
import QStorage.Lib.Machine
import QStorage.Lib.Span

/-!
# The double-mapped ring buffer (`db/sp_ring_buffer.h`)

`tail_` and `head_` are 64-bit counters that wrap; the bytes live in one shared
memory object mapped twice in a row, so that a region that crosses the end of the
first mapping is still contiguous. One producer calls `RequestWriteSpace` and one
consumer calls `CommitWrite`.

`Spsc` splits `RequestWriteSpace` at its load of `tail_`, so that the consumer may
release space between the load and the update of `head_`.

## Main results

* `Spsc.window` — the counters of a reachable state bound a `Window kBufferSize`.
* `Spsc.live_bytes_disjoint` — regions in use share no byte of the memory object.
* `Spsc.update_spec` — when a request is granted, and what a refusal changes.
-/

namespace QStorage.Db

open QStorage.Lib

/-- The fields of the class; `buffer_` is the address of the first mapping. -/
structure SPSCRingBuffer where
  tail_ : BitVec 64 := 0
  head_ : BitVec 64 := 0
  buffer_ : ℕ
  deriving DecidableEq, Repr

namespace SPSCRingBuffer

/-- The constructor, where `raw_space` is what `mmap` returned: the reservation has
`kBlockSize - kPageSize` bytes in front of the first mapping, which are unmapped again. -/
def construct (raw_space : ℕ) : SPSCRingBuffer :=
  { buffer_ := raw_space + (kBlockSize - kPageSize) }

/-- `cap`: what the constructor reserves from `raw_space` on. -/
def cap : ℕ := kBufferSize * 2 + kBlockSize - kPageSize

/-- `RequestWriteSpace` after its load of `tail_`: the address of the region and the
ring after the grant, or `none` for `nullptr`. -/
def requestFrom (r : SPSCRingBuffer) (cur_tail size : BitVec 64) :
    Option (ℕ × SPSCRingBuffer) :=
  let used_space := r.head_ - cur_tail
  let free_space := BitVec.ofNat 64 kBufferSize - used_space
  if free_space < size then none
  else
    let head_index := r.head_ &&& BitVec.ofNat 64 kBufferSizeMask
    some (r.buffer_ + head_index.toNat, { r with head_ := r.head_ + size })

def RequestWriteSpace (r : SPSCRingBuffer) (size : BitVec 64) : Option (ℕ × SPSCRingBuffer) :=
  r.requestFrom r.tail_ size

def CommitWrite (r : SPSCRingBuffer) (size : BitVec 64) : SPSCRingBuffer :=
  { r with tail_ := r.tail_ + size }

/-- The ring after `granted` bytes were granted and `released` of them released. -/
structure Counts (r : SPSCRingBuffer) (released granted : ℕ) : Prop where
  tail : r.tail_ = BitVec.ofNat 64 released
  head : r.head_ = BitVec.ofNat 64 granted

/-- The spec of `RequestWriteSpace` in terms of the unbounded counts. The loaded tail
may be stale: it stands for some earlier count `loaded` of released bytes. -/
theorem requestFrom_eq {r : SPSCRingBuffer} {released granted : ℕ} (h : r.Counts released granted)
    {loaded : ℕ} (hle : loaded ≤ granted) (hfits : granted ≤ loaded + kBufferSize)
    (size : BitVec 64) :
    r.requestFrom (BitVec.ofNat 64 loaded) size =
      if granted + size.toNat ≤ loaded + kBufferSize then
        some (r.buffer_ + granted % kBufferSize,
          { r with head_ := BitVec.ofNat 64 (granted + size.toNat) })
      else none := by
  have hused : (r.head_ - BitVec.ofNat 64 loaded).toNat = granted - loaded := by
    rw [h.head]
    exact Counter.toNat_sub hle (by rw [kBufferSize_eq] at hfits; omega)
  have hfree : (BitVec.ofNat 64 kBufferSize - (r.head_ - BitVec.ofNat 64 loaded)).toNat =
      kBufferSize - (granted - loaded) := by
    rw [BitVec.toNat_sub, hused, BitVec.toNat_ofNat]
    rw [kBufferSize_eq] at hfits ⊢
    omega
  have hindex : (r.head_ &&& BitVec.ofNat 64 kBufferSizeMask).toNat = granted % kBufferSize := by
    rw [h.head, kBufferSizeMask_eq, Counter.toNat_and_mask (by decide), kBufferSize_eq]
  have hhead : r.head_ + size = BitVec.ofNat 64 (granted + size.toNat) := by
    rw [h.head, Counter.ofNat_add_word]
  have hcond : BitVec.ofNat 64 kBufferSize - (r.head_ - BitVec.ofNat 64 loaded) < size ↔
      ¬ granted + size.toNat ≤ loaded + kBufferSize := by
    rw [BitVec.lt_def, hfree]
    omega
  simp only [requestFrom, hcond, hindex, hhead, ite_not]

theorem Counts.commit {r : SPSCRingBuffer} {released granted : ℕ} (h : r.Counts released granted)
    (n : BitVec 64) : (r.CommitWrite n).Counts (released + n.toNat) granted :=
  ⟨by rw [CommitWrite, h.tail, Counter.ofNat_add_word], h.head⟩

/-- The difference of the two counters is the number of bytes in use. -/
theorem Counts.toNat_sub {r : SPSCRingBuffer} {released granted : ℕ}
    (h : r.Counts released granted) (hle : released ≤ granted)
    (hfits : granted ≤ released + kBufferSize) :
    (r.head_ - r.tail_).toNat = granted - released := by
  rw [h.head, h.tail]
  exact Counter.toNat_sub hle (by rw [kBufferSize_eq] at hfits; omega)

end SPSCRingBuffer

/-! ## One producer and one consumer -/

/-- A granted region: its positions in the stream of granted bytes and the address returned. -/
structure Grant where
  span : Span
  addr : ℕ
  deriving DecidableEq, Repr

/-- The ring with a producer that may be between its load of `tail_` and its update of
`head_`. `grants` and `released` record the history. -/
structure Spsc where
  ring : SPSCRingBuffer
  /-- The argument `size` and the local `cur_tail` of a call that has loaded `tail_`. -/
  pending : Option (BitVec 64 × BitVec 64) := none
  grants : List Grant := []
  released : ℕ := 0

namespace Spsc

inductive Label where
  /-- `RequestWriteSpace(size)` is called and loads `tail_`. -/
  | load (size : BitVec 64)
  /-- The rest of the call. -/
  | update
  /-- `CommitWrite(n)`. -/
  | commit (n : BitVec 64)

/-- Bytes granted so far. -/
def granted (s : Spsc) : ℕ := (s.grants.map (·.span.len)).sum

/-- The return of a call with what `requestFrom` gave. -/
def finish (s : Spsc) (size : BitVec 64) : Option (ℕ × SPSCRingBuffer) → Spsc
  | none => { s with pending := none }
  | some (res, ring) =>
    { s with
      ring := ring
      pending := none
      grants := s.grants ++ [⟨⟨s.granted, size.toNat⟩, res⟩] }

/-- The consumer releases no more than is outstanding; the producer is one thread. -/
def step (s : Spsc) : Label → Option Spsc
  | .load size =>
    if s.pending = none then some { s with pending := some (size, s.ring.tail_) } else none
  | .update =>
    s.pending.map fun (size, cur_tail) => s.finish size (s.ring.requestFrom cur_tail size)
  | .commit n =>
    if s.released + n.toNat ≤ s.granted then
      some { s with ring := s.ring.CommitWrite n, released := s.released + n.toNat }
    else none

/-- A fresh ring in any reservation that `mmap` may return. -/
def machine : Machine Spsc Label where
  start s := ∃ raw_space, raw_space % kPageSize = 0 ∧ s = { ring := .construct raw_space }
  step := step

/-- The invariant of a producer and a consumer. The tail that a pending call loaded is
some count of released bytes that was current since `head_` last moved. -/
structure Inv (s : Spsc) : Prop where
  counts : s.ring.Counts s.released s.granted
  tiles : Tiles 0 (s.grants.map Grant.span) s.granted
  released_le : s.released ≤ s.granted
  fits : s.granted ≤ s.released + kBufferSize
  pending : ∀ size cur_tail, s.pending = some (size, cur_tail) →
    ∃ loaded ≤ s.released, cur_tail = BitVec.ofNat 64 loaded ∧ s.granted ≤ loaded + kBufferSize
  addr : ∀ g ∈ s.grants, g.addr = s.ring.buffer_ + g.span.start % kBufferSize ∧
    g.span.len ≤ kBufferSize

theorem granted_snoc {s t : Spsc} {g : Grant} (h : t.grants = s.grants ++ [g]) :
    t.granted = s.granted + g.span.len := by
  simp [granted, h]

theorem inv_construct (raw_space : ℕ) : Inv { ring := .construct raw_space } := by
  constructor <;> simp [granted, SPSCRingBuffer.construct]
  exact ⟨rfl, rfl⟩

theorem inv_start {s : Spsc} (h : machine.start s) : Inv s := by
  obtain ⟨raw_space, -, rfl⟩ := h
  exact inv_construct raw_space

/-- What a pending call sees: the loaded count is at most what is granted. -/
theorem Inv.requestFrom_eq {s : Spsc} (h : Inv s) {size cur_tail : BitVec 64}
    (hp : s.pending = some (size, cur_tail)) :
    ∃ loaded ≤ s.released, cur_tail = BitVec.ofNat 64 loaded ∧
      s.granted ≤ loaded + kBufferSize ∧
      s.ring.requestFrom cur_tail size =
        if s.granted + size.toNat ≤ loaded + kBufferSize then
          some (s.ring.buffer_ + s.granted % kBufferSize,
            { s.ring with head_ := BitVec.ofNat 64 (s.granted + size.toNat) })
        else none := by
  obtain ⟨loaded, hle, rfl, hfits⟩ := h.pending size cur_tail hp
  exact ⟨loaded, hle, rfl, hfits,
    SPSCRingBuffer.requestFrom_eq h.counts (hle.trans h.released_le) hfits size⟩

theorem Inv.update_cases {s t : Spsc} (h : Inv s) {size cur_tail : BitVec 64}
    (hp : s.pending = some (size, cur_tail)) (hst : step s .update = some t) :
    ∃ loaded ≤ s.released, cur_tail = BitVec.ofNat 64 loaded ∧ s.granted ≤ loaded + kBufferSize ∧
      ((s.granted + size.toNat ≤ loaded + kBufferSize ∧
          t = { s with
            ring := { s.ring with head_ := BitVec.ofNat 64 (s.granted + size.toNat) }
            pending := none
            grants := s.grants ++
              [⟨⟨s.granted, size.toNat⟩, s.ring.buffer_ + s.granted % kBufferSize⟩] }) ∨
        (¬ s.granted + size.toNat ≤ loaded + kBufferSize ∧ t = { s with pending := none })) := by
  obtain ⟨loaded, hle, htail, hfits, hreq⟩ := h.requestFrom_eq hp
  refine ⟨loaded, hle, htail, hfits, ?_⟩
  simp only [step, hp, Option.map_some, Option.some.injEq] at hst
  by_cases hroom : s.granted + size.toNat ≤ loaded + kBufferSize
  · rw [hreq, if_pos hroom] at hst
    exact .inl ⟨hroom, hst.symm⟩
  · rw [hreq, if_neg hroom] at hst
    exact .inr ⟨hroom, hst.symm⟩

theorem inv_step {s t : Spsc} {l : Label} (h : Inv s) (hst : step s l = some t) : Inv t := by
  cases l with
  | load size =>
    simp only [step, Option.ite_none_right_eq_some, Option.some.injEq] at hst
    obtain ⟨-, rfl⟩ := hst
    refine { h with pending := ?_ }
    rintro size' cur_tail ⟨rfl, rfl⟩
    exact ⟨s.released, le_rfl, h.counts.tail, h.fits⟩
  | update =>
    cases hp : s.pending with
    | none => simp [step, hp] at hst
    | some call =>
      obtain ⟨loaded, hle, -, hfits, hcase⟩ := h.update_cases hp hst
      have hreleased := h.released_le
      rcases hcase with ⟨hroom, ht⟩ | ⟨-, rfl⟩
      · have hgrants : t.grants = s.grants ++
            [⟨⟨s.granted, call.1.toNat⟩, s.ring.buffer_ + s.granted % kBufferSize⟩] := by
          rw [ht]
        have hgranted := granted_snoc hgrants
        have hrel : t.released = s.released := by rw [ht]
        refine ⟨⟨?_, ?_⟩, ?_, ?_, ?_, ?_, ?_⟩
        · rw [ht]
          exact h.counts.tail
        · rw [hgranted, ht]
        · rw [hgranted, hgrants, List.map_append]
          exact h.tiles.snoc call.1.toNat
        · rw [hgranted, hrel]
          exact Nat.le_add_right_of_le hreleased
        · rw [hgranted, hrel]
          dsimp only
          omega
        · simp [ht]
        · intro g hg
          rw [hgrants] at hg
          rcases List.mem_append.mp hg with hold | hnew
          · rw [ht]
            exact h.addr g hold
          · obtain rfl := List.mem_singleton.mp hnew
            exact ⟨by rw [ht], by dsimp only; omega⟩
      · exact { h with pending := by simp }
  | commit n =>
    simp only [step, Option.ite_none_right_eq_some, Option.some.injEq] at hst
    obtain ⟨hn, rfl⟩ := hst
    refine ⟨h.counts.commit n, h.tiles, hn, ?_, ?_, h.addr⟩
    · have := h.fits
      simp only [granted] at this ⊢
      omega
    · intro size cur_tail hp
      obtain ⟨loaded, hle, htail, hfits⟩ := h.pending size cur_tail hp
      exact ⟨loaded, by dsimp only; omega, htail, hfits⟩

/-- The mapping stays where the constructor put it. -/
theorem buffer_step {s t : Spsc} {l : Label} (hst : step s l = some t) :
    t.ring.buffer_ = s.ring.buffer_ := by
  cases l with
  | load size =>
    simp only [step, Option.ite_none_right_eq_some, Option.some.injEq] at hst
    rw [← hst.2]
  | update =>
    simp only [step, Option.map_eq_some_iff] at hst
    obtain ⟨⟨size, cur_tail⟩, -, rfl⟩ := hst
    simp only [SPSCRingBuffer.requestFrom]
    split_ifs <;> rfl
  | commit n =>
    simp only [step, Option.ite_none_right_eq_some, Option.some.injEq] at hst
    rw [← hst.2, SPSCRingBuffer.CommitWrite]

theorem buffer_trace {s t : Spsc} {tr : List (Spsc × Label)} (h : machine.Trace s tr t) :
    t.ring.buffer_ = s.ring.buffer_ := by
  induction h with
  | nil => rfl
  | snoc _ hst ih => exact (buffer_step hst).trans ih

theorem inv_trace {s t : Spsc} {tr : List (Spsc × Label)} (h : machine.Trace s tr t)
    (hs : Inv s) : Inv t := by
  induction h with
  | nil => exact hs
  | snoc _ hst ih => exact inv_step ih hst

theorem inv_of_reachable {s : Spsc} (h : machine.Reachable s) : Inv s := by
  obtain ⟨r, tr, hr, htr⟩ := h
  exact inv_trace htr (inv_start hr)

/-- The positions in use, which fit into the memory object. -/
def Inv.window {s : Spsc} (h : Inv s) : Window kBufferSize :=
  ⟨s.released, s.granted, h.released_le, h.fits⟩

/-- Byte `k` of the region is granted and not yet released. -/
def Live (s : Spsc) (g : Grant) (k : ℕ) : Prop :=
  k < g.span.len ∧ s.released ≤ g.span.start + k

/-- The offset of byte `k` of the region in the shared memory object. -/
def cell (s : Spsc) (g : Grant) (k : ℕ) : ℕ := (g.addr - s.ring.buffer_ + k) % kBufferSize

theorem Inv.cell_eq {s : Spsc} (h : Inv s) {g : Grant} (hg : g ∈ s.grants) (k : ℕ) :
    s.cell g k = (g.span.start + k) % kBufferSize := by
  rw [cell, (h.addr g hg).1, Nat.add_sub_cancel_left, Nat.mod_add_mod]

theorem Inv.live_mem_window {s : Spsc} (h : Inv s) {g : Grant} (hg : g ∈ s.grants) {k : ℕ}
    (hk : s.Live g k) : g.span.start + k ∈ Set.Ico h.window.tail h.window.head := by
  have hstop := (h.tiles.mem_bounds (List.mem_map_of_mem hg)).2
  have := hk.1
  simp only [Span.stop] at hstop
  exact ⟨hk.2, by simp only [window]; omega⟩

theorem Inv.live_bytes_disjoint {s : Spsc} (h : Inv s) :
    s.grants.Pairwise fun g g' =>
      ∀ k k', s.Live g k → s.Live g' k' → s.cell g k ≠ s.cell g' k' := by
  have hpair := List.pairwise_map.mp h.tiles.pairwise
  refine hpair.imp_of_mem ?_
  intro g g' hg hg' hlt k k' hk hk' heq
  rw [h.cell_eq hg, h.cell_eq hg'] at heq
  have hsame := h.window.cell_injOn (h.live_mem_window hg hk) (h.live_mem_window hg' hk') heq
  have := hk.1
  simp only [Span.stop] at hlt
  omega

theorem Inv.region_in_mapping {s : Spsc} (h : Inv s) {g : Grant} (hg : g ∈ s.grants) :
    s.ring.buffer_ ≤ g.addr ∧ g.addr + g.span.len ≤ s.ring.buffer_ + 2 * kBufferSize := by
  obtain ⟨haddr, hlen⟩ := h.addr g hg
  have hlt : g.span.start % kBufferSize < kBufferSize := Nat.mod_lt _ (by decide)
  omega

/-- A pending call is granted exactly if its size is at most what the loaded tail leaves
free, it gets the region at the masked head, and a refusal changes nothing. -/
theorem Inv.update_spec {s t : Spsc} (h : Inv s) {size cur_tail : BitVec 64}
    (hp : s.pending = some (size, cur_tail)) (hst : step s .update = some t) :
    (size.toNat ≤ kBufferSize - (s.ring.head_ - cur_tail).toNat ∧
      t.grants = s.grants ++ [⟨⟨s.granted, size.toNat⟩,
        s.ring.buffer_ + (s.ring.head_ &&& BitVec.ofNat 64 kBufferSizeMask).toNat⟩]) ∨
    (¬ size.toNat ≤ kBufferSize - (s.ring.head_ - cur_tail).toNat ∧
      t = { s with pending := none }) := by
  obtain ⟨loaded, hle, rfl, hfits, hcase⟩ := h.update_cases hp hst
  have hused : (s.ring.head_ - BitVec.ofNat 64 loaded).toNat = s.granted - loaded := by
    rw [h.counts.head]
    exact Counter.toNat_sub (hle.trans h.released_le) (by rw [kBufferSize_eq] at hfits; omega)
  have hindex : (s.ring.head_ &&& BitVec.ofNat 64 kBufferSizeMask).toNat =
      s.granted % kBufferSize := by
    rw [h.counts.head, kBufferSizeMask_eq, Counter.toNat_and_mask (by decide), kBufferSize_eq]
  have := h.released_le
  rcases hcase with ⟨hroom, rfl⟩ | ⟨hroom, rfl⟩
  · exact .inl ⟨by omega, by rw [hindex]⟩
  · exact .inr ⟨by omega, rfl⟩

/-- The ring is never over-full, its regions lie in the double mapping, those in use are
disjoint, and a request is granted exactly if it fits what its loaded tail leaves free. -/
theorem ring_invariant {s : Spsc} (h : machine.Reachable s) :
    (s.ring.head_ - s.ring.tail_).toNat ≤ kBufferSize ∧
    (∀ g ∈ s.grants,
      s.ring.buffer_ ≤ g.addr ∧ g.addr + g.span.len ≤ s.ring.buffer_ + 2 * kBufferSize) ∧
    (s.grants.Pairwise fun g g' =>
      ∀ k k', s.Live g k → s.Live g' k' → s.cell g k ≠ s.cell g' k') ∧
    ∀ size cur_tail t, s.pending = some (size, cur_tail) → step s .update = some t →
      (size.toNat ≤ kBufferSize - (s.ring.head_ - cur_tail).toNat ∧
        t.grants = s.grants ++ [⟨⟨s.granted, size.toNat⟩,
          s.ring.buffer_ + (s.ring.head_ &&& BitVec.ofNat 64 kBufferSizeMask).toNat⟩]) ∨
      (¬ size.toNat ≤ kBufferSize - (s.ring.head_ - cur_tail).toNat ∧
        t = { s with pending := none }) := by
  have hinv := inv_of_reachable h
  refine ⟨?_, fun g hg => hinv.region_in_mapping hg, hinv.live_bytes_disjoint,
    fun size cur_tail t hp hst => hinv.update_spec hp hst⟩
  have := hinv.fits
  rw [hinv.counts.toNat_sub hinv.released_le hinv.fits]
  omega

/-- A run that fills the ring to the last byte after part of the first region was released;
the second region crosses the end of the first mapping. -/
def fillRing : List Label :=
  [.load 100, .update, .load 8388548, .commit 40, .update, .load 8388548, .update]

theorem ring_invariant_full :
    let s : Spsc :=
      { ring := { tail_ := 40, head_ := 8388648, buffer_ := 4096 }
        grants := [⟨⟨0, 100⟩, 4096⟩, ⟨⟨100, 8388548⟩, 4196⟩]
        released := 40 }
    (s.ring.head_ - s.ring.tail_).toNat ≤ kBufferSize ∧
    (s.grants.Pairwise fun g g' =>
      ∀ k k', s.Live g k → s.Live g' k' → s.cell g k ≠ s.cell g' k') := by
  intro s
  have hrun : machine.run { ring := .construct 0 } fillRing = some s := by rfl
  have h := ring_invariant (.of_run ⟨0, rfl, rfl⟩ hrun)
  exact ⟨h.1, h.2.2.1⟩

end Spsc

end QStorage.Db
