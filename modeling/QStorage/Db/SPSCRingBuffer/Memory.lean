import QStorage.Db.SPSCRingBuffer.Mapping

/-!
# The bytes behind the ring (`db/sp_ring_buffer.h`)

The constructor's double mapping and the counters of `RequestWriteSpace` and `CommitWrite` belong
together: an address that a grant gives out runs across the end of the first mapping without a
break. `Bytes` joins the two, with stores through the granted addresses. Seen from outside, the
ring is a stream of bytes without end, of which a window can be read.

## Main results

* `Bytes.reads_back` — what was stored and is not yet released is read back, as one run of
  addresses, and nothing faults.
-/

namespace QStorage.Db

open QStorage.Lib SPSCRingBuffer

namespace Spsc

instance (s : Spsc) (g : Grant) (k : ℕ) : Decidable (s.Live g k) :=
  inferInstanceAs (Decidable (_ ∧ _))

/-- Neither count goes back. -/
theorem counts_step {s t : Spsc} {l : Label} (hst : step s l = some t) :
    s.released ≤ t.released ∧ s.granted ≤ t.granted := by
  cases l with
  | load size =>
    simp only [step, Option.ite_none_right_eq_some, Option.some.injEq] at hst
    obtain ⟨-, rfl⟩ := hst
    exact ⟨le_rfl, le_rfl⟩
  | update =>
    simp only [step, Option.map_eq_some_iff] at hst
    obtain ⟨⟨size, cur_tail⟩, -, rfl⟩ := hst
    cases hreq : s.ring.requestFrom cur_tail size with
    | none => exact ⟨le_rfl, le_rfl⟩
    | some p =>
      have hgranted : (s.finish size (some p)).granted = s.granted + size.toNat := by
        simp [finish, granted]
      exact ⟨le_rfl, hgranted ▸ Nat.le_add_right ..⟩
  | commit n =>
    simp only [step, Option.ite_none_right_eq_some, Option.some.injEq] at hst
    obtain ⟨-, rfl⟩ := hst
    exact ⟨Nat.le_add_right .., le_rfl⟩

end Spsc

/-- The ring and the memory that it stands in. `stream` is what was stored at each position. -/
structure Bytes where
  spsc : Spsc
  memory : Memory
  stream : ℕ → Option (BitVec 8) := fun _ => none

namespace Bytes

/-- A step of the ring, or a store to byte `k` of the `n`-th granted region. -/
inductive Label where
  | ring (l : Spsc.Label)
  | store (n k : ℕ) (b : BitVec 8)

/-- A region is written while it is in use. A store that faults is no step. -/
def step (s : Bytes) : Label → Option Bytes
  | .ring l => (s.spsc.step l).map fun spsc => { s with spsc := spsc }
  | .store n k b =>
    s.spsc.grants[n]?.bind fun g =>
      if s.spsc.Live g k then
        (s.memory.store (g.addr + k) b).map fun memory =>
          { s with
            memory := memory
            stream := Function.update s.stream (g.span.start + k) (some b) }
      else none

/-- A constructor has returned, whatever the answers of the system were. -/
def machine : Machine Bytes Label where
  start s := ∃ (os : Os) (a : Answers), a.fd ∉ os.fds.map Prod.fst ∧
    os.space.Free a.raw_space cap ∧ a.raw_space % kPageSize = 0 ∧
    (constructor os a).2 = .ok s.spsc.ring.buffer_ ∧
    s.memory.space = (constructor os a).1.space ∧
    s.spsc = { ring := .construct a.raw_space } ∧ s.stream = fun _ => none
  step := step

/-- The address stands for the cell of position `p`, in the first mapping or the second. -/
def Stands (s : Bytes) (p x : ℕ) : Prop :=
  ∃ i < 2 * kBufferSize, x = s.spsc.ring.buffer_ + i ∧ i % kBufferSize = p % kBufferSize

/-- The invariant: bytes in use are read back at both of their addresses. -/
structure Inv (s : Bytes) (obj : ℕ) : Prop where
  ring : s.spsc.Inv
  twice : ∀ p x, s.Stands p x → s.memory.space x = some (.shared obj (p % kBufferSize))
  kept : ∀ p x b, s.spsc.released ≤ p → s.stream p = some b → s.Stands p x →
    s.memory.load x = some b
  granted : ∀ p b, s.stream p = some b → p < s.spsc.granted

variable {s t : Bytes} {obj : ℕ}

theorem inv_start (hs : machine.start s) : ∃ obj, Inv s obj := by
  obtain ⟨os, a, hnew, hfree, -, hret, hspace, hspsc, hstream⟩ := hs
  have hbuffer : s.spsc.ring.buffer_ = base a := by
    rw [hspsc]
    rfl
  obtain ⟨obj, o, -, -, hbuilt⟩ | ⟨⟨text, hthrow⟩, -⟩ := constructor_spec hnew hfree
  · refine ⟨obj, hspsc ▸ Spsc.inv_construct a.raw_space, ?_, ?_, ?_⟩
    · rintro p _ ⟨i, hi, rfl, hcell⟩
      rw [hspace, hbuffer, hbuilt.mapped _ (Nat.le_add_right ..) (by omega),
        Nat.add_sub_cancel_left, hcell]
    · intro p x b _ hp
      simp [hstream] at hp
    · intro p b hp
      simp [hstream] at hp
  · rw [hthrow] at hret
    cases hret

/-- Byte `k` of a region stands at its address in a row, past the end of the first mapping too. -/
theorem Inv.stands (h : Inv s obj) {g : Grant} (hg : g ∈ s.spsc.grants) {k : ℕ}
    (hk : k < g.span.len) : s.Stands (g.span.start + k) (g.addr + k) := by
  obtain ⟨haddr, hlen⟩ := h.ring.addr g hg
  have hlt : g.span.start % kBufferSize < kBufferSize := Nat.mod_lt _ (by decide)
  exact ⟨g.span.start % kBufferSize + k, by omega, by rw [haddr, Nat.add_assoc],
    Nat.mod_add_mod ..⟩

theorem Inv.ring_step (h : Inv s obj) {l : Spsc.Label} {spsc : Spsc}
    (hst : s.spsc.step l = some spsc) : Inv { s with spsc := spsc } obj := by
  have hbuffer := Spsc.buffer_step hst
  obtain ⟨hreleased, hgranted⟩ := Spsc.counts_step hst
  have hstands {p x : ℕ} (hx : Stands { s with spsc := spsc } p x) : s.Stands p x := by
    obtain ⟨i, hi, heq, hcell⟩ := hx
    exact ⟨i, hi, heq.trans (by rw [hbuffer]), hcell⟩
  exact ⟨Spsc.inv_step h.ring hst, fun p x hx => h.twice p x (hstands hx),
    fun p x b hp hb hx => h.kept p x b (hreleased.trans hp) hb (hstands hx),
    fun p b hb => (h.granted p b hb).trans_le hgranted⟩

theorem Inv.store_step (h : Inv s obj) {g : Grant} (hg : g ∈ s.spsc.grants) {k : ℕ}
    (hk : s.spsc.Live g k) {b : BitVec 8} {memory : Memory}
    (hst : s.memory.store (g.addr + k) b = some memory) :
    Inv { s with
      memory := memory
      stream := Function.update s.stream (g.span.start + k) (some b) } obj := by
  have hlive := h.ring.live_mem_window hg hk
  have hspace := h.twice _ _ (h.stands hg hk.1)
  refine ⟨h.ring, ?_, ?_, ?_⟩
  · intro p x hx
    rw [Memory.store_space hst]
    exact h.twice p x hx
  · intro p x b' hp hb hx
    have hx' := h.twice p x hx
    by_cases heq : p = g.span.start + k
    · subst heq
      obtain rfl : b = b' := by simpa using hb
      exact Memory.load_store_of_eq hst (hx'.trans hspace.symm)
    · have hold : s.stream p = some b' := by simpa [Function.update_of_ne heq] using hb
      have hne : p % kBufferSize ≠ (g.span.start + k) % kBufferSize := fun hcell =>
        heq (h.ring.window.cell_injOn ⟨hp, h.granted p b' hold⟩ hlive hcell)
      have hload := Memory.load_store_of_ne hst (y := x) (by simpa [hx', hspace] using hne)
      exact hload.trans (h.kept p x b' hp hold hx)
  · intro p b' hb
    by_cases heq : p = g.span.start + k
    · exact heq ▸ hlive.2
    · exact h.granted p b' (by simpa [Function.update_of_ne heq] using hb)

theorem inv_step (h : Inv s obj) {l : Label} (hst : machine.step s l = some t) : Inv t obj := by
  cases l with
  | ring l =>
    obtain ⟨spsc, hspsc, rfl⟩ := Option.map_eq_some_iff.mp hst
    exact h.ring_step hspsc
  | store n k b =>
    obtain ⟨g, hg, hst⟩ := Option.bind_eq_some_iff.mp hst
    obtain ⟨hk, hst⟩ := Option.ite_none_right_eq_some.mp hst
    obtain ⟨memory, hmemory, rfl⟩ := Option.map_eq_some_iff.mp hst
    exact h.store_step (List.mem_of_getElem? hg) hk hmemory

theorem inv_of_reachable (h : machine.Reachable s) : ∃ obj, Inv s obj := by
  induction h using Machine.Reachable.induction with
  | init s hs => exact inv_start hs
  | next s l t _ hst ih =>
    obtain ⟨obj, h⟩ := ih
    exact ⟨obj, inv_step h hst⟩

/-- In every reachable state the ring reads as a stream. A run of stored positions in use is read
back from the masked address of the first on, past the end of the first mapping too; and a store
to a byte of a region in use does not fault. -/
theorem reads_back (h : machine.Reachable s) :
    (∀ p (bs : List (BitVec 8)), s.spsc.released ≤ p →
      (∀ i < bs.length, s.stream (p + i) = bs[i]?) →
      (List.range bs.length).map
        (fun i => s.memory.load (s.spsc.ring.buffer_ + p % kBufferSize + i)) = bs.map some) ∧
    ∀ n g k b, s.spsc.grants[n]? = some g → s.spsc.Live g k →
      (s.step (.store n k b)).isSome = true := by
  obtain ⟨obj, hinv⟩ := inv_of_reachable h
  refine ⟨fun p bs hp hbs => ?_, fun n g k b hg hk => ?_⟩
  · have hlen : bs.length ≤ kBufferSize := by
      cases hn : bs.length with
      | zero => exact Nat.zero_le _
      | succ n =>
        have hn : n < bs.length := by omega
        have hlast := hinv.granted (p + n) bs[n] (by simpa [hn] using hbs n hn)
        have := hinv.ring.fits
        omega
    refine List.ext_getElem (by simp) fun i hi _ => ?_
    have hi : i < bs.length := by simpa using hi
    have hlt : p % kBufferSize < kBufferSize := Nat.mod_lt _ (by decide)
    have hstands : s.Stands (p + i) (s.spsc.ring.buffer_ + p % kBufferSize + i) :=
      ⟨p % kBufferSize + i, by omega, by rw [Nat.add_assoc], Nat.mod_add_mod ..⟩
    simpa using hinv.kept (p + i) _ bs[i] (by omega) (by simpa [hi] using hbs i hi) hstands
  · have hstands := hinv.twice _ _ (hinv.stands (List.mem_of_getElem? hg) hk.1)
    have hstore := Memory.store_isSome (b := b) hstands
    simp only [step, hg, Option.bind_some, if_pos hk, Option.isSome_map]
    exact hstore

/-- The ring of a constructor whose calls all succeed. -/
def fresh : Bytes where
  spsc := { ring := .construct RingProcess.granted.raw_space }
  memory :=
    { space := (constructor RingProcess.idle.os RingProcess.granted).1.space
      bytes := fun _ _ => 0 }

theorem fresh_start : machine.start fresh := by
  refine ⟨RingProcess.idle.os, RingProcess.granted, ?_, ?_, ?_, ?_, ?_, ?_, ?_⟩
  · simp [RingProcess.idle]
  · exact fun _ _ _ => rfl
  · decide
  · rfl
  · rw [fresh]
  · rfl
  · rfl

/-- A second region that crosses the end of the first mapping, and the bytes on either side. -/
def crossRun : List Label :=
  [.ring (.load 8388600), .ring .update, .ring (.commit 8388600), .ring (.load 16), .ring .update,
    .store 1 7 1, .store 1 8 2]

theorem reads_back_cross : ∃ s, machine.run fresh crossRun = some s ∧
    [s.memory.load (s.spsc.ring.buffer_ + 8388607),
      s.memory.load (s.spsc.ring.buffer_ + 8388608)] = [some 1, some 2] := by
  have hrun : (machine.run fresh crossRun).any (fun s => s.spsc.released ≤ 8388607 ∧
      s.stream 8388607 = some 1 ∧ s.stream 8388608 = some 2) = true := by rfl
  obtain ⟨s, hs, hreleased, hfirst, hsecond⟩ := Machine.exists_of_run hrun
  refine ⟨s, hs, (reads_back (.of_run fresh_start hs)).1 8388607 [1, 2] hreleased ?_⟩
  intro i hi
  match i, hi with
  | 0, _ => exact hfirst
  | 1, _ => exact hsecond

end Bytes

end QStorage.Db
