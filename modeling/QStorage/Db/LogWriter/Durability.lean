import QStorage.Db.LogWriter.Blocks
import QStorage.Db.LogWriter.Invariant

/-!
# Durability of a group

The leader writes its group from the block of its own region on, with the length of the group
rounded up to blocks and cut to 16 bits. The bytes of a member are in that write if it copied
them before the leader left the spin, and if the range, which does not count the bytes between
the start of the block and the region, is long enough.

## Main results

* `LogWriter.Inv.region_in_group` — the regions of a group lie in the stretch the leader describes.
* `LogWriter.durable` — a writer returns with its bytes on disk in runs that meet `State.Safe`.
-/

namespace QStorage.Db.LogWriter

open QStorage.Lib QStorage.Infra

/-- Every byte of the region of writer `i` lies in the range of a write that was submitted after
the writer's copy and that the kernel has transferred in full. -/
def State.Durable (s : State) (i : ℕ) : Prop :=
  let c := s.coros i
  ∀ a, c.task.addr_ ≤ a → a < c.task.addr_ + c.size.toNat → ∃ k write,
    s.writes[k]? = some write ∧ c.stamp ≤ k ∧ write.res_ = some (write.req.size_ : ℤ) ∧
      write.req.addr_ ≤ a ∧ a < write.req.addr_ + write.req.size_

/-- A leader that has left the spin. -/
def Pc.left : Pc → Bool
  | .commit _ | .returned => true
  | _ => false

/-- A leader whose write is complete. -/
def Pc.posted : Pc → Bool
  | .commit posted => posted
  | .returned => true
  | _ => false

theorem Pc.left_place (pc : Pc) : pc.place.left = pc.left := by cases pc <;> rfl
theorem Pc.posted_place (pc : Pc) : pc.place.posted = pc.posted := by cases pc <;> rfl
theorem Pc.place_eq_granted {pc : Pc} : pc.place = .granted ↔ pc = .granted := by
  cases pc <;> simp [Pc.place]

/-- A writer copies before its leader leaves the spin; when the leader does, the group ends
within its length rounded up and cut to 16 bits, counted from the start of the leader's block;
and, as assumed of the kernel, writes are transferred in full. -/
def State.Safe (s : State) : Label → Prop
  | .copy i _ => (s.coros (s.coros i).leader).pc.left = false
  | .leave i => (s.coros i).task.addr_ % kBlockSize + (s.bank i).len ≤
      State.alignUp ((s.bank i).len + 6) % 2 ^ 16
  | .ioComplete i res => ∀ write ∈ s.writes[(s.coros i).wr]?, res = write.req.size_
  | _ => True

instance (s : State) : (l : Label) → Decidable (s.Safe l)
  | .copy i _ => inferInstanceAs (Decidable ((s.coros (s.coros i).leader).pc.left = false))
  | .leave i => inferInstanceAs (Decidable ((s.coros i).task.addr_ % kBlockSize +
      (s.bank i).len ≤ State.alignUp ((s.bank i).len + 6) % 2 ^ 16))
  | .ioComplete i res =>
    inferInstanceAs (Decidable (∀ write ∈ s.writes[(s.coros i).wr]?, res = write.req.size_))
  | .call .. | .lock _ | .memoryResume _ | .leaderComplete .. | .leaderResume ..
  | .leaderFinish _ | .followerComplete _ | .followerResume _ => .isTrue trivial

variable {host : Endian} {s t : State} {i j : ℕ}

/-! ## The bytes of a group -/

/-- A byte of a member lies in the stretch of `len` bytes from the leader's region on. -/
theorem Inv.region_in_group (h : Inv s) {rest : List ℕ} (hm : s.members 0 = i :: rest)
    (hj : j ∈ s.members 0) {a : ℕ} (hge : (s.coros j).task.addr_ ≤ a)
    (hlt : a < (s.coros j).task.addr_ + (s.coros j).size.toNat) :
    (s.coros i).task.addr_ ≤ a ∧ a < (s.coros i).task.addr_ + (s.w.writers_ 0).len := by
  obtain ⟨htiles, htotal⟩ := h.members_tile hm
  obtain ⟨hfrom, hto⟩ := htiles.mem_bounds (List.mem_map_of_mem hj)
  have hfits := h.fits
  simp only [State.region, Span.stop] at hfrom hto
  have hposj : (s.coros j).pos % kBufferSize = (s.coros j).pos := Nat.mod_eq_of_lt (by omega)
  have hposi : (s.coros i).pos % kBufferSize = (s.coros i).pos := Nat.mod_eq_of_lt (by omega)
  rw [h.addr j (h.mem_granted hj), hposj] at hge hlt
  rw [h.addr i (h.mem_granted (by simp [hm])), hposi]
  omega

/-! ## What the leaders have written -/

/-- The write of leader `l` holds the bytes of member `c`, and its result is in once the kernel
has posted it. -/
def CoveredBy (writes : List Write) (c l : Coro) : Prop :=
  c.stamp ≤ l.wr ∧ ∃ write, writes[l.wr]? = some write ∧
    (∀ a, c.task.addr_ ≤ a → a < c.task.addr_ + c.size.toNat →
      write.req.addr_ ≤ a ∧ a < write.req.addr_ + write.req.size_) ∧
    (l.pc.posted = true → write.res_ = some (write.req.size_ : ℤ))

/-- The follower may return, or has. -/
def Pc.released : Pc → Bool
  | .followerWait released => released
  | .returned => true
  | _ => false

/-- The invariant of safe runs. -/
structure Covered (s : State) : Prop extends Inv s where
  stamp_le : ∀ i, (s.coros i).stamp ≤ s.writes.length
  covered : ∀ i ∈ s.granted, (s.coros i).pc ≠ .granted →
    (s.coros (s.coros i).leader).pc.left = true →
    CoveredBy s.writes (s.coros i) (s.coros (s.coros i).leader)
  released : ∀ i, (s.coros i).pc.released = true → (s.coros (s.coros i).leader).pc = .returned

/-- A move that neither copies nor writes nor returns. -/
structure Coro.Inert (c c' : Coro) : Prop where
  stamp : c'.stamp = c.stamp
  wr : c'.wr = c.wr
  left : c'.pc.left = c.pc.left
  posted : c'.pc.posted = c.pc.posted
  granted : c'.pc = .granted ↔ c.pc = .granted
  released : c'.pc.released = c.pc.released

theorem update_stamp {c : Coro} (hcoros : t.coros = Function.update s.coros i c)
    (hc : c.stamp = (s.coros i).stamp) (j : ℕ) : (t.coros j).stamp = (s.coros j).stamp := by
  rw [hcoros]
  by_cases hj : j = i
  · subst hj
    rwa [Function.update_self]
  · rw [Function.update_of_ne hj]

theorem inert_update {c : Coro} (hcoros : t.coros = Function.update s.coros i c)
    (hc : (s.coros i).Inert c) (j : ℕ) : (s.coros j).Inert (t.coros j) := by
  rw [hcoros]
  by_cases hj : j = i
  · subst hj
    rwa [Function.update_self]
  · rw [Function.update_of_ne hj]
    exact ⟨rfl, rfl, rfl, rfl, .rfl, rfl⟩

/-- A writer that is released, or whose leader has left, has a region. -/
theorem Inv.granted_of_released (h : Inv s) (hi : (s.coros i).pc.released = true) :
    i ∈ s.granted := by
  rw [h.held]
  cases hpc : (s.coros i).pc <;> simp [hpc, Pc.released, Pc.holds] at hi ⊢

theorem Covered.released_quiet (h : Covered s) (q : Quiet s t)
    (hi : (s.coros i).pc.released = true) : (t.coros (t.coros i).leader).pc = .returned := by
  rw [(q.same h.toInv (h.granted_of_released hi)).2.2.1]
  exact (q.moves _).stays (h.released i hi)

theorem Covered.inert (h : Covered s) (q : Quiet s t) (hwrites : t.writes = s.writes)
    (hinert : ∀ j, (s.coros j).Inert (t.coros j)) : Covered t := by
  refine ⟨q.inv h.toInv, fun j => ?_, fun j hj hpc hleft => ?_, fun j hj => ?_⟩
  · rw [(hinert j).stamp, hwrites]
    exact h.stamp_le j
  · rw [q.granted] at hj
    obtain ⟨hsize, htask, hleader, -⟩ := q.same h.toInv hj
    rw [hleader] at hleft ⊢
    have hold := h.covered j hj (mt (hinert j).granted.mpr hpc) ((hinert _).left ▸ hleft)
    unfold CoveredBy at hold ⊢
    rwa [(hinert j).stamp, htask, hsize, (hinert _).wr, (hinert _).posted, hwrites]
  · rw [(hinert j).released] at hj
    exact h.released_quiet q hj

/-- A quiet step of writer `i`, which may copy or write. -/
theorem Covered.move (h : Covered s) (q : Quiet s t) {c : Coro}
    (hcoros : t.coros = Function.update s.coros i c) (hlen : s.writes.length ≤ t.writes.length)
    (hstamp : c.stamp ≤ t.writes.length)
    (hreleased : c.pc.released = true → (s.coros i).pc.released = true)
    (hcovered : ∀ j ∈ s.granted, (t.coros j).pc ≠ .granted →
      (t.coros (s.coros j).leader).pc.left = true →
      CoveredBy t.writes (t.coros j) (t.coros (s.coros j).leader)) : Covered t := by
  refine ⟨q.inv h.toInv, fun j => ?_, fun j hj hpc hleft => ?_, fun j hj => ?_⟩
  · rw [hcoros]
    by_cases hji : j = i
    · subst hji
      rwa [Function.update_self]
    · rw [Function.update_of_ne hji]
      exact (h.stamp_le j).trans hlen
  · rw [q.granted] at hj
    obtain ⟨-, -, hleader, -⟩ := q.same h.toInv hj
    rw [hleader] at hleft ⊢
    exact hcovered j hj hpc hleft
  · rw [hcoros] at hj
    refine h.released_quiet q ?_
    by_cases hji : j = i
    · subst hji
      rw [Function.update_self] at hj
      exact hreleased hj
    · rwa [Function.update_of_ne hji] at hj

/-- The leader is still in the spin, so that its write is to come. -/
theorem Covered.copy (h : Covered s) {bytes : ℕ → BitVec 8} (hpc : (s.coros i).pc = .granted)
    (hleader : (s.coros (s.coros i).leader).pc.left = false) : Covered (s.copy i bytes) := by
  have hself : (s.copy i bytes).coros i =
      { s.coros i with pc := .copied, stamp := s.writes.length } := Function.update_self _ _ _
  have hother {j : ℕ} (hj : j ≠ i) : (s.copy i bytes).coros j = s.coros j :=
    Function.update_of_ne hj _ _
  refine h.move (h.copy_calm hpc).toQuiet rfl (Nat.le_refl _) (Nat.le_refl _) nofun
    fun j hj hpcj hleft => ?_
  have hli : (s.coros j).leader ≠ i := by
    intro hli
    rw [hli, hself] at hleft
    cases hleft
  rw [hother hli] at hleft ⊢
  have hji : j ≠ i := by
    rintro rfl
    simp [hleader] at hleft
  rw [hother hji] at hpcj ⊢
  exact h.covered j hj hpcj hleft

/-- The write holds the bytes of the members that have copied. -/
theorem Covered.leave (h : Covered s) (hpc : (s.coros i).pc = .spin)
    (hfits : (s.coros i).task.addr_ % kBlockSize + (s.w.writers_ 0).len ≤
      State.alignUp ((s.w.writers_ 0).len + 6) % 2 ^ 16) : Covered (s.leave i) := by
  have q := (h.leave_calm hpc).toQuiet
  have hcoros : (s.leave i).coros = Function.update s.coros i
      { s.coros i with pc := .commit false, wr := s.writes.length } := rfl
  have hself := congrFun hcoros i
  rw [Function.update_self] at hself
  have hother {j : ℕ} (hj : j ≠ i) : (s.leave i).coros j = s.coros j :=
    Function.update_of_ne hj _ _
  have hwrites : (s.leave i).writes = s.writes ++
      [{ req := s.groupReq (s.coros i).task.addr_ (s.w.writers_ 0).len }] := by
    rw [← h.bank_eq i]
    rfl
  have hlen : s.writes.length ≤ (s.leave i).writes.length := by simp [hwrites]
  refine h.move q hcoros hlen ((h.stamp_le i).trans hlen) nofun fun j hj hpcj hleft => ?_
  obtain ⟨hsize, htask, -, -⟩ := q.same h.toInv hj
  have hstamp := update_stamp hcoros rfl j
  unfold CoveredBy
  rw [hstamp, htask, hsize, hwrites]
  by_cases hli : (s.coros j).leader = i
  · -- the group of `i`: the range starts in the block of its region
    rw [hli, hself]
    obtain ⟨rest, hm⟩ := h.members_cons (i := i) (by rw [hpc]; rfl)
    have hmem := h.mem_of_open hj (by rw [hli, hpc]; simp)
    refine ⟨h.stamp_le j, _, List.getElem?_concat_length, fun a hge hlt => ?_, nofun⟩
    obtain ⟨hfrom, hto⟩ := h.region_in_group hm hmem hge hlt
    have haddr := alignDown_add_mod (s.coros i).task.addr_
    simp only [State.groupReq, State.commitReq]
    omega
  · rw [hother hli] at hleft ⊢
    obtain ⟨hle, write, hwrite, hrange, hres⟩ :=
      h.covered j hj (pc_ne_of_update rfl (by simp [hpc]) hpcj) hleft
    have hlt := (List.getElem?_eq_some_iff.mp hwrite).1
    exact ⟨hle, write, by rw [List.getElem?_append_left hlt, hwrite], hrange, hres⟩

/-- The kernel fills in the result of the leader's own write. -/
theorem Covered.ioComplete (h : Covered s) {write : Write} (hpc : (s.coros i).pc = .commit false)
    (hwrite : s.writes[(s.coros i).wr]? = some write) :
    Covered (s.ioComplete i write write.req.size_) := by
  have q : Quiet s (s.ioComplete i write write.req.size_) := (h.ioComplete_calm hpc).toQuiet
  have hcoros := s.ioComplete_coros i write write.req.size_
  have hself := s.ioComplete_self i write write.req.size_
  have hother {j : ℕ} (hj : j ≠ i) := s.ioComplete_of_ne i write write.req.size_ hj
  have hkeep (j : ℕ) : ((s.ioComplete i write write.req.size_).coros j).wr = (s.coros j).wr ∧
      ((s.ioComplete i write write.req.size_).coros j).pc.left = (s.coros j).pc.left := by
    by_cases hji : j = i
    · subst hji
      rw [hself]
      simp [hpc, Pc.left]
    · rw [hother hji]
      exact ⟨rfl, rfl⟩
  have hwrites := s.ioComplete_writes i write write.req.size_
  have hlen : s.writes.length ≤ (s.ioComplete i write write.req.size_).writes.length := by
    simp [hwrites]
  refine h.move q hcoros hlen ((h.stamp_le i).trans hlen) nofun fun j hj hpcj hleft => ?_
  obtain ⟨hsize, htask, -, -⟩ := q.same h.toInv hj
  have hstamp := update_stamp hcoros rfl j
  obtain ⟨hle, found, hfound, hrange, hres⟩ := h.covered j hj
    (pc_ne_of_update rfl (by simp [hpc]) hpcj) ((hkeep _).2 ▸ hleft)
  unfold CoveredBy
  rw [hstamp, (hkeep _).1, htask, hsize, hwrites]
  by_cases hwr : (s.coros (s.coros j).leader).wr = (s.coros i).wr
  · rw [hwr] at hfound hle ⊢
    obtain rfl : write = found := Option.some.inj (hwrite.symm.trans hfound)
    have hlt := (List.getElem?_eq_some_iff.mp hwrite).1
    exact ⟨hle, _, List.getElem?_set_self hlt, hrange, fun _ => rfl⟩
  · rw [List.getElem?_set_ne (Ne.symm hwr)]
    refine ⟨hle, found, hfound, hrange, fun hposted => hres ?_⟩
    rwa [hother fun hli => hwr (by rw [hli])] at hposted

theorem Covered.followerResume (h : Covered s) (hpc : (s.coros i).pc = .followerWait true) :
    Covered (s.goto i .returned) := by
  have hself : (s.goto i .returned).coros i = { s.coros i with pc := .returned } :=
    Function.update_self _ _ _
  have hother {j : ℕ} (hj : j ≠ i) : (s.goto i .returned).coros j = s.coros j :=
    Function.update_of_ne hj _ _
  refine h.move (h.followerResume_calm hpc).toQuiet rfl (Nat.le_refl _) (h.stamp_le i)
    (fun _ => by rw [hpc]; rfl) fun j hj hpcj hleft => ?_
  -- nobody is led by a follower
  have hli : (s.coros j).leader ≠ i := by
    intro hli
    have hlead : (s.coros (s.coros j).leader).task.is_leader_ = true :=
      h.leader_leads (h.mem_of_open hj (by rw [hli, hpc]; simp))
    rw [hli, h.following i (by rw [hpc]; rfl)] at hlead
    cases hlead
  rw [hother hli] at hleft ⊢
  have hold := h.covered j hj (pc_ne_of_update rfl (by simp [hpc]) hpcj) hleft
  by_cases hji : j = i
  · subst hji
    rw [hself]
    exact hold
  · rwa [hother hji]

theorem Covered.granting (h : Covered s) (hpc : (s.coros i).pc = .lockWait)
    (hlock : s.w.lock_ = false) (hroom : s.total + (s.coros i).size.toNat ≤ kBufferSize) :
    Covered (s.granting i) := by
  have hold {j : ℕ} (hj : j ∈ s.granted) := h.granting_coros hpc hj
  have hother {j : ℕ} (hj : j ≠ i) : (s.granting i).coros j = s.coros j :=
    Function.update_of_ne hj _ _
  refine ⟨h.toInv.granting hpc hlock hroom, fun j => ?_, fun j hj hpcj hleft => ?_,
    fun j hj => ?_⟩
  · by_cases hji : j = i
    · subst hji
      simpa [State.granting] using h.stamp_le j
    · rw [hother hji]
      exact h.stamp_le j
  · have hji : j ≠ i := by
      rintro rfl
      simp [State.granting] at hpcj
    have hgranted : j ∈ s.granted := by
      rcases List.mem_append.mp (show j ∈ s.granted ++ [i] from hj) with hmem | hmem
      · exact hmem
      · exact absurd (by simpa using hmem) hji
    rw [hold hgranted, hold (h.leader_granted hgranted)] at *
    exact h.covered j hgranted hpcj hleft
  · have hji : j ≠ i := by
      rintro rfl
      simp [State.granting, Pc.released] at hj
    rw [hother hji] at hj ⊢
    rw [hold (h.leader_granted (h.granted_of_released hj))]
    exact h.released j hj

theorem Covered.finish (h : Covered s) (hpc : (s.coros i).pc = .commit true) :
    Covered (s.finish i) := by
  have hkeep (j : ℕ) : (s.finishCoro i j).pc.left = (s.coros j).pc.left ∧
      (s.finishCoro i j).pc.posted = (s.coros j).pc.posted ∧
      ((s.finishCoro i j).pc = .granted ↔ (s.coros j).pc = .granted) := by
    by_cases hji : j = i
    · subst hji
      simp [hpc, Pc.left, Pc.posted]
    · have hplace := s.finishCoro_place hji
      rw [← Pc.left_place, ← Pc.posted_place, ← Pc.place_eq_granted, hplace, Pc.left_place,
        Pc.posted_place, Pc.place_eq_granted]
      exact ⟨rfl, rfl, .rfl⟩
  have hinv := h.toInv.finish hpc
  have hcoros : (s.finish i).coros = s.finishCoro i := by rw [h.finish_eq]
  have hgranted : (s.finish i).granted = s.granted := by rw [h.finish_eq]
  have hwrites : (s.finish i).writes = s.writes := by rw [h.finish_eq]
  refine ⟨hinv, fun j => ?_, fun j hj hpcj hleft => ?_, fun j hj => ?_⟩
  · rw [hcoros, hwrites, s.finishCoro_stamp]
    exact h.stamp_le j
  · rw [hgranted] at hj
    rw [hcoros, s.finishCoro_leader] at hleft ⊢
    rw [hcoros] at hpcj
    rw [(hkeep _).1] at hleft
    have hold := h.covered j hj (mt (hkeep j).2.2.mpr hpcj) hleft
    unfold CoveredBy at hold ⊢
    simpa only [hwrites, s.finishCoro_stamp, s.finishCoro_task, s.finishCoro_size,
      s.finishCoro_wr, (hkeep _).2.1] using hold
  · have hmem := hinv.granted_of_released hj
    rw [hgranted] at hmem
    rw [hcoros, s.finishCoro_leader]
    by_cases hret : (s.coros (s.coros j).leader).pc = .returned
    · exact s.finishCoro_returned hret
    · -- the followers that are released now are members of the group of `i`
      have hgroup := h.mem_of_open hmem hret
      rw [(h.head_eq ((h.held i).mpr (by rw [hpc]; rfl)) (h.leading i (by rw [hpc]; rfl))
        (by simp [hpc])).2 j hgroup]
      exact s.finishCoro_self i

theorem Covered.step {l : Label} (h : Covered s) (hsafe : s.Safe l)
    (hst : (machine host).step s l = some t) : Covered t := by
  cases h.steps hst with
  | call hpc =>
    refine h.inert (h.call_calm hpc).toQuiet rfl (inert_update rfl ⟨rfl, rfl, ?_, ?_, ?_, ?_⟩) <;>
      simp [hpc, Pc.left, Pc.posted, Pc.released]
  | grant hpc hlock hroom => exact h.granting hpc hlock hroom
  | @refuse i n task _ hpc hn htask hfull =>
    have hheld : (s.coros i).pc.holds = false := by
      rcases hpc with ⟨-, hpc⟩ | ⟨-, hpc⟩ <;> rw [hpc] <;> rfl
    refine h.inert (h.refusing_quiet hheld htask hfull) rfl
      (inert_update rfl ⟨rfl, rfl, ?_, ?_, ?_, ?_⟩) <;>
      rcases hpc with ⟨-, hpc⟩ | ⟨-, hpc⟩ <;> simp [hpc, Pc.left, Pc.posted, Pc.released]
  | copy hpc => exact h.copy hpc hsafe
  | leaderWait hpc hlead =>
    refine h.inert (h.leaderWait_calm hpc hlead).toQuiet rfl
      (inert_update rfl ⟨rfl, rfl, ?_, ?_, ?_, ?_⟩) <;>
      simp [hpc, Pc.left, Pc.posted, Pc.released]
  | lead hpc hlead =>
    have hpc := hpc.imp And.right And.right
    refine h.inert (h.lead_calm hpc hlead).toQuiet rfl
      (inert_update rfl ⟨rfl, rfl, ?_, ?_, ?_, ?_⟩) <;>
      rcases hpc with hpc | hpc <;> simp [hpc, Pc.left, Pc.posted, Pc.released]
  | @leave i hpc _ =>
    simp only [State.Safe, h.bank_eq i] at hsafe
    exact h.leave hpc hsafe
  | ioComplete hpc hwrite _ =>
    obtain rfl := hsafe _ hwrite
    exact h.ioComplete hpc hwrite
  | finish hpc => exact h.finish hpc
  | @followerComplete i hpc hfollow =>
    have q := (h.followerComplete_calm hpc hfollow).toQuiet
    rw [h.followerComplete_eq] at q ⊢
    refine h.inert q rfl (inert_update rfl ⟨rfl, rfl, ?_, ?_, ?_, ?_⟩) <;>
      simp [hpc, Pc.left, Pc.posted, Pc.released]
  | followerResume hpc => exact h.followerResume hpc

theorem Covered.of_reachableVia (h : (machine host).ReachableVia State.Safe s) : Covered s := by
  induction h using Machine.ReachableVia.induction with
  | init s hs =>
    have hinv := inv_start hs
    obtain ⟨raw_space, fd, mem, file, -, rfl⟩ := hs
    exact ⟨hinv, fun _ => Nat.le_refl _, fun j hj => by simp [initial] at hj,
      fun j hj => by simp [initial, Pc.released] at hj⟩
  | next s l t _ hok hst ih => exact ih.step hok hst

/-- In a safe run, a writer whose completion call has returned finds its bytes on disk. -/
theorem durable (h : (machine host).ReachableVia State.Safe s)
    (hpc : (s.coros i).pc = .returned) : s.Durable i := by
  have hcov := Covered.of_reachableVia h
  have hleader := hcov.released i (by rw [hpc]; rfl)
  obtain ⟨hle, write, hwrite, hrange, hres⟩ := hcov.covered i
    (hcov.granted_of_released (by rw [hpc]; rfl)) (by simp [hpc]) (by rw [hleader]; rfl)
  intro a hge hlt
  exact ⟨_, write, hwrite, hle, hres (by rw [hleader]; rfl), hrange a hge hlt⟩

/-- A leader and a follower, from the calls to the returns. -/
def groupRun : List Label :=
  [.call 0 100, .call 1 50, .lock 0, .lock 1, .copy 1 fun _ => 2, .copy 0 fun _ => 1,
    .leaderComplete 0 1 144, .followerComplete 1, .leave 0, .ioComplete 0 8192, .leaderFinish 0,
    .followerResume 1]

theorem durable_group : ∃ s, (machine .little).ReachableVia State.Safe s ∧ s.Durable 1 := by
  have hrun : (((machine .little).restrict State.Safe).run fresh groupRun).any (fun s =>
      (s.coros 1).pc = .returned) = true := by decide +kernel
  obtain ⟨s, hs, hret⟩ := Machine.exists_of_run hrun
  have hvia := Machine.ReachableVia.of_run fresh_start hs
  exact ⟨s, hvia, durable hvia hret⟩

/-- A group whose rounded length is 65536, which is cut to 0. -/
def cutRun : List Label :=
  [.call 0 65530, .lock 0, .copy 0 fun _ => 1, .leaderComplete 0 1 65524, .leave 0,
    .ioComplete 0 0, .leaderFinish 0]

/-- The writer returns after a write of no bytes. -/
theorem not_durable_cut : ∃ s, (machine .little).run fresh cutRun = some s ∧
    (s.coros 0).pc = .returned ∧ ¬ s.Durable 0 := by
  have hrun : ((machine .little).run fresh cutRun).any (fun s =>
      (s.coros 0).pc = .returned ∧ (s.coros 0).task.addr_ = 8192 ∧ (s.coros 0).size = 65530 ∧
        s.writes.map (·.req.size_) = [0]) = true := by decide +kernel
  obtain ⟨s, hs, hret, haddr, hsize, hwrites⟩ := Machine.exists_of_run hrun
  refine ⟨s, hs, hret, fun hdurable => ?_⟩
  obtain ⟨k, write, hwrite, -, -, hge, hlt⟩ := hdurable 8192 (by rw [haddr]) (by
    rw [haddr, hsize]; decide)
  have hzero : write.req.size_ = 0 := by
    have hmem := List.mem_map_of_mem (f := (·.req.size_)) (List.mem_of_getElem? hwrite)
    simpa [hwrites] using hmem
  omega

end QStorage.Db.LogWriter
