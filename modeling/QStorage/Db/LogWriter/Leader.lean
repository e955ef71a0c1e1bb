import QStorage.Db.LogWriter.Invariant

/-!
# The leader and the stretch it describes

A group has one leader, and the next group begins only when `writer.Reset()` has run, in the
same stretch as `notify_leader_.post()`. So a post never finds two leaders. The members of a
group were granted their regions one after another, since only one bank is ever in use.

## Main results

* `LogWriter.leader_alone` — at most one leader is between the wait and the post.
* `LogWriter.group_stretch` — when a leader commits, the regions of its group are one stretch of
  the ring that starts at its own region and is as long as the bank says.
-/

namespace QStorage.Db.LogWriter

open QStorage.Lib QStorage.Infra

variable {host : Endian} {s t : State} {i j : ℕ}

/-! ## One leader -/

/-- Between the end of `co_await notify_leader_` and `notify_leader_.post()`. -/
def Pc.writing : Pc → Bool
  | .spin | .commit _ => true
  | _ => false

theorem Pc.leading_of_writing {pc : Pc} (h : pc.writing = true) : pc.leading = true := by
  cases pc <;> first | rfl | cases h

/-- At most one `LeaderComplete` has passed its wait and not yet posted. -/
theorem leader_alone (h : (machine host).Reachable s) (hi : (s.coros i).pc.writing = true)
    (hj : (s.coros j).pc.writing = true) : i = j :=
  (inv_of_reachable h).leading_eq (Pc.leading_of_writing hj) (Pc.leading_of_writing hi)

/-- The first leader spins while a follower of its group copies. -/
def spinRun : List Label :=
  [.call 0 100, .call 1 50, .lock 0, .lock 1, .copy 0 fun _ => 1, .leaderComplete 0 1 144,
    .copy 1 fun _ => 2]

theorem leader_alone_spin : ∃ s, (machine .little).run fresh spinRun = some s ∧
    (s.coros 0).pc = .spin ∧ ∀ j, (s.coros j).pc.writing = true → 0 = j := by
  have hrun : ((machine .little).run fresh spinRun).any
      (fun s => (s.coros 0).pc = .spin) = true := by decide +kernel
  obtain ⟨s, hs, hspin⟩ := Machine.exists_of_run hrun
  exact ⟨s, hs, hspin, fun j hj => leader_alone (.of_run fresh_start hs) (by rw [hspin]; rfl) hj⟩

/-! ## The stretch of a group -/

/-- The cells of the region of writer `i`. -/
theorem Inv.cell_region (h : Inv s) (hi : i ∈ s.granted) (x : ℕ) :
    s.cell ((s.coros i).task.addr_ + x) = ((s.coros i).pos + x) % kBufferSize := by
  rw [State.cell, h.addr i hi, Nat.add_assoc, Nat.add_sub_cancel_left, Nat.mod_add_mod]

/-- The regions of `j` and `k` share no cell of the ring. -/
def State.Apart (s : State) (j k : ℕ) : Prop :=
  ∀ x < (s.coros j).size.toNat, ∀ y < (s.coros k).size.toNat,
    s.cell ((s.coros j).task.addr_ + x) ≠ s.cell ((s.coros k).task.addr_ + y)

/-- The region of `k` starts in the cell behind the region of `j`. -/
def State.Follows (s : State) (j k : ℕ) : Prop :=
  s.cell ((s.coros k).task.addr_) = s.cell ((s.coros j).task.addr_ + (s.coros j).size.toNat)

/-- When a leader reaches `commit`, the regions granted in its bank since the last `Reset` share
no cell, follow each other from its own region on, and sum up to `len`. -/
theorem group_stretch (h : (machine host).Reachable s)
    (hst : (machine host).step s (.leave i) = some t) :
    let members := s.members (s.coros i).task.index_
    members.head? = some i ∧ members.Pairwise s.Apart ∧ members.IsChain s.Follows ∧
      (s.bank i).len = s.bytes members := by
  have hinv := inv_of_reachable h
  obtain ⟨⟨hpc, -⟩, -⟩ := step_leave hst
  obtain ⟨rest, hm⟩ := hinv.members_cons (i := i) (by rw [hpc]; rfl)
  obtain ⟨htiles, -⟩ := hinv.members_tile hm
  have hfits := hinv.fits
  have hmod {j x : ℕ} (hj : j ∈ s.members 0) (hx : x < (s.coros j).size.toNat) :
      s.cell ((s.coros j).task.addr_ + x) = (s.coros j).pos + x := by
    have hstop := (htiles.mem_bounds (List.mem_map_of_mem hj)).2
    simp only [State.region, Span.stop] at hstop
    rw [hinv.cell_region (hinv.mem_granted hj), Nat.mod_eq_of_lt (by omega)]
  intro members
  have hmembers : members = s.members 0 := by rw [← (hinv.index i).2]
  rw [hmembers]
  refine ⟨by rw [hm, List.head?_cons], ?_, ?_, ?_⟩
  · apply (List.pairwise_map.mp htiles.pairwise).imp_of_mem
    intro j k hj hk hlt x hx y hy
    rw [hmod hj hx, hmod hk hy]
    simp only [State.region, Span.stop] at hlt
    omega
  · have hchain := (List.isChain_map _).mp htiles.isChain
    apply hchain.imp_of_mem_imp
    intro j k hj hk hnext
    have hnext : (s.coros j).pos + (s.coros j).size.toNat = (s.coros k).pos := hnext
    rw [State.Follows, ← Nat.add_zero (s.coros k).task.addr_,
      hinv.cell_region (hinv.mem_granted hk), hinv.cell_region (hinv.mem_granted hj), hnext,
      Nat.add_zero]
  · rw [hinv.bank_eq, hinv.len]

/-- The follower joins, and the leader reaches `commit`. -/
def stretchRun : List Label := spinRun ++ [.followerComplete 1]

theorem group_stretch_pair : ∃ s t, (machine .little).run fresh stretchRun = some s ∧
    (machine .little).step s (.leave 0) = some t ∧ s.members 0 = [0, 1] ∧
    [0, 1].IsChain s.Follows ∧ (s.bank 0).len = 150 := by
  have hrun : ((machine .little).run fresh stretchRun).any (fun s =>
      ((machine .little).step s (.leave 0)).isSome ∧ (s.coros 0).task.index_ = 0 ∧
        s.members 0 = [0, 1] ∧ s.bytes [0, 1] = 150) = true := by decide +kernel
  obtain ⟨s, hs, hsome, hindex, hmembers, hbytes⟩ := Machine.exists_of_run hrun
  obtain ⟨t, ht⟩ := Option.isSome_iff_exists.mp hsome
  obtain ⟨-, -, hchain, hlen⟩ := group_stretch (.of_run fresh_start hs) ht
  rw [hindex, hmembers] at hchain hlen
  exact ⟨s, t, hs, ht, hmembers, hchain, hlen.trans hbytes⟩

end QStorage.Db.LogWriter
