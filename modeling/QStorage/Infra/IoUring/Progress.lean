import QStorage.Infra.IoUring
import QStorage.Lib.Progress

/-!
# Every request can be completed (`infra/io_uring.h`)

A round of `runLoop` takes as many requests as the ring has free entries, at most five, and visits
the completions that are ready. None is left behind, provided that the ring has an entry at all.

## Main results

* `CoIoUring.canComplete_iff` — from which states all enqueued requests can be posted.
-/

namespace QStorage.Infra.CoIoUring

open QStorage.Lib

variable {capacity : ℕ} {reqs : ℕ → IoRequest} {s t : CoIoUring}

/-- Every request that was enqueued has been posted. -/
def AllPosted (s : CoIoUring) : Prop := ∀ req ∈ s.submitted, ∃ res, (req, res) ∈ s.posts

/-- Steps of a round until the next request moves. -/
def Pc.toGo : Pc → ℕ
  | .sized _ => 5
  | .space _ => 4
  | .fill _ _ => 3
  | .forEachCqe _ => 2
  | .advance _ => 1
  | .top | .nullSqe | .assertFailed => 0

/-- How far the requests are from their posts, then how far the round has come. -/
def toGo (s : CoIoUring) : ℕ :=
  10 * (4 * s.queue_.length + 3 * s.ring_.sqes.length + 2 * s.ring_.inflight.length +
    (s.ring_.cqes.length - s.pc.count)) + s.pc.toGo

/-- A state of the schedule, which makes no new request. -/
structure Serving (reqs : ℕ → IoRequest) (submitted : List ℕ) (s : CoIoUring) : Prop extends
    Inv reqs s where
  same : s.submitted = submitted
  entries : 0 < s.ring_.ring_entries.toNat

/-- Nothing is on its way any more. -/
theorem Inv.allPosted (h : Inv reqs s) (hqueue : s.queue_ = []) (hsqes : s.ring_.sqes = [])
    (hinflight : s.ring_.inflight = []) (hcqes : s.ring_.cqes.drop s.pc.count = []) :
    s.AllPosted := by
  intro req hreq
  have hmem := h.mem_located.mpr hreq
  simp only [hqueue, inRing, hsqes, hinflight, inCq, hcqes, List.map_nil, List.append_nil,
    List.nil_append, completed, List.mem_map] at hmem
  obtain ⟨⟨io, res⟩, hpost, heq⟩ := hmem
  obtain rfl : io = req := Option.some.inj heq
  exact ⟨res, hpost⟩

/-- A completion that the loop is about to visit names its request. -/
theorem Inv.next_cqe (h : Inv reqs s) {count : ℕ} (hpc : s.pc = .forEachCqe count) {cqe : Cqe}
    (hcqe : s.ring_.cqes[count]? = some cqe) : ∃ io, cqe.user_data = some io := by
  obtain ⟨hlt, hget⟩ := List.getElem?_eq_some_iff.mp hcqe
  have hposted := h.posted
  simp only [hpc, Pc.count] at hposted
  rw [List.drop_eq_getElem_cons hlt, hget] at hposted
  exact h.cqe_user_data (by simp [hposted])

/-- The next state of the schedule. -/
def Closer (reqs : ℕ → IoRequest) (submitted : List ℕ) (s t : CoIoUring) : Prop :=
  Serving reqs submitted t ∧ t.toGo < s.toGo

/-- The loop, once it has started a round, goes on. -/
theorem Serving.inRound {submitted : List ℕ} (h : Serving reqs submitted s) (hpc : s.pc ≠ .top) :
    ∃ t, s.runLoop reqs = some t ∧ Closer reqs submitted s t := by
  have hpcOk := h.pcOk
  have hserving {t : CoIoUring} (hst : s.runLoop reqs = some t)
      (hentries : t.ring_.ring_entries = s.ring_.ring_entries) : Serving reqs submitted t :=
    ⟨h.toInv.runLoop hst, (runLoop_queue hst).1.trans h.same, hentries ▸ h.entries⟩
  cases hp : s.pc with
  | top => exact absurd hp hpc
  | sized ioc =>
    have hst : s.runLoop reqs = some { s with
        pc := if ioc = 0 ∧ CqReadyCount s.ring_ = 0 then .top
          else if ioc > 0 then .space ioc else .forEachCqe 0 } := by
      simp [CoIoUring.runLoop, hp]
    refine ⟨_, hst, hserving hst rfl, ?_⟩
    split_ifs <;> simp [toGo, hp, Pc.toGo, Pc.count]
  | space ioc =>
    have hst : s.runLoop reqs = some { s with
        pc := .fill (min (min ioc (SqSpace s.ring_).toNat) max_submits_) 0 } := by
      simp [CoIoUring.runLoop, hp]
    refine ⟨_, hst, hserving hst rfl, ?_⟩
    simp [toGo, hp, Pc.toGo, Pc.count]
  | fill len i =>
    by_cases hi : i < len
    · simp only [PcOk, hp] at hpcOk
      obtain ⟨io, queue, hqueue⟩ : ∃ io queue, s.queue_ = io :: queue :=
        List.exists_cons_of_length_pos (by omega)
      obtain ⟨t, ht⟩ : ∃ t, s.take reqs len i = some t := by
        simp [CoIoUring.take, hqueue, h.get_sqe hp hi]
      have hst : s.runLoop reqs = some t := by simpa [CoIoUring.runLoop, hp, hi] using ht
      simp only [CoIoUring.take, hqueue, h.get_sqe hp hi, Option.some.injEq] at ht
      subst ht
      refine ⟨_, hst, hserving hst rfl, ?_⟩
      simp only [toGo, hp, Pc.toGo, Pc.count, IoUring.put, hqueue, List.length_append,
        List.length_cons, List.length_nil]
      omega
    · have hst : s.runLoop reqs = some (s.flush len) := by simp [CoIoUring.runLoop, hp, hi]
      have hpc' : (s.flush len).pc.count = 0 ∧ (s.flush len).pc.toGo ≤ 2 := by
        simp only [CoIoUring.flush]
        split_ifs <;> simp [Pc.count, Pc.toGo]
      have hsame : (s.flush len).queue_ = s.queue_ ∧ (s.flush len).ring_.sqes = s.ring_.sqes ∧
          (s.flush len).ring_.inflight = s.ring_.inflight ∧
          (s.flush len).ring_.cqes = s.ring_.cqes := ⟨rfl, rfl, rfl, rfl⟩
      have hold : s.pc.count = 0 ∧ s.pc.toGo = 3 := by rw [hp]; exact ⟨rfl, rfl⟩
      refine ⟨_, hst, hserving hst rfl, ?_⟩
      simp only [toGo, hsame, hpc'.1, hold]
      omega
  | forEachCqe count =>
    have hst : s.runLoop reqs = some (s.visit count) := by simp [CoIoUring.runLoop, hp]
    cases hcqe : s.ring_.cqes[count]? with
    | none =>
      have hvisit : s.visit count = { s with pc := .advance count } := by
        simp [CoIoUring.visit, hcqe]
      rw [hvisit] at hst
      refine ⟨_, hst, hserving hst rfl, ?_⟩
      simp [toGo, hp, Pc.toGo, Pc.count]
    | some cqe =>
      obtain ⟨io, hio⟩ := h.next_cqe hp hcqe
      have hvisit : s.visit count = { s with
          pc := .forEachCqe (count + 1)
          res_ := Function.update s.res_ io (some cqe.res)
          posts := s.posts ++ [(io, cqe.res)] } := by
        simp [CoIoUring.visit, hcqe, processComplete, hio]
      have hlt := (List.getElem?_eq_some_iff.mp hcqe).1
      rw [hvisit] at hst
      refine ⟨_, hst, hserving hst rfl, ?_⟩
      simp only [toGo, hp, Pc.toGo, Pc.count]
      omega
  | advance count =>
    have hst : s.runLoop reqs =
        some { s with ring_ := io_uring_cq_advance s.ring_ count, pc := .top } := by
      simp [CoIoUring.runLoop, hp]
    refine ⟨_, hst, hserving hst rfl, ?_⟩
    simp [toGo, hp, Pc.toGo, Pc.count, io_uring_cq_advance]
  | nullSqe | assertFailed => simp [PcOk, hp] at hpcOk

section AtTop

variable {submitted : List ℕ} (h : Serving reqs submitted s) (hpc : s.pc = .top)
include h hpc

theorem Serving.consume {sqe : Sqe} {sqes : List Sqe} (hsqes : s.ring_.sqes = sqe :: sqes) :
    (machine capacity reqs).CanReach s (Closer reqs submitted s) := by
  have hvisible := h.visible
  simp only [hpc, Pc.prepared, hsqes, List.length_cons] at hvisible
  have hne : s.ring_.khead ≠ s.ring_.ktail := by
    intro heq
    rw [heq] at hvisible
    simp at hvisible
  have hst : s.consume = some { s with ring_ := { s.ring_ with
      khead := s.ring_.khead + 1, sqes := sqes, inflight := s.ring_.inflight ++ [sqe] } } := by
    simp [CoIoUring.consume, hsqes, hne]
  refine .after (l := .consume) hst (.here ⟨⟨h.toInv.consume hst, h.same, h.entries⟩, ?_⟩)
  simp only [toGo, hpc, Pc.toGo, Pc.count, hsqes, List.length_append, List.length_cons,
    List.length_nil]
  omega

theorem Serving.complete {sqe : Sqe} {sqes : List Sqe}
    (hinflight : s.ring_.inflight = sqe :: sqes) :
    (machine capacity reqs).CanReach s (Closer reqs submitted s) := by
  have hst : s.complete 0 0 = some { s with
      ring_ := { s.ring_ with
        inflight := sqes
        cqes := s.ring_.cqes ++ [{ user_data := sqe.user_data, res := 0 }] }
      cqeLog := s.cqeLog ++ [{ user_data := sqe.user_data, res := 0 }] } := by
    simp [CoIoUring.complete, hinflight]
  refine .after (l := .complete 0 0) hst
    (.here ⟨⟨h.toInv.complete hst, h.same, h.entries⟩, ?_⟩)
  simp only [toGo, hpc, Pc.toGo, Pc.count, hinflight, List.length_append, List.length_cons,
    List.length_nil]
  omega

/-- With the ring empty, a round takes the first request of the queue. -/
theorem Serving.takeFirst (hsqes : s.ring_.sqes = []) {io : ℕ} {queue : List ℕ}
    (hqueue : s.queue_ = io :: queue) :
    (machine capacity reqs).CanReach s (Closer reqs submitted s) := by
  have hvisible := h.visible
  have hoccupied := h.occupied
  have hentries := h.entries
  simp only [hpc, Pc.prepared, hsqes, List.length_nil, Nat.add_zero] at hvisible hoccupied
  have hspace : (SqSpace s.ring_).toNat = s.ring_.ring_entries.toNat := by
    rw [SqSpace]
    bv_omega
  have hsized : s.runLoop reqs = some { s with pc := .sized (queue.length + 1) } := by
    simp [CoIoUring.runLoop, hpc, hqueue]
  have hspaced : ({ s with pc := .sized (queue.length + 1) } : CoIoUring).runLoop reqs =
      some { s with pc := .space (queue.length + 1) } := by
    simp [CoIoUring.runLoop]
  obtain ⟨len, hlen⟩ : ∃ len, min (min (queue.length + 1) (SqSpace s.ring_).toNat) max_submits_ =
      len + 1 := ⟨_, (Nat.succ_pred (by simp [hspace, max_submits_]; omega)).symm⟩
  have hfill : ({ s with pc := .space (queue.length + 1) } : CoIoUring).runLoop reqs =
      some { s with pc := .fill (len + 1) 0 } := by
    simp [CoIoUring.runLoop, hlen]
  have hget : io_uring_get_sqe s.ring_ =
      some { s.ring_ with sqe_tail := s.ring_.sqe_tail + 1 } := by
    rw [io_uring_get_sqe, if_neg]
    intro hfull
    have : s.ring_.ring_entries.toNat ≤ (s.ring_.sqe_tail - s.ring_.khead).toNat := hfull
    omega
  have htake : ({ s with pc := .fill (len + 1) 0 } : CoIoUring).runLoop reqs = some { s with
      queue_ := queue
      ring_ := ({ s.ring_ with sqe_tail := s.ring_.sqe_tail + 1 } : IoUring).put
        ((reqs io).toSqe io)
      pc := .fill (len + 1) 1
      sqeLog := s.sqeLog ++ [(reqs io).toSqe io] } := by
    simp [CoIoUring.runLoop, CoIoUring.take, hqueue, hget]
  have hinv := (((h.toInv.runLoop hsized).runLoop hspaced).runLoop hfill).runLoop htake
  refine .after (l := .runLoop) hsized (.after (l := .runLoop) hspaced (.after (l := .runLoop)
    hfill (.after (l := .runLoop) htake (.here ⟨⟨hinv, h.same, h.entries⟩, ?_⟩))))
  simp only [toGo, hpc, Pc.toGo, Pc.count, IoUring.put, hqueue, List.length_append,
    List.length_cons, List.length_nil]
  omega

/-- With the queue empty, a round visits the first completion. -/
theorem Serving.visitFirst (hqueue : s.queue_ = []) {cqe : Cqe} {cqes : List Cqe}
    (hcqes : s.ring_.cqes = cqe :: cqes) :
    (machine capacity reqs).CanReach s (Closer reqs submitted s) := by
  have hsized : s.runLoop reqs = some { s with pc := .sized 0 } := by
    simp [CoIoUring.runLoop, hpc, hqueue]
  have hfor : ({ s with pc := .sized 0 } : CoIoUring).runLoop reqs =
      some { s with pc := .forEachCqe 0 } := by
    simp [CoIoUring.runLoop, CqReadyCount, io_uring_cq_ready, hcqes]
  have hinv := (h.toInv.runLoop hsized).runLoop hfor
  have hhead : s.ring_.cqes[0]? = some cqe := by simp [hcqes]
  obtain ⟨io, hio⟩ := hinv.next_cqe rfl hhead
  have hvisit : ({ s with pc := .forEachCqe 0 } : CoIoUring).runLoop reqs = some { s with
      pc := .forEachCqe 1
      res_ := Function.update s.res_ io (some cqe.res)
      posts := s.posts ++ [(io, cqe.res)] } := by
    simp [CoIoUring.runLoop, CoIoUring.visit, hcqes, processComplete, hio]
  refine .after (l := .runLoop) hsized (.after (l := .runLoop) hfor (.after (l := .runLoop) hvisit
    (.here ⟨⟨hinv.runLoop hvisit, h.same, h.entries⟩, ?_⟩)))
  simp only [toGo, hpc, Pc.toGo, Pc.count, hcqes, List.length_cons]
  omega

/-- Before a round, whatever is on its way moves on: the kernel takes or completes an entry, or
the round that begins takes a request or visits a completion. -/
theorem Serving.atTop (hnot : ¬ s.AllPosted) :
    (machine capacity reqs).CanReach s (Closer reqs submitted s) := by
  cases hsqes : s.ring_.sqes with
  | cons sqe sqes => exact h.consume hpc hsqes
  | nil =>
    cases hinflight : s.ring_.inflight with
    | cons sqe sqes => exact h.complete hpc hinflight
    | nil =>
      cases hqueue : s.queue_ with
      | cons io queue => exact h.takeFirst hpc hsqes hqueue
      | nil =>
        cases hcqes : s.ring_.cqes with
        | cons cqe cqes => exact h.visitFirst hpc hqueue hcqes
        | nil => exact absurd (h.allPosted hqueue hsqes hinflight (by simp [hcqes])) hnot

end AtTop

/-- The requests in the queue can all be served. -/
theorem Serving.canReach {submitted : List ℕ} (h : Serving reqs submitted s) :
    (machine capacity reqs).CanReach s fun t => t.submitted = submitted ∧ t.AllPosted := by
  have hposted : (machine capacity reqs).CanReach s fun t =>
      Serving reqs submitted t ∧ t.AllPosted := by
    refine Machine.canReach_of_rank toGo (fun u hu hnot => ?_) h
    by_cases hpc : u.pc = .top
    · exact hu.atTop hpc fun hall => hnot ⟨hu, hall⟩
    · obtain ⟨v, hv, hcloser⟩ := hu.inRound hpc
      exact .after (l := .runLoop) hv (.here hcloser)
  exact hposted.trans fun u hu => .here ⟨hu.1.same, hu.2⟩

/-! ## A ring without entries -/

/-- A ring that has no entry takes none. -/
structure Blocked (reqs : ℕ → IoRequest) (s : CoIoUring) : Prop extends Inv reqs s where
  entries : s.ring_.ring_entries.toNat = 0
  untouched : s.sqeLog = []

/-- The ring keeps its size. -/
theorem entries_step {l : Label} (hst : (machine capacity reqs).step s l = some t) :
    t.ring_.ring_entries = s.ring_.ring_entries := by
  cases l with
  | submit req =>
    simp only [machine, CoIoUring.submit] at hst
    grind
  | runLoop =>
    simp only [machine, CoIoUring.runLoop, CoIoUring.take, CoIoUring.flush, CoIoUring.visit,
      processComplete, io_uring_get_sqe, io_uring_submit, io_uring_cq_advance, IoUring.put] at hst
    grind
  | consume =>
    simp only [machine, CoIoUring.consume] at hst
    grind
  | complete k res =>
    simp only [machine, CoIoUring.complete] at hst
    grind

/-- An entry is prepared only where the ring has room. -/
theorem sqeLog_step {l : Label} (hst : (machine capacity reqs).step s l = some t) :
    t.sqeLog = s.sqeLog ∨ ∃ len i, s.pc = .fill len i ∧ i < len := by
  cases l with
  | submit req =>
    simp only [machine, CoIoUring.submit] at hst
    grind
  | runLoop =>
    simp only [machine, CoIoUring.runLoop, CoIoUring.flush, CoIoUring.visit,
      processComplete] at hst
    grind
  | consume =>
    simp only [machine, CoIoUring.consume] at hst
    grind
  | complete k res =>
    simp only [machine, CoIoUring.complete] at hst
    grind

theorem Blocked.step {l : Label} (h : Blocked reqs s)
    (hst : (machine capacity reqs).step s l = some t) : Blocked reqs t := by
  have hentries : t.ring_.ring_entries.toNat = 0 := by rw [entries_step hst, h.entries]
  rcases sqeLog_step hst with hsame | ⟨len, i, hpc, hi⟩
  · exact ⟨inv_step h.toInv hst, hentries, hsame.trans h.untouched⟩
  · have hpcOk := h.pcOk
    have hzero := h.entries
    simp only [PcOk, hpc] at hpcOk
    omega

theorem Blocked.posts (h : Blocked reqs s) : s.posts = [] := by
  have hkept := h.kept
  rw [h.untouched, List.map_nil, List.perm_nil, List.append_eq_nil_iff, List.map_eq_nil_iff,
    List.map_eq_nil_iff] at hkept
  have hposted := h.posted
  rw [hkept.2, eq_comm, List.append_eq_nil_iff, List.map_eq_nil_iff] at hposted
  exact hposted.1

theorem Blocked.of_reachable (h : (machine capacity reqs).Reachable s)
    (hzero : s.ring_.ring_entries.toNat = 0) : Blocked reqs s := by
  induction h using Machine.Reachable.induction with
  | init s hs =>
    have hinv := inv_start hs
    obtain ⟨entries, count, rfl⟩ := hs
    exact ⟨hinv, hzero, rfl⟩
  | next s l t _ hst ih => exact (ih (by rw [← entries_step hst, hzero])).step hst

/-- From every reachable state the loop and the kernel can post all requests that were enqueued,
without a new one, exactly if the ring has an entry or there is none to post. -/
theorem canComplete_iff (h : (machine capacity reqs).Reachable s) :
    (machine capacity reqs).CanReach s (fun t => t.submitted = s.submitted ∧ t.AllPosted) ↔
      0 < s.ring_.ring_entries.toNat ∨ s.submitted = [] := by
  constructor
  · rintro ⟨tr, t, htr, hsame, hall⟩
    by_contra hnot
    obtain ⟨hzero, hsome⟩ := not_or.mp hnot
    have hblocked : Blocked reqs t := htr.keep (fun _ _ _ hs hst => hs.step hst)
      (Blocked.of_reachable h (by omega))
    obtain ⟨req, rest, hreq⟩ := List.exists_cons_of_ne_nil hsome
    obtain ⟨res, hpost⟩ := hall req (by simp [hsame, hreq])
    simp [hblocked.posts] at hpost
  · rintro (hentries | hnone)
    · exact Serving.canReach ⟨inv_of_reachable h, rfl, hentries⟩
    · refine .here ⟨rfl, fun req hreq => ?_⟩
      simp [hnone] at hreq

/-- A ring with one entry serves two requests. -/
theorem canComplete_iff_narrow : ∃ s, (machine 8 twoRequests).run
      { ring_ := { ring_entries := 1, khead := 0, ktail := 0, sqe_tail := 0 } }
        [.submit 1, .submit 2] = some s ∧
    (machine 8 twoRequests).CanReach s fun t => t.submitted = s.submitted ∧ t.AllPosted := by
  refine ⟨_, rfl, ?_⟩
  have hrun : (machine 8 twoRequests).run
      { ring_ := { ring_entries := 1, khead := 0, ktail := 0, sqe_tail := 0 } }
        [.submit 1, .submit 2] = some _ := rfl
  exact (canComplete_iff (.of_run ⟨1, 0, rfl⟩ hrun)).mpr (.inl (by decide))

end QStorage.Infra.CoIoUring
