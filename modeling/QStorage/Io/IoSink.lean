import QStorage.Lib.Machine
import Mathlib.Algebra.Order.Ring.Nat

/-!
# Queued requests (`io/io_sink.h`)

A sink keeps requests until a caller drains it. The sink never looks into a request, so requests
are of any type; a completion is its address, and `completion_` is read as accessible. `consume` is
any function of what has happened so far: its answer is a step of its own, and before it answers it
may call `Submit`.

## Main results

* `IoSink.Good.step` — what one step preserves.
* `IoSink.lossless` — accepted and pending requests are the submitted ones in order, and what each
  `Drain` returns and leaves behind.
-/

namespace QStorage.Io

open QStorage.Lib

variable {Req : Type*}

structure PendingIoRequest (Req : Type*) where
  req : Req
  completion_ : BitVec 64
  deriving DecidableEq, Repr

structure IoSink (Req : Type*) where
  pending_io_ : List (PendingIoRequest Req) := []
  deriving DecidableEq, Repr

namespace IoSink

def Submit (s : IoSink Req) (req : Req) (completion : BitVec 64) : IoSink Req :=
  { s with pending_io_ := s.pending_io_ ++ [⟨req, completion⟩] }

/-- Where a `Drain` stands: in `consume` with the front of the queue, or at its end. -/
inductive Drain (Req : Type*) where
  | consume (processed_count : BitVec 64) (req : PendingIoRequest Req)
  | returned (processed_count : BitVec 64)
  deriving DecidableEq, Repr

/-- The loop from its test on. -/
def loop (s : IoSink Req) (processed_count : BitVec 64) : Drain Req :=
  match s.pending_io_ with
  | [] => .returned processed_count
  | req :: _ => .consume processed_count req

/-- The rest of the body, after `consume` has answered. -/
def resume (s : IoSink Req) (processed_count : BitVec 64) (accepts : Bool) :
    IoSink Req × Drain Req :=
  if accepts then
    let s := { s with pending_io_ := s.pending_io_.tail }
    (s, s.loop (processed_count + 1))
  else (s, .returned processed_count)

/-! ## Runs -/

/-- A request that `consume` has seen, with its answer. -/
structure Answer (Req : Type*) where
  req : PendingIoRequest Req
  accepts : Bool
  deriving DecidableEq, Repr

/-- The requests that were accepted. -/
def accepted (answers : List (Answer Req)) : List (PendingIoRequest Req) :=
  (answers.filter (·.accepts)).map (·.req)

/-- A `Drain` that has returned: the answers it got, its result, and the queue it left behind. -/
structure Drained (Req : Type*) where
  answers : List (Answer Req)
  processed_count : BitVec 64
  pending : List (PendingIoRequest Req)
  deriving DecidableEq, Repr

/-- A sink with the call of `Drain` that is running, and what has happened so far. -/
structure Run (Req : Type*) where
  sink : IoSink Req := {}
  /-- The running call, as `processed_count` and the request that `consume` looks at. -/
  running : Option (BitVec 64 × PendingIoRequest Req) := none
  submitted : List (PendingIoRequest Req) := []
  /-- The answers to the running call. -/
  answers : List (Answer Req) := []
  drains : List (Drained Req) := []
  deriving DecidableEq, Repr

inductive Label (Req : Type*) where
  | submit (req : Req) (completion : BitVec 64)
  | drain
  | answer (accepts : Bool)

/-- A call of `Drain` goes on until it calls `consume` or returns. -/
def Run.enter (s : Run Req) (sink : IoSink Req) (answers : List (Answer Req)) :
    Drain Req → Run Req
  | .consume processed_count req =>
    { s with sink := sink, running := some (processed_count, req), answers := answers }
  | .returned processed_count =>
    { s with
      sink := sink
      running := none
      answers := []
      drains := s.drains ++ [⟨answers, processed_count, sink.pending_io_⟩] }

/-- `Submit` may be called at any time, also by `consume`. -/
def step (s : Run Req) : Label Req → Option (Run Req)
  | .submit req completion =>
    some { s with
      sink := s.sink.Submit req completion
      submitted := s.submitted ++ [⟨req, completion⟩] }
  | .drain => if s.running = none then some (s.enter s.sink [] (s.sink.loop 0)) else none
  | .answer accepts => s.running.map fun (processed_count, req) =>
    let (sink, drain) := s.sink.resume processed_count accepts
    s.enter sink (s.answers ++ [⟨req, accepts⟩]) drain

def machine (Req : Type*) : Machine (Run Req) (Label Req) where
  start s := s = {}
  step := step

/-- All requests that were accepted, in the order of acceptance. -/
def Run.accepted (s : Run Req) : List (PendingIoRequest Req) :=
  IoSink.accepted (s.drains.flatMap (·.answers) ++ s.answers)

/-- The result is the number of accepted requests, as a `size_t`, and the call has returned with
nothing pending or at the first refusal, with the refused request first in line. -/
structure Drained.Fair (d : Drained Req) : Prop where
  count : d.processed_count = BitVec.ofNat 64 (accepted d.answers).length
  ends : (∀ a ∈ d.answers, a.accepts = true) ∧ d.pending = [] ∨
    ∃ answers req, d.answers = answers ++ [⟨req, false⟩] ∧
      (∀ a ∈ answers, a.accepts = true) ∧ d.pending.head? = some req

/-- What holds in every state of a run. -/
structure Good (s : Run Req) : Prop where
  fifo : s.accepted ++ s.sink.pending_io_ = s.submitted
  accepts : ∀ a ∈ s.answers, a.accepts = true
  idle : s.running = none → s.answers = []
  running : ∀ processed_count req, s.running = some (processed_count, req) →
    processed_count = BitVec.ofNat 64 s.answers.length ∧ s.sink.pending_io_.head? = some req
  drains : ∀ d ∈ s.drains, d.Fair

variable {s t : Run Req} {l : Label Req} {sink : IoSink Req} {as : List (Answer Req)}

theorem accepted_append (as bs : List (Answer Req)) :
    accepted (as ++ bs) = accepted as ++ accepted bs := by
  simp [accepted]

theorem accepted_length (h : ∀ a ∈ as, a.accepts = true) :
    (accepted as).length = as.length := by
  rw [accepted, List.filter_eq_self.mpr h, List.length_map]

/-- The call returns, and what it leaves behind is as it should be. -/
theorem Good.returned (h : Good s) {processed_count : BitVec 64}
    (hfair : (⟨as, processed_count, sink.pending_io_⟩ : Drained Req).Fair)
    (hfifo : accepted (s.drains.flatMap (·.answers) ++ as) ++ sink.pending_io_ = s.submitted) :
    Good (s.enter sink as (.returned processed_count)) where
  fifo := by simpa [Run.enter, Run.accepted] using hfifo
  accepts := by simp [Run.enter]
  idle _ := rfl
  running := by simp [Run.enter]
  drains := List.forall_mem_append.mpr ⟨h.drains, List.forall_mem_singleton.mpr hfair⟩

/-- The loop goes on after nothing but acceptance. -/
theorem Good.enter (h : Good s) (has : ∀ a ∈ as, a.accepts = true)
    (hfifo : accepted (s.drains.flatMap (·.answers) ++ as) ++ sink.pending_io_ = s.submitted) :
    Good (s.enter sink as (sink.loop (BitVec.ofNat 64 as.length))) := by
  cases hpending : sink.pending_io_ with
  | nil =>
    rw [loop, hpending]
    apply h.returned _ hfifo
    exact ⟨by rw [accepted_length has], .inl ⟨has, hpending⟩⟩
  | cons req pending =>
    rw [loop, hpending]
    refine ⟨hfifo, has, by simp [Run.enter], ?_, h.drains⟩
    intro processed_count front hrunning
    obtain ⟨rfl, rfl⟩ := Prod.mk.inj (Option.some.inj hrunning)
    exact ⟨rfl, by simp [Run.enter, hpending]⟩

theorem Good.step (h : Good s) (hst : (machine Req).step s l = some t) : Good t := by
  cases l with
  | submit req completion =>
    cases hst
    refine ⟨?_, h.accepts, h.idle, ?_, h.drains⟩
    · change s.accepted ++ (s.sink.pending_io_ ++ _) = s.submitted ++ _
      rw [← List.append_assoc, h.fifo]
    · intro processed_count front hrunning
      obtain ⟨hcount, hfront⟩ := h.running processed_count front hrunning
      exact ⟨hcount, by simp [Submit, hfront]⟩
  | drain =>
    obtain ⟨hidle, hst⟩ := Option.ite_none_right_eq_some.mp hst
    cases hst
    have hfifo := h.fifo
    rw [Run.accepted, h.idle hidle] at hfifo
    exact h.enter (by simp) hfifo
  | answer accepts =>
    obtain ⟨⟨processed_count, req⟩, hrunning, hst⟩ := Option.map_eq_some_iff.mp hst
    obtain ⟨rfl, hfront⟩ := h.running _ _ hrunning
    obtain ⟨pending, hpending⟩ := List.head?_eq_some_iff.mp hfront
    have hfifo := h.fifo
    cases accepts with
    | false =>
      cases hst
      apply h.returned
      · refine ⟨?_, .inr ⟨s.answers, req, rfl, h.accepts, hfront⟩⟩
        rw [accepted_append, ← accepted_length h.accepts]
        simp [accepted]
      · rw [← List.append_assoc, accepted_append]
        simpa [accepted, Run.accepted] using hfifo
    | true =>
      cases hst
      have hall : ∀ a ∈ s.answers ++ [(⟨req, true⟩ : Answer Req)], a.accepts = true :=
        List.forall_mem_append.mpr ⟨h.accepts, List.forall_mem_singleton.mpr rfl⟩
      have hcount : BitVec.ofNat 64 s.answers.length + 1 =
          BitVec.ofNat 64 (s.answers ++ [(⟨req, true⟩ : Answer Req)]).length := by
        rw [List.length_append, BitVec.ofNat_add]
        rfl
      simp only [resume, if_true, hcount]
      apply h.enter hall
      rw [← List.append_assoc, accepted_append, ← h.fifo, hpending]
      simp [accepted, Run.accepted]

/-- What a run has come to: nothing is lost and nothing is overtaken, and every call of `Drain`
that has returned accounts for what it did. While `consume` runs, its request is first in line. -/
structure Lossless (s : Run Req) : Prop where
  fifo : s.accepted ++ s.sink.pending_io_ = s.submitted
  front : ∀ processed_count req, s.running = some (processed_count, req) →
    s.sink.pending_io_.head? = some req
  drains : ∀ d ∈ s.drains, d.Fair

theorem Good.of_reachable (h : (machine Req).Reachable s) : Good s := by
  induction h using Machine.Reachable.induction with
  | init s hs =>
    obtain rfl : s = {} := hs
    constructor <;> simp [Run.accepted, accepted]
  | next s l t _ hst ih => exact ih.step hst

/-- Every run of `Submit` and `Drain`, whatever `consume` answers and submits. -/
theorem lossless (h : (machine Req).Reachable s) : Lossless s :=
  have hgood := Good.of_reachable h
  ⟨hgood.fifo, fun n req hrunning => (hgood.running n req hrunning).2, hgood.drains⟩

/-- `consume` submits a third request while it looks at the first one, and refuses the second. -/
def refusingRun : List (Label ℕ) :=
  [.submit 1 0, .submit 2 0, .drain, .submit 3 0, .answer true, .answer false, .drain,
    .answer true, .answer true]

theorem lossless_refusing : ∃ s : Run ℕ, Lossless s ∧ s.sink.pending_io_ = [] ∧
    s.drains.map (fun d => (d.processed_count, d.pending.map (·.req))) =
      [(1, [2, 3]), (2, [])] := by
  have hrun : ((machine ℕ).run {} refusingRun).any (fun s => s.sink.pending_io_ = [] ∧
      s.drains.map (fun d => (d.processed_count, d.pending.map (·.req))) =
        [(1, [2, 3]), (2, [])]) = true := by decide +kernel
  obtain ⟨s, hs, hend⟩ := Machine.exists_of_run hrun
  exact ⟨s, lossless (.of_run rfl hs), hend⟩

end IoSink

end QStorage.Io
