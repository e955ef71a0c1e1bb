import QStorage.Lib.Machine
import QStorage.Lib.Segment

/-!
# Intrusive lists (`tools/list.h`)

The links of an element are in the element, so the state is the list's base together with the
node of every element. In `Append` the unfinished `list.end -` is read as `list.end_`.

`ListRun` runs the operations next to those of a plain sequence: `cons`, `snoc`, `erase`, and the
insertion after a position.

## Main results

* `ListRun.refines` — with `Prepend`, `Append` and `Remove` the list is the sequence.
* `ListRun.insert_spoils` — `Insert` leaves `end_` wrong, whatever the list and the position.
-/

namespace QStorage.Tools

open QStorage.Lib

structure ListNode (α : Type*) where
  prev_ : Option α := none
  next_ : Option α := none
  deriving DecidableEq, Repr

structure ListBase (α : Type*) where
  count_ : ℕ := 0
  start_ : Option α := none
  end_ : Option α := none
  deriving DecidableEq, Repr

/-- Why an operation stops without a result. -/
inductive ListStop where
  | assertFailed
  | outOfFuel
  deriving DecidableEq, Repr

/-- A list with the nodes of all elements. -/
structure IntrusiveList (α : Type*) where
  list : ListBase α := {}
  node : α → ListNode α := fun _ => {}

namespace IntrusiveList

variable {α : Type*}

def prev (s : IntrusiveList α) (a : α) : Option α := (s.node a).prev_

def next (s : IntrusiveList α) (a : α) : Option α := (s.node a).next_

/-- Visit the elements from `start_` on and count them. -/
def Map (s : IntrusiveList α) (fuel : ℕ) : Except ListStop (List α) :=
  match walk s.next fuel s.list.start_ with
  | none => .error .outOfFuel
  | some xs => if xs.length = s.list.count_ then .ok xs else .error .assertFailed

/-- Count the elements in both directions; the result is what the two loops visit. -/
def Validate (s : IntrusiveList α) (fuel : ℕ) : Except ListStop (List α × List α) := do
  let xs ← s.Map fuel
  match walk s.prev fuel s.list.end_ with
  | none => .error .outOfFuel
  | some ys => if ys.length = s.list.count_ then .ok (xs, ys) else .error .assertFailed

def setStart (s : IntrusiveList α) (v : Option α) : IntrusiveList α :=
  { s with list := { s.list with start_ := v } }

def setEnd (s : IntrusiveList α) (v : Option α) : IntrusiveList α :=
  { s with list := { s.list with end_ := v } }

def setCount (s : IntrusiveList α) (n : ℕ) : IntrusiveList α :=
  { s with list := { s.list with count_ := n } }

section Base

variable (s : IntrusiveList α) (v : Option α) (n : ℕ)

@[simp] theorem setStart_fields : (s.setStart v).prev = s.prev ∧ (s.setStart v).next = s.next ∧
    (s.setStart v).list = { s.list with start_ := v } ∧ (s.setStart v).node = s.node :=
  ⟨rfl, rfl, rfl, rfl⟩

@[simp] theorem setEnd_fields : (s.setEnd v).prev = s.prev ∧ (s.setEnd v).next = s.next ∧
    (s.setEnd v).list = { s.list with end_ := v } ∧ (s.setEnd v).node = s.node :=
  ⟨rfl, rfl, rfl, rfl⟩

@[simp] theorem setCount_fields : (s.setCount n).prev = s.prev ∧ (s.setCount n).next = s.next ∧
    (s.setCount n).list = { s.list with count_ := n } ∧ (s.setCount n).node = s.node :=
  ⟨rfl, rfl, rfl, rfl⟩

end Base

/-! ## Well-formed lists -/

/-- Both traversals visit `xs`, one of them backwards, and `count_` is its length. -/
structure WellFormed (s : IntrusiveList α) (xs : List α) : Prop extends
    Doubly s.next s.prev s.list.start_ s.list.end_ xs where
  count : s.list.count_ = xs.length

variable {s t : IntrusiveList α} {xs ys l r : List α} {e pos newT : α}

theorem WellFormed.empty (node : α → ListNode α) :
    ({ node := node } : IntrusiveList α).WellFormed [] := ⟨.nil, rfl⟩

theorem WellFormed.Map_eq (h : s.WellFormed xs) {fuel : ℕ} (hfuel : xs.length ≤ fuel) :
    s.Map fuel = .ok xs := by
  rw [Map, h.forward.walk_eq hfuel]
  exact if_pos h.count.symm

theorem WellFormed.Validate_eq (h : s.WellFormed xs) {fuel : ℕ} (hfuel : xs.length ≤ fuel) :
    s.Validate fuel = .ok (xs, xs.reverse) := by
  have hlen : xs.reverse.length = xs.length := List.length_reverse
  rw [Validate, h.Map_eq hfuel, h.backward.walk_eq (by rwa [hlen])]
  exact if_pos (hlen.trans h.count.symm)

/-! ## Links of elements -/

variable [DecidableEq α]

/-- Store `prev_` of the element behind `p`, if there is one. -/
def setPrev (s : IntrusiveList α) (p v : Option α) : IntrusiveList α :=
  match p with
  | some a => { s with node := Function.update s.node a { s.node a with prev_ := v } }
  | none => s

def setNext (s : IntrusiveList α) (p v : Option α) : IntrusiveList α :=
  match p with
  | some a => { s with node := Function.update s.node a { s.node a with next_ := v } }
  | none => s

section Fields

variable (s : IntrusiveList α) (p v : Option α)

@[simp] theorem setPrev_list : (s.setPrev p v).list = s.list := by cases p <;> rfl

@[simp] theorem setNext_list : (s.setNext p v).list = s.list := by cases p <;> rfl

@[simp] theorem setPrev_prev : (s.setPrev p v).prev = relink s.prev p v := by
  cases p with
  | none => rfl
  | some a =>
    funext b
    by_cases hb : b = a <;> simp [setPrev, prev, relink, hb]

@[simp] theorem setPrev_next : (s.setPrev p v).next = s.next := by
  cases p with
  | none => rfl
  | some a =>
    funext b
    by_cases hb : b = a <;> simp [setPrev, next, hb]

@[simp] theorem setNext_next : (s.setNext p v).next = relink s.next p v := by
  cases p with
  | none => rfl
  | some a =>
    funext b
    by_cases hb : b = a <;> simp [setNext, next, relink, hb]

@[simp] theorem setNext_prev : (s.setNext p v).prev = s.prev := by
  cases p with
  | none => rfl
  | some a =>
    funext b
    by_cases hb : b = a <;> simp [setNext, prev, hb]

theorem setPrev_node {a : α} (h : p ≠ some a) : (s.setPrev p v).node a = s.node a := by
  cases p with
  | none => rfl
  | some b => exact Function.update_of_ne (fun hab => h (by rw [hab])) _ _

theorem setNext_node {a : α} (h : p ≠ some a) : (s.setNext p v).node a = s.node a := by
  cases p with
  | none => rfl
  | some b => exact Function.update_of_ne (fun hab => h (by rw [hab])) _ _

end Fields

/-! ## The operations -/

def Prepend (s : IntrusiveList α) (elem : α) : IntrusiveList α :=
  let s := (s.setPrev elem none).setNext elem s.list.start_
  let s := s.setPrev s.list.start_ elem
  let s := s.setStart elem
  let s := if s.list.end_ = none then s.setEnd elem else s
  s.setCount (s.list.count_ + 1)

def Append (s : IntrusiveList α) (elem : α) : IntrusiveList α :=
  let s := (s.setNext elem none).setPrev elem s.list.end_
  let s := s.setNext s.list.end_ elem
  let s := s.setEnd elem
  let s := if s.list.start_ = none then s.setStart elem else s
  s.setCount (s.list.count_ + 1)

def Insert (s : IntrusiveList α) (pos newT : α) : Except ListStop (IntrusiveList α) :=
  if pos = newT then .error .assertFailed
  else
    let s := s.setPrev newT pos
    let s := s.setNext newT (s.next pos)
    let s := s.setPrev (s.next pos) newT
    let s := s.setNext pos newT
    let s := if s.list.end_ ≠ some pos then s.setEnd newT else s
    .ok (s.setCount (s.list.count_ + 1))

/-- The first branch of `Remove`: the element behind loses its link to this one. -/
def unlinkNext (s : IntrusiveList α) (elem : α) : IntrusiveList α :=
  if s.next elem ≠ none then s.setPrev (s.next elem) (s.prev elem) else s.setEnd (s.prev elem)

/-- The second branch of `Remove`, for the element in front. -/
def unlinkPrev (s : IntrusiveList α) (elem : α) : IntrusiveList α :=
  if s.prev elem ≠ none then s.setNext (s.prev elem) (s.next elem) else s.setStart (s.next elem)

def Remove (s : IntrusiveList α) (elem : α) : Except ListStop (IntrusiveList α) :=
  if s.list.count_ = 0 then .error .assertFailed
  else
    let s := (s.unlinkNext elem).unlinkPrev elem
    let s := (s.setNext elem none).setPrev elem none
    .ok (s.setCount (s.list.count_ - 1))

theorem WellFormed.Prepend (h : s.WellFormed xs) (he : e ∉ xs) :
    (s.Prepend e).WellFormed (e :: xs) := by
  have hcons := h.toDoubly.cons he
  have hcount := h.count
  constructor
  · cases hend : s.list.end_ <;> simpa [IntrusiveList.Prepend, hend, relink] using hcons
  · cases hend : s.list.end_ <;> simp [IntrusiveList.Prepend, hend, hcount]

/-- `Append` is `Prepend` with the two directions exchanged. -/
theorem WellFormed.Append (h : s.WellFormed xs) (he : e ∉ xs) :
    (s.Append e).WellFormed (xs ++ [e]) := by
  have hcons := (h.toDoubly.symm.cons (mt List.mem_reverse.mp he)).symm
  rw [List.reverse_cons, List.reverse_reverse] at hcons
  have hcount := h.count
  constructor
  · cases hstart : s.list.start_ <;> simpa [IntrusiveList.Append, hstart, relink] using hcons
  · cases hstart : s.list.start_ <;> simp [IntrusiveList.Append, hstart, hcount]

theorem unlinkNext_fields (s : IntrusiveList α) (e : α) :
    (s.unlinkNext e).prev = relink s.prev (s.next e) (s.prev e) ∧ (s.unlinkNext e).next = s.next ∧
      (s.unlinkNext e).list =
        { s.list with end_ := if s.next e = none then s.prev e else s.list.end_ } := by
  cases hn : s.next e <;> simp [unlinkNext, hn]

theorem unlinkPrev_fields (s : IntrusiveList α) (e : α) :
    (s.unlinkPrev e).prev = s.prev ∧ (s.unlinkPrev e).next = relink s.next (s.prev e) (s.next e) ∧
      (s.unlinkPrev e).list =
        { s.list with start_ := if s.prev e = none then s.next e else s.list.start_ } := by
  cases hp : s.prev e <;> simp [unlinkPrev, hp]

theorem unlinkNext_node {a : α} (hne : s.next e ≠ some a) :
    (s.unlinkNext e).node a = s.node a := by
  rw [unlinkNext]
  split
  · exact setPrev_node _ _ _ hne
  · rfl

theorem unlinkPrev_node {a : α} (hne : s.prev e ≠ some a) :
    (s.unlinkPrev e).node a = s.node a := by
  rw [unlinkPrev]
  split
  · exact setNext_node _ _ _ hne
  · rfl

/-- `Remove` unlinks the element, clears its own links and leaves elements of no list alone. -/
theorem WellFormed.Remove (h : s.WellFormed xs) (he : e ∈ xs) :
    ∃ t, s.Remove e = .ok t ∧ t.WellFormed (xs.erase e) ∧ t.node e = {} ∧
      ∀ a ∉ xs, t.node a = s.node a := by
  obtain ⟨l, r, rfl⟩ := List.append_of_mem he
  obtain ⟨hnotin, -⟩ := List.nodup_cons.mp (List.nodup_middle.mp h.nodup)
  have hel : e ∉ l := fun hmem => hnotin (List.mem_append_left r hmem)
  have hcount := h.count
  rw [List.length_append, List.length_cons] at hcount
  have hnext {a : α} (ha : a ∉ l ++ r) : s.next e ≠ some a := by
    rw [h.next_eq]
    exact fun hhead => ha (List.mem_append_right l (List.mem_of_head? hhead))
  have hprev {a : α} (ha : a ∉ l ++ r) : s.prev e ≠ some a := by
    rw [h.prev_eq]
    exact fun hlast => ha (List.mem_append_left r (List.mem_of_getLast? hlast))
  -- the first branch stores nothing in the element itself, so the second one still finds its links
  obtain ⟨hprev₁, hnext₁, hlist₁⟩ := unlinkNext_fields s e
  obtain ⟨hprev₂, hnext₂, hlist₂⟩ := unlinkPrev_fields (s.unlinkNext e) e
  have hself : (s.unlinkNext e).prev e = s.prev e := by
    rw [hprev₁, Segment.relink_apply_of_ne (hnext hnotin)]
  rw [hprev₁] at hprev₂
  rw [hself, hnext₁] at hnext₂ hlist₂
  rw [hlist₁] at hlist₂
  have hother {f : α → Option α} : ∀ a ∈ l ++ r, f a = relink f e none a := fun a ha =>
    (Segment.relink_apply_of_ne fun hea => by cases hea; exact hnotin ha).symm
  have hunlink := h.toDoubly.unlink.congr hother hother
  rw [List.erase_append_right _ hel, List.erase_cons_head]
  refine ⟨_, by rw [IntrusiveList.Remove, if_neg (by omega)], ⟨?_, ?_⟩, ?_, ?_⟩
  · simpa [hprev₂, hnext₂, hlist₂] using hunlink
  · simp [hlist₂, hcount]
  · simp [setPrev, setNext]
  · intro a ha
    have hae : some e ≠ some a := fun heq => ha (Option.some.inj heq ▸ he)
    have halr : a ∉ l ++ r := fun hmem => ha (by simp at hmem ⊢; tauto)
    rw [(setCount_fields _ _).2.2.2, setPrev_node _ _ _ hae, setNext_node _ _ _ hae,
      unlinkPrev_node (by rw [hself]; exact hprev halr), unlinkNext_node (hnext halr)]

/-- What `Insert` makes of the fields it reads forward, and of `end_`. -/
theorem Insert_fields (s : IntrusiveList α) (hne : pos ≠ newT) :
    ∃ t, s.Insert pos newT = .ok t ∧
      t.next = Function.update (Function.update s.next newT (s.next pos)) pos (some newT) ∧
      t.list.start_ = s.list.start_ ∧
      t.list.end_ = if s.list.end_ ≠ some pos then some newT else s.list.end_ := by
  refine ⟨_, if_neg hne, ?_⟩
  by_cases hend : s.list.end_ = some pos <;> simp [hend]

/-- The test for the end of the list is the wrong way round: `Insert` leaves `end_` at `pos` when
that was the last element and moves it to the new element when that is not. -/
theorem WellFormed.Insert_end_ne (h : s.WellFormed (l ++ pos :: r)) (hnew : newT ∉ l ++ pos :: r)
    (ht : s.Insert pos newT = .ok t) : t.list.end_ ≠ (l ++ pos :: newT :: r).getLast? := by
  have hne : pos ≠ newT := fun heq => hnew (by simp [heq])
  obtain ⟨t', ht', -, -, hend⟩ := s.Insert_fields hne
  obtain rfl : t = t' := Except.ok.inj (ht.symm.trans ht')
  rw [hend, h.last_eq]
  obtain rfl | ⟨r, last, rfl⟩ := List.eq_nil_or_concat' r
  · simpa using hne
  · have hlast : last ≠ pos := by
      rintro rfl
      have hnodup := h.nodup
      simp [List.nodup_append] at hnodup
    have hnewlast : newT ≠ last := fun heq => hnew (by simp [heq])
    have hgetLast (l : List α) : (l ++ (r ++ [last])).getLast? = some last := by
      rw [← List.append_assoc, List.getLast?_concat]
    have hold : (l ++ pos :: (r ++ [last])).getLast? = some last := by
      simpa using hgetLast (l ++ [pos])
    have hall : (l ++ pos :: newT :: (r ++ [last])).getLast? = some last := by
      simpa using hgetLast (l ++ [pos, newT])
    rw [hold, hall, if_pos (by simpa using hlast)]
    simpa using hnewlast

/-- No sequence is what both traversals visit after `Insert`. -/
theorem WellFormed.not_wellFormed_Insert (h : s.WellFormed xs) (hpos : pos ∈ xs) (hnew : newT ∉ xs)
    (ht : s.Insert pos newT = .ok t) : ¬ t.WellFormed ys := by
  intro hys
  obtain ⟨l, r, rfl⟩ := List.append_of_mem hpos
  obtain ⟨t', ht', hnext, hstart, -⟩ := s.Insert_fields (ne_of_mem_of_not_mem hpos hnew)
  obtain rfl : t = t' := Except.ok.inj (ht.symm.trans ht')
  have hforward := h.forward.link_after h.nodup hnew
  rw [← hnext, ← hstart] at hforward
  obtain rfl := hys.forward.unique hforward
  exact h.Insert_end_ne hnew ht hys.last_eq

/-! ## Elements that are left alone -/

section Frame

variable {a : α}

theorem WellFormed.Prepend_node (h : s.WellFormed xs) (ha : a ∉ xs) (hae : a ≠ e) :
    (s.Prepend e).node a = s.node a := by
  have hne : some e ≠ some a := fun heq => hae (Option.some.inj heq).symm
  have hstart := h.first_ne ha
  cases hend : s.list.end_ <;>
    simp [IntrusiveList.Prepend, hend, setPrev_node _ _ _ hstart, setPrev_node _ _ _ hne,
      setNext_node _ _ _ hne]

theorem WellFormed.Append_node (h : s.WellFormed xs) (ha : a ∉ xs) (hae : a ≠ e) :
    (s.Append e).node a = s.node a := by
  have hne : some e ≠ some a := fun heq => hae (Option.some.inj heq).symm
  have hend := h.last_ne ha
  cases hstart : s.list.start_ <;>
    simp [IntrusiveList.Append, hstart, setNext_node _ _ _ hend, setPrev_node _ _ _ hne,
      setNext_node _ _ _ hne]

end Frame

end IntrusiveList

/-! ## Runs next to a plain sequence -/

/-- A list, the sequence it should be, and the elements removed since they were last added. -/
structure ListRun (α : Type*) where
  list : IntrusiveList α := {}
  seq : List α := []
  removed : List α := []

namespace ListRun

variable {α : Type*} [DecidableEq α]

inductive Label (α : Type*) where
  | prepend (elem : α)
  | append (elem : α)
  | insert (pos newT : α)
  | remove (elem : α)

/-- `newT` right behind `pos`. -/
def insertAfter (pos newT : α) : List α → List α
  | [] => []
  | x :: xs => if x = pos then x :: newT :: xs else x :: insertAfter pos newT xs

/-- An operation has added `elem`. -/
def added (s : ListRun α) (elem : α) (list : IntrusiveList α) (seq : List α) : ListRun α :=
  { list := list, seq := seq, removed := s.removed.filter (· ≠ elem) }

/-- Elements are added that are not in the list, and removed if they are. -/
def step (s : ListRun α) : Label α → Option (ListRun α)
  | .prepend elem =>
    if elem ∉ s.seq then some (s.added elem (s.list.Prepend elem) (elem :: s.seq)) else none
  | .append elem =>
    if elem ∉ s.seq then some (s.added elem (s.list.Append elem) (s.seq ++ [elem])) else none
  | .insert pos newT =>
    if pos ∈ s.seq ∧ newT ∉ s.seq then
      (s.list.Insert pos newT).toOption.map fun t => s.added newT t (insertAfter pos newT s.seq)
    else none
  | .remove elem =>
    if elem ∈ s.seq then
      (s.list.Remove elem).toOption.map fun t =>
        { list := t, seq := s.seq.erase elem, removed := elem :: s.removed }
    else none

/-- The runs from an empty list; the elements are linked anyhow. -/
def machine (α : Type*) [DecidableEq α] : Machine (ListRun α) (Label α) where
  start s := ∃ node, s = { list := { node := node } }
  step := step

/-- Any operation but `Insert`. -/
def Label.Plain : Label α → Prop
  | .insert _ _ => False
  | _ => True

instance : (l : Label α) → Decidable l.Plain
  | .insert _ _ => .isFalse id
  | .prepend _ | .append _ | .remove _ => .isTrue trivial

variable {s t : ListRun α} {l : Label α} {pos newT : α}

/-- The list is well formed and visits the sequence, and removed elements are linked to nothing. -/
structure Good (s : ListRun α) : Prop extends s.list.WellFormed s.seq where
  removed : ∀ a ∈ s.removed, a ∉ s.seq ∧ s.list.node a = {}

theorem Good.start (hs : (machine α).start s) : s.Good := by
  obtain ⟨node, rfl⟩ := hs
  exact ⟨.empty node, by simp⟩

/-- An element was linked into the list, and no other element outside of it was touched. -/
theorem Good.added (h : s.Good) {elem : α} {list : IntrusiveList α} {seq : List α}
    (hwf : list.WellFormed seq) (hseq : ∀ a ∈ seq, a = elem ∨ a ∈ s.seq)
    (hframe : ∀ a ∉ s.seq, a ≠ elem → list.node a = s.list.node a) :
    (s.added elem list seq).Good := by
  refine ⟨hwf, ?_⟩
  intro a ha
  obtain ⟨hmem, hne⟩ := List.mem_filter.mp ha
  obtain ⟨hnot, hnode⟩ := h.removed a hmem
  have hne : a ≠ elem := of_decide_eq_true hne
  refine ⟨?_, (hframe a hnot hne).trans hnode⟩
  intro ha
  rcases hseq a ha with heq | hin
  · exact hne heq
  · exact hnot hin

/-- What one operation other than `Insert` preserves. -/
theorem Good.step (h : s.Good) (hplain : l.Plain) (hst : (machine α).step s l = some t) :
    t.Good := by
  cases l with
  | prepend elem =>
    obtain ⟨hnot, hst⟩ := Option.ite_none_right_eq_some.mp hst
    cases hst
    apply h.added (h.Prepend hnot)
    · intro a ha
      exact List.mem_cons.mp ha
    · intro a ha hne
      exact h.Prepend_node ha hne
  | append elem =>
    obtain ⟨hnot, hst⟩ := Option.ite_none_right_eq_some.mp hst
    cases hst
    apply h.added (h.Append hnot)
    · intro a ha
      rcases List.mem_append.mp ha with ha | ha
      · exact .inr ha
      · exact .inl (List.mem_singleton.mp ha)
    · intro a ha hne
      exact h.Append_node ha hne
  | insert pos newT => exact hplain.elim
  | remove elem =>
    obtain ⟨hmem, hst⟩ := Option.ite_none_right_eq_some.mp hst
    obtain ⟨list, hlist, hwf, hnode, hframe⟩ := h.toWellFormed.Remove hmem
    rw [hlist] at hst
    cases hst
    refine ⟨hwf, ?_⟩
    intro a ha
    rcases List.mem_cons.mp ha with rfl | ha
    · exact ⟨h.nodup.not_mem_erase, hnode⟩
    · obtain ⟨hnot, hnull⟩ := h.removed a ha
      exact ⟨fun ha => hnot (List.mem_of_mem_erase ha), (hframe a hnot).trans hnull⟩

theorem insertAfter_eq {l r : List α} (hpos : pos ∉ l) :
    insertAfter pos newT (l ++ pos :: r) = l ++ pos :: newT :: r := by
  induction l with
  | nil => simp [insertAfter]
  | cons x l ih =>
    obtain ⟨hx, hl⟩ := not_or.mp (mt List.mem_cons.mpr hpos)
    simp [insertAfter, Ne.symm hx, ih hl]

theorem Good.of_run (h : (machine α).ReachableVia (fun _ l => l.Plain) s) : s.Good := by
  induction h using Machine.ReachableVia.induction with
  | init s hs => exact .start hs
  | next s l t _ hplain hst ih => exact ih.step hplain hst

/-- Runs of `Prepend`, `Append` and `Remove`: the list is the sequence, removed elements are
linked to nothing, and no `assert` fails, in `Remove` neither. -/
theorem refines (h : (machine α).ReachableVia (fun _ l => l.Plain) s) :
    s.list.WellFormed s.seq ∧ s.seq.Nodup ∧ (∀ a ∈ s.removed, s.list.node a = {}) ∧
      (∀ fuel, s.seq.length ≤ fuel → s.list.Map fuel = .ok s.seq ∧
        s.list.Validate fuel = .ok (s.seq, s.seq.reverse)) ∧
      ∀ elem ∈ s.seq, ∃ t, s.list.Remove elem = .ok t ∧ t.WellFormed (s.seq.erase elem) ∧
        t.node elem = {} := by
  have hgood := Good.of_run h
  refine ⟨hgood.toWellFormed, hgood.nodup, fun a ha => (hgood.removed a ha).2,
    fun fuel hfuel => ⟨hgood.Map_eq hfuel, hgood.Validate_eq hfuel⟩, ?_⟩
  intro elem hmem
  obtain ⟨t, ht, hwf, hnode, -⟩ := hgood.toWellFormed.Remove hmem
  exact ⟨t, ht, hwf, hnode⟩

/-- Elements come in at both ends and leave from the middle and from an end. -/
def plainRun : List (Label ℕ) :=
  [.append 1, .append 2, .prepend 3, .append 4, .remove 2, .remove 3, .prepend 2]

theorem refines_plain : ∃ s : ListRun ℕ, s.seq = [2, 1, 4] ∧ s.removed = [3] ∧
    s.list.Validate 3 = .ok ([2, 1, 4], [4, 1, 2]) ∧ s.list.node 3 = {} := by
  have hrun : (((machine ℕ).restrict fun _ l => l.Plain).run {} plainRun).any (fun s =>
      s.seq = [2, 1, 4] ∧ s.removed = [3]) = true := by decide +kernel
  obtain ⟨s, hs, hseq, hremoved⟩ := Machine.exists_of_run hrun
  obtain ⟨-, -, hnull, htraversals, -⟩ := refines (.of_run ⟨_, rfl⟩ hs)
  rw [hseq] at htraversals
  exact ⟨s, hseq, hremoved, (htraversals 3 (by decide)).2, hnull 3 (by simp [hremoved])⟩

/-! ## `Insert` -/

/-- `start_` and `end_` are the first and the last element, and both loops of `Validate` count
`count_` elements. -/
def EndsTrue (s : ListRun α) : Prop :=
  s.list.list.start_ = s.seq.head? ∧ s.list.list.end_ = s.seq.getLast? ∧
    ∀ fuel, s.seq.length ≤ fuel → ∃ visited, s.list.Validate fuel = .ok visited

omit [DecidableEq α] in
theorem Good.endsTrue (h : s.Good) : s.EndsTrue :=
  ⟨h.first_eq, h.last_eq, fun _ hfuel => ⟨_, h.Validate_eq hfuel⟩⟩

theorem Good.spoil (h : s.Good) (hinsert : ¬ l.Plain) (hst : (machine α).step s l = some t) :
    ¬ t.EndsTrue := by
  cases l with
  | insert pos newT =>
    obtain ⟨⟨hpos, hnew⟩, hst⟩ := Option.ite_none_right_eq_some.mp hst
    obtain ⟨list, hlist, -⟩ := s.list.Insert_fields (ne_of_mem_of_not_mem hpos hnew)
    rw [hlist] at hst
    cases hst
    obtain ⟨l, r, hseq⟩ := List.append_of_mem hpos
    have hwf := h.toWellFormed
    rw [hseq] at hwf hnew
    obtain ⟨hnotin, -⟩ := List.nodup_cons.mp (List.nodup_middle.mp hwf.nodup)
    have hposl : pos ∉ l := fun hmem => hnotin (List.mem_append_left r hmem)
    intro hends
    have hend : list.list.end_ = (insertAfter pos newT s.seq).getLast? := hends.2.1
    rw [hseq, insertAfter_eq hposl] at hend
    exact hwf.Insert_end_ne hnew hlist hend
  | _ => exact absurd trivial hinsert

/-- The test `end_ != &pos` is the wrong way round: no call of `Insert` yields a well-formed list,
and a run has the right ends throughout exactly if it never calls `Insert`. -/
theorem insert_spoils :
    (∀ (s : IntrusiveList α) (xs : List α) (pos newT : α), s.WellFormed xs → pos ∈ xs →
      newT ∉ xs → ∃ t, s.Insert pos newT = .ok t ∧ ∀ ys, ¬ t.WellFormed ys) ∧
    ∀ (s t : ListRun α) (tr : List (ListRun α × Label α)), (machine α).start s →
      (machine α).Trace s tr t →
      ((∀ u ∈ Machine.visited tr t, u.EndsTrue) ↔ ∀ p ∈ tr, p.2.Plain) := by
  constructor
  · intro s xs pos newT h hpos hnew
    obtain ⟨t, ht, -⟩ := s.Insert_fields (ne_of_mem_of_not_mem hpos hnew)
    exact ⟨t, ht, fun ys => h.not_wellFormed_Insert hpos hnew ht⟩
  · intro s t tr hs htr
    exact htr.forall_visited_iff (fun _ => Good.endsTrue) (fun _ _ _ h hok hst => h.step hok hst)
      (fun _ _ _ h hbad hst => h.spoil hbad hst) (Good.start hs)

/-- A list with the one element 1. -/
theorem single_wellFormed : (IntrusiveList.Append {} 1 : IntrusiveList ℕ).WellFormed [1] :=
  (IntrusiveList.WellFormed.empty fun _ => {}).Append (by simp)

/-- `Insert` behind the only element, by the call alone and at the end of a run. -/
theorem insert_spoils_single :
    (∃ t : IntrusiveList ℕ, (IntrusiveList.Append {} 1).Insert 1 2 = .ok t ∧
      ∀ ys, ¬ t.WellFormed ys) ∧
    ∃ (tr : List (ListRun ℕ × Label ℕ)) (t : ListRun ℕ), (machine ℕ).Trace {} tr t ∧
      tr.map Prod.snd = [.append 1, .insert 1 2] ∧ ¬ ∀ u ∈ Machine.visited tr t, u.EndsTrue := by
  obtain ⟨tr, t, htr, hls⟩ := Machine.Trace.of_isSome
    (show ((machine ℕ).run {} [.append 1, .insert 1 2]).isSome = true by decide +kernel)
  refine ⟨insert_spoils.1 _ _ 1 2 single_wellFormed (by simp) (by simp), tr, t, htr, hls, ?_⟩
  intro hall
  have hplain := (insert_spoils.2 _ t tr ⟨_, rfl⟩ htr).mp hall
  have hmem : Label.insert 1 2 ∈ tr.map Prod.snd := by rw [hls]; simp
  obtain ⟨p, hp, hlabel⟩ := List.mem_map.mp hmem
  have hp := hplain p hp
  rw [hlabel] at hp
  exact hp

/-- The new element is not reached from `end_`. -/
theorem not_insert_wellFormed : ¬ ∀ (s : IntrusiveList ℕ) (xs : List ℕ) (pos newT : ℕ),
    s.WellFormed xs → pos ∈ xs → newT ∉ xs →
    ∃ t, s.Insert pos newT = .ok t ∧ t.WellFormed (insertAfter pos newT xs) := by
  intro h
  obtain ⟨t, ht, hwf⟩ := h _ _ 1 2 single_wellFormed (by simp) (by simp)
  have hend : ((IntrusiveList.Append {} 1).Insert 1 2).toOption.map (fun t => t.list.end_) =
      some (some 1) := by decide +kernel
  rw [ht] at hend
  have hlast : (some 1 : Option ℕ) = some 2 :=
    (Option.some.inj hend).symm.trans hwf.last_eq
  cases hlast

end ListRun

end QStorage.Tools
