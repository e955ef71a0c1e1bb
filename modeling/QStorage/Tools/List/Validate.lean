import QStorage.Tools.List

/-!
# What `Validate` finds (`tools/list.h`)

`Validate` counts the elements in both directions and looks at nothing else. That is enough to
find what `Insert` leaves behind: the way back from `end_` misses the new element or all elements
behind it, while the way from `start_` is as it should be and `Map` alone notices nothing.

## Main results

* `IntrusiveList.WellFormed.Validate_Insert` — after `Insert` the assertion of the second count
  fails.
* `ListRun.validate_passes_iff` — checked after every operation, a run passes exactly if it never
  calls `Insert`, and is stopped by the first call.
-/

namespace QStorage.Tools

open QStorage.Lib

namespace IntrusiveList

variable {α : Type*} [DecidableEq α] {s t : IntrusiveList α} {l r : List α} {pos newT : α}

/-- The fields that the way back depends on, after `Insert`. -/
theorem Insert_prev (s : IntrusiveList α) (hne : pos ≠ newT) :
    ∃ t, s.Insert pos newT = .ok t ∧
      t.prev = relink (Function.update s.prev newT (some pos)) (s.next pos) (some newT) ∧
      t.list.count_ = s.list.count_ + 1 := by
  refine ⟨_, if_neg hne, ?_⟩
  by_cases hend : s.list.end_ = some pos <;> simp [hend, hne]

/-- The elements up to `pos` are still linked backwards. -/
theorem WellFormed.backward_Insert (h : s.WellFormed (l ++ pos :: r))
    (hnew : newT ∉ l ++ pos :: r) :
    Segment (relink (Function.update s.prev newT (some pos)) (s.next pos) (some newT)) (some pos)
      (l ++ [pos]).reverse none := by
  have hback := h.backward
  rw [Doubly.reverse_split] at hback
  obtain ⟨_, -, rfl, hrest⟩ := Segment.append_iff.mp hback
  have hkeep (a : α) (ha : a ∈ l ++ [pos]) : s.prev a =
      relink (Function.update s.prev newT (some pos)) (s.next pos) (some newT) a := by
    have hnext : s.next pos ≠ some a := by
      rw [h.next_eq]
      intro hhead
      have hnodup : ((l ++ [pos]) ++ r).Nodup := by simpa using h.nodup
      exact (List.nodup_append.mp hnodup).2.2 a ha a (List.mem_of_head? hhead) rfl
    have hane : a ≠ newT := by
      rintro rfl
      rw [List.append_cons] at hnew
      exact hnew (List.mem_append_left r ha)
    rw [Segment.relink_apply_of_ne hnext, Function.update_of_ne hane]
  rw [List.reverse_append]
  refine Segment.congr (fun a ha => hkeep a (by simpa [or_comm] using ha)) ?_
  exact ⟨rfl, hrest⟩

/-- `Insert` keeps the way forward and cuts the way back short, so that `Map` passes and `Validate`
does not. -/
theorem WellFormed.Validate_Insert (h : s.WellFormed (l ++ pos :: r))
    (hnew : newT ∉ l ++ pos :: r) (ht : s.Insert pos newT = .ok t) {fuel : ℕ}
    (hfuel : (l ++ pos :: r).length < fuel) :
    t.Map fuel = .ok (l ++ pos :: newT :: r) ∧ t.Validate fuel = .error .assertFailed := by
  have hne : pos ≠ newT := fun heq => hnew (by simp [heq])
  obtain ⟨t', ht', hnext, hstart, hend⟩ := s.Insert_fields hne
  obtain rfl : t = t' := Except.ok.inj (ht.symm.trans ht')
  obtain ⟨t', ht', hprev, hcount⟩ := s.Insert_prev hne
  obtain rfl : t = t' := Except.ok.inj (ht.symm.trans ht')
  have hlength : (l ++ pos :: newT :: r).length = (l ++ pos :: r).length + 1 := by simp; omega
  have hforward := h.forward.link_after h.nodup hnew
  rw [← hnext, ← hstart] at hforward
  have hmap : t.Map fuel = .ok (l ++ pos :: newT :: r) := by
    rw [Map, hforward.walk_eq (by omega)]
    exact if_pos (by rw [hlength, hcount, h.count])
  refine ⟨hmap, ?_⟩
  -- the second loop visits `ys`, which are too few
  suffices hback : ∃ ys, Segment t.prev t.list.end_ ys none ∧ ys.length < t.list.count_ by
    obtain ⟨ys, hys, hfew⟩ := hback
    have hcount_le : t.list.count_ ≤ fuel := by rw [hcount, h.count]; omega
    rw [Validate, hmap, hys.walk_eq (by omega)]
    exact if_neg (Nat.ne_of_lt hfew)
  have hpart := h.backward_Insert hnew
  rw [← hprev] at hpart
  rw [hcount, h.count, hend, h.last_eq]
  obtain rfl | ⟨r, last, rfl⟩ := List.eq_nil_or_concat' r
  · refine ⟨(l ++ [pos]).reverse, ?_, by simp⟩
    rw [List.getLast?_concat, if_neg (by simp)]
    exact hpart
  · have hlast : last ≠ pos := by
      rintro rfl
      have hnodup := h.nodup
      simp [List.nodup_append] at hnodup
    have hold : (l ++ pos :: (r ++ [last])).getLast? = some last := by
      rw [← List.cons_append, ← List.append_assoc, List.getLast?_concat]
    refine ⟨newT :: (l ++ [pos]).reverse, ⟨?_, ?_⟩, by simp⟩
    · rw [hold, if_pos (by simpa using hlast)]
    · have hlink : t.prev newT = some pos := by
        rw [hprev, Segment.relink_apply_of_ne, Function.update_self]
        rw [h.next_eq]
        intro hhead
        exact hnew (by simp [List.mem_of_head? hhead])
      rw [hlink]
      exact hpart

end IntrusiveList

namespace ListRun

variable {α : Type*} [DecidableEq α] {s t : ListRun α} {l : Label α}

/-- `Validate` passes. -/
def Passes (s : ListRun α) : Prop :=
  ∀ fuel, s.seq.length ≤ fuel → ∃ visited, s.list.Validate fuel = .ok visited

omit [DecidableEq α] in
theorem Good.passes (h : s.Good) : s.Passes := fun _ hfuel => ⟨_, h.Validate_eq hfuel⟩

/-- After `Insert` the way forward is that of the sequence, and `Validate` stops. -/
theorem Good.insert (h : s.Good) {pos newT : α}
    (hst : (machine α).step s (.insert pos newT) = some t) {fuel : ℕ}
    (hfuel : t.seq.length ≤ fuel) :
    t.list.Map fuel = .ok t.seq ∧ t.list.Validate fuel = .error .assertFailed := by
  obtain ⟨⟨hpos, hnew⟩, hst⟩ := Option.ite_none_right_eq_some.mp hst
  obtain ⟨list, hlist, -⟩ := s.list.Insert_fields (ne_of_mem_of_not_mem hpos hnew)
  rw [hlist] at hst
  cases hst
  obtain ⟨l, r, hseq⟩ := List.append_of_mem hpos
  have hwf := h.toWellFormed
  rw [hseq] at hwf hnew
  obtain ⟨hnotin, -⟩ := List.nodup_cons.mp (List.nodup_middle.mp hwf.nodup)
  have hposl : pos ∉ l := fun hmem => hnotin (List.mem_append_left r hmem)
  have hadded : insertAfter pos newT s.seq = l ++ pos :: newT :: r := by
    rw [hseq, insertAfter_eq hposl]
  have hfuel : (insertAfter pos newT s.seq).length ≤ fuel := hfuel
  have hlt : (l ++ pos :: r).length < fuel := by
    rw [hadded] at hfuel
    simp at hfuel ⊢
    omega
  have hfound := hwf.Validate_Insert hnew hlist hlt
  exact ⟨hfound.1.trans (congrArg _ hadded.symm), hfound.2⟩

/-- With `Validate` after every operation a run passes exactly if it never calls `Insert`. The call
that it stops at is the first one of `Insert`, and there the loop of `Map` alone notices nothing. -/
theorem validate_passes_iff {tr : List (ListRun α × Label α)} (hs : (machine α).start s)
    (htr : (machine α).Trace s tr t) :
    ((∀ u ∈ Machine.visited tr t, u.Passes) ↔ ∀ p ∈ tr, p.2.Plain) ∧
    ∀ pos newT v, (∀ p ∈ tr, p.2.Plain) → (machine α).step t (.insert pos newT) = some v →
      ∀ fuel, v.seq.length ≤ fuel →
        v.list.Map fuel = .ok v.seq ∧ v.list.Validate fuel = .error .assertFailed := by
  constructor
  · refine htr.forall_visited_iff (fun _ => Good.passes)
      (fun _ _ _ h hok hst => Good.step h hok hst) ?_ (Good.start hs)
    intro s l t h hbad hst hpasses
    cases l with
    | insert pos newT =>
      obtain ⟨visited, hvisited⟩ := hpasses _ (Nat.le_refl _)
      rw [(h.insert hst (Nat.le_refl _)).2] at hvisited
      cases hvisited
    | _ => exact absurd trivial hbad
  · intro pos newT v hplain hst fuel hfuel
    exact (Good.of_run ⟨s, tr, hs, htr, hplain⟩).insert hst hfuel

/-- `Insert` behind the first of two elements, and behind the second one. -/
theorem validate_passes_iff_two : ∃ (tr : List (ListRun ℕ × Label ℕ)) (t u v : ListRun ℕ),
    (machine ℕ).Trace {} tr t ∧ tr.map Prod.snd = [.append 1, .append 2] ∧ t.Passes ∧
    (machine ℕ).step t (.insert 1 3) = some u ∧ u.list.Map 3 = .ok [1, 3, 2] ∧
    u.list.Validate 3 = .error .assertFailed ∧
    (machine ℕ).step t (.insert 2 3) = some v ∧ v.list.Map 3 = .ok [1, 2, 3] ∧
    v.list.Validate 3 = .error .assertFailed := by
  have hrun : ((machine ℕ).run {} [.append 1, .append 2]).any (fun t =>
      ((machine ℕ).step t (.insert 1 3)).any (fun u => u.seq = [1, 3, 2]) ∧
      ((machine ℕ).step t (.insert 2 3)).any (fun v => v.seq = [1, 2, 3])) = true := by
    decide +kernel
  obtain ⟨t, ht, hfirst, hlast⟩ := Machine.exists_of_run hrun
  obtain ⟨u, hu, huseq⟩ := (Option.any_eq_true _ _).mp hfirst
  obtain ⟨v, hv, hvseq⟩ := (Option.any_eq_true _ _).mp hlast
  have huseq : u.seq = [1, 3, 2] := of_decide_eq_true huseq
  have hvseq : v.seq = [1, 2, 3] := of_decide_eq_true hvseq
  obtain ⟨tr, htr, hls⟩ := Machine.Trace.of_run ht
  have hplain : ∀ p ∈ tr, p.2.Plain := by
    have hlabels : ∀ l ∈ ([.append 1, .append 2] : List (Label ℕ)), l.Plain := by decide
    exact fun p hp => hlabels p.2 (hls ▸ List.mem_map_of_mem hp)
  have hstart : (machine ℕ).start {} := ⟨_, rfl⟩
  obtain ⟨hiff, hstops⟩ := validate_passes_iff hstart htr
  obtain ⟨humap, hustop⟩ := hstops 1 3 u hplain hu 3 (by simp [huseq])
  obtain ⟨hvmap, hvstop⟩ := hstops 2 3 v hplain hv 3 (by simp [hvseq])
  refine ⟨tr, t, u, v, htr, hls, hiff.mpr hplain t ?_, hu, huseq ▸ humap, hustop, hv,
    hvseq ▸ hvmap, hvstop⟩
  exact List.mem_append_right _ (List.mem_singleton_self t)

end ListRun

end QStorage.Tools
