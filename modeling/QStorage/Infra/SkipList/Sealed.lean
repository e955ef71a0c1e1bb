import QStorage.Infra.SkipList.Node

/-!
# A node never takes a second key (`infra/skip_list.h`)

The lock bit stays in `count_`, and `fetch_add` returns the count with the bit: an index beyond
every capacity. So every insertion is refused, until the count itself has wrapped.

## Main results

* `Node.nothing_stored` — a run of `SetKeyValue` calls leaves the node with the key of its
  constructor.
-/

namespace QStorage.Infra.Node

open QStorage.Lib

variable {α : Type*} {N k : ℕ} {s t : Threads ℕ (Memory α) (Call α)} {l : ℕ × Act}
  {ls : List (ℕ × Act)} {data_ : ℕ → α}

/-- A count with the lock bit does not change when the bit is set again. -/
theorem or_lockBit {x : BitVec 64} (h : 2 ^ 63 ≤ x.toNat) : x ||| lockBit = x := by
  have hmsb : x.getLsbD 63 = true := by
    rw [show (63 : ℕ) = 64 - 1 from rfl, ← BitVec.msb_eq_getLsbD_last, BitVec.msb_eq_decide]
    exact decide_eq_true h
  have hbit : lockBit = BitVec.twoPow 64 63 := rfl
  refine BitVec.eq_of_getLsbD_eq fun i hi => ?_
  rw [BitVec.getLsbD_or, hbit, BitVec.getLsbD_twoPow]
  by_cases hi63 : 63 = i
  · simp [← hi63, hmsb]
  · simp [hi63]

/-- Where a call can stand as long as the count has not wrapped. -/
def Pc.Refused (count_ : BitVec 64) : Pc → Prop
  | .idle | .exchange _ => True
  | .add => 2 ^ 63 ≤ count_.toNat
  | .returned result slot => result = some false ∧ slot = none
  | .store _ | .commit _ => False

/-- The states after `k` calls of `fetch_add`, on a node that the constructor left with `data_`. -/
structure Sealed (data_ : ℕ → α) (k : ℕ) (s : Threads ℕ (Memory α) (Call α)) : Prop where
  count : s.shared.count_ = 1 ∧ k = 0 ∨ s.shared.count_.toNat = 2 ^ 63 + 1 + k
  memory : s.shared.writes = [] ∧ s.shared.data_ = data_ ∧ s.shared.commit_ = 1
  refused : ∀ i, (s.locals i).pc.Refused s.shared.count_

theorem Sealed.start (hs : (machine N).start s) : Sealed s.shared.data_ 0 s := by
  obtain ⟨⟨data_, key_value, hshared⟩, hidle⟩ := hs
  refine ⟨.inl ⟨by rw [hshared]; rfl, rfl⟩, ⟨by rw [hshared], rfl, by rw [hshared]; rfl⟩, ?_⟩
  intro i
  rw [hidle i]
  trivial

theorem Pc.Refused.test (count_ res : BitVec 64) : (test N res (.exchange res)).Refused count_ := by
  unfold Node.test
  split_ifs
  · exact ⟨rfl, rfl⟩
  · trivial

theorem Pc.Refused.mono {pc : Pc} {c c' : BitVec 64} (h : pc.Refused c)
    (hlock : 2 ^ 63 ≤ c.toNat → 2 ^ 63 ≤ c'.toNat) : pc.Refused c' := by
  cases pc with
  | idle | exchange | returned => exact h
  | add => exact hlock h
  | store | commit => exact h.elim

theorem Sealed.step (hmax : N ≤ 2 ^ 63) (h : Sealed data_ k s)
    (hk : k + (if l.2 = .add then 1 else 0) < 2 ^ 63 - 1)
    (hst : (machine N).step s l = some t) :
    Sealed data_ (k + if l.2 = .add then 1 else 0) t := by
  obtain ⟨i, a⟩ := l
  have hact := Threads.step_self hst
  have hpc := h.refused i
  have hcalls (hself : (t.locals i).pc.Refused t.shared.count_)
      (hlock : 2 ^ 63 ≤ s.shared.count_.toNat → 2 ^ 63 ≤ t.shared.count_.toNat) (j : ℕ) :
      (t.locals j).pc.Refused t.shared.count_ := by
    by_cases hj : j = i
    · rwa [hj]
    · rw [Threads.step_other hst hj]
      exact (h.refused j).mono hlock
  cases a with
  | load =>
    obtain ⟨-, hshared, hcall⟩ := load_iff.mp hact
    refine ⟨hshared ▸ h.count, hshared ▸ h.memory, hcalls ?_ (by rw [hshared]; exact id)⟩
    rw [hcall]
    exact .test _ _
  | exchange spurious =>
    obtain ⟨res, -, ⟨rfl, -, hshared, hcall⟩ | ⟨-, hshared, hcall⟩⟩ := exchange_iff.mp hact
    · -- the bit is set for the first time, or was set before
      have hcount : t.shared.count_.toNat = 2 ^ 63 + 1 + k := by
        rw [hshared]
        rcases h.count with ⟨hone, rfl⟩ | hcount
        · rw [hone]
          exact toNat_locked
        · rw [or_lockBit (by omega), hcount]
      refine ⟨.inr hcount, by rw [hshared]; exact h.memory, hcalls ?_ fun _ => by omega⟩
      rw [hcall]
      exact (by omega : 2 ^ 63 ≤ t.shared.count_.toNat)
    · refine ⟨hshared ▸ h.count, hshared ▸ h.memory, hcalls ?_ (by rw [hshared]; exact id)⟩
      rw [hcall]
      trivial
  | add =>
    obtain ⟨hadd, hshared, hcall⟩ := add_iff.mp hact
    rw [hadd] at hpc
    have hlocked : 2 ^ 63 ≤ s.shared.count_.toNat := hpc
    have hcount : s.shared.count_.toNat = 2 ^ 63 + 1 + k := by
      rcases h.count with ⟨hone, -⟩ | hcount
      · rw [hone] at hlocked
        exact absurd hlocked (by decide)
      · exact hcount
    have hnext : t.shared.count_.toNat = 2 ^ 63 + 1 + (k + 1) := by
      have hk : k + 1 < 2 ^ 63 - 1 := hk
      have hone : (1 : BitVec 64).toNat = 1 := rfl
      rw [hshared, BitVec.toNat_add_of_lt (by omega), hone, hcount, Nat.add_assoc]
    refine ⟨.inr hnext, by rw [hshared]; exact h.memory, hcalls ?_ fun _ => by omega⟩
    rw [hcall, Node.test, if_pos (by omega)]
    exact ⟨rfl, rfl⟩
  | store =>
    cases hstore : (s.locals i).pc with
    | store index =>
      rw [hstore] at hpc
      exact hpc.elim
    | _ => simp [SetKeyValue, hstore] at hact
  | commit =>
    cases hcommit : (s.locals i).pc with
    | commit index =>
      rw [hcommit] at hpc
      exact hpc.elim
    | _ => simp [SetKeyValue, hcommit] at hact

theorem Sealed.run (hmax : N ≤ 2 ^ 63) (hs : (machine N).start s)
    (hadds : ls.countP (fun l => l.2 = .add) < 2 ^ 63 - 1) (h : (machine N).run s ls = some t) :
    Sealed s.shared.data_ (ls.countP fun l => l.2 = .add) t := by
  induction ls using List.reverseRecOn generalizing t with
  | nil =>
    obtain rfl : s = t := by simpa [Machine.run] using h
    exact .start hs
  | append_singleton ls l ih =>
    obtain ⟨u, hu, hst⟩ := Machine.run_concat_eq_some.mp h
    rw [List.countP_append, List.countP_singleton] at hadds ⊢
    simp only [decide_eq_true_eq] at hadds ⊢
    exact (ih (by omega) hu).step hmax hadds hst

/-- As long as there are fewer than `2 ^ 63 - 1` calls of `fetch_add`, no call of `SetKeyValue`
stores anything, in any interleaving, and each that ends in its `return` reports failure. -/
theorem nothing_stored (hmax : N ≤ 2 ^ 63) (hs : (machine N).start s)
    (hadds : ls.countP (fun l => l.2 = .add) < 2 ^ 63 - 1) (h : (machine N).run s ls = some t) :
    t.shared.data_ = s.shared.data_ ∧ t.shared.commit_ = 1 ∧
      ∀ i result slot, (t.locals i).pc = .returned result slot → result = some false := by
  have hsealed := Sealed.run hmax hs hadds h
  refine ⟨hsealed.memory.2.1, hsealed.memory.2.2, fun i result slot hret => ?_⟩
  have hrefused := hsealed.refused i
  rw [hret] at hrefused
  exact hrefused.1

/-- Two calls that both get the lock. -/
def bothRun : List (ℕ × Act) :=
  [(0, .load), (1, .load), (0, .exchange false), (1, .exchange false), (1, .exchange false),
    (0, .add), (1, .add)]

theorem nothing_stored_both : ∃ t, (machine 16).run fresh bothRun = some t ∧
    t.shared.data_ = fresh.shared.data_ ∧ t.shared.commit_ = 1 := by
  obtain ⟨t, ht⟩ := Option.isSome_iff_exists.mp
    (show ((machine 16).run fresh bothRun).isSome = true by decide +kernel)
  have h := nothing_stored (by decide) fresh_start (by decide) ht
  exact ⟨t, ht, h.1, h.2.1⟩

end QStorage.Infra.Node
