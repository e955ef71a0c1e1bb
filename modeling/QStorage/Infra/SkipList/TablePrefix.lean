import QStorage.Lib.Bits

/-!
# The key prefix (`infra/skip_list.h`)

Tenant, database and table share one 64-bit word, 14 bits for the database and 16 for the table,
whose low four bits are the index. The decoders return 32 bits.

## Main results

* `TablePrefix.toNat_id_` — the fields of the word, side by side.
* `TablePrefix.decodes_iff` — the encoder and the four decoders agree only on tenant 0 and table 0.
* `TablePrefix.comp_hierarchical` — prefixes are ordered by tenant, then database, then table.
-/

namespace QStorage.Infra

open QStorage.Lib

structure TablePrefix where
  id_ : BitVec 64
  deriving DecidableEq, Repr

namespace TablePrefix

def construct (tenant_id db_id table_id : BitVec 64) : TablePrefix :=
  { id_ := tenant_id <<< 30 ||| db_id <<< 16 ||| table_id }

def tenantID (p : TablePrefix) : BitVec 32 := (p.id_ >>> 32).setWidth 32

def dbID (p : TablePrefix) : BitVec 32 := ((p.id_ >>> 16) &&& 0x3fff).setWidth 32

def tableID (p : TablePrefix) : BitVec 32 := (p.id_ &&& 0b11111111110000).setWidth 32

def indexID (p : TablePrefix) : BitVec 32 := (p.id_ &&& 0b1111).setWidth 32

/-- No field reaches into the next one. -/
theorem toNat_id_ {tenant_id db_id table_id : BitVec 64} (htenant : tenant_id.toNat < 2 ^ 34)
    (hdb : db_id.toNat < 2 ^ 14) (htable : table_id.toNat < 2 ^ 16) :
    (construct tenant_id db_id table_id).id_.toNat =
      tenant_id.toNat * 2 ^ 30 + db_id.toNat * 2 ^ 16 + table_id.toNat := by
  have hlow : (db_id <<< 16 ||| table_id).toNat = db_id.toNat * 2 ^ 16 + table_id.toNat :=
    Bits.toNat_shiftLeft_or (by omega) htable
  rw [construct, BitVec.or_assoc, Bits.toNat_shiftLeft_or (by omega) (by omega), hlow,
    Nat.add_assoc]

section Decoders

variable (p : TablePrefix)

theorem toNat_tenantID : p.tenantID.toNat = p.id_.toNat / 2 ^ 32 := by
  have hlt := p.id_.isLt
  rw [tenantID, BitVec.toNat_setWidth, BitVec.toNat_ushiftRight, Nat.shiftRight_eq_div_pow,
    Nat.mod_eq_of_lt (by omega)]

theorem toNat_dbID : p.dbID.toNat = p.id_.toNat / 2 ^ 16 % 2 ^ 14 := by
  have hmask := Bits.toNat_and_mask (k := 14) (by decide) (p.id_ >>> 16)
  rw [BitVec.toNat_ushiftRight, Nat.shiftRight_eq_div_pow] at hmask
  rw [dbID, BitVec.toNat_setWidth]
  exact (congrArg (· % 2 ^ 32) hmask).trans (by omega)

/-- The mask keeps the table's number where it stands, above the index. -/
theorem toNat_tableID : p.tableID.toNat = p.id_.toNat % 2 ^ 14 / 2 ^ 4 * 2 ^ 4 := by
  have hmask : p.id_ &&& 0b11111111110000 =
      p.id_ &&& BitVec.ofNat 64 (2 ^ 14 - 1) &&& ~~~BitVec.ofNat 64 (2 ^ 4 - 1) := by
    rw [BitVec.and_assoc]
    rfl
  rw [tableID, BitVec.toNat_setWidth, hmask, Bits.toNat_and_not_mask,
    Bits.toNat_and_mask (by decide)]
  omega

theorem toNat_indexID : p.indexID.toNat = p.id_.toNat % 2 ^ 4 := by
  have hmask := Bits.toNat_and_mask (k := 4) (by decide) p.id_
  rw [indexID, BitVec.toNat_setWidth]
  exact (congrArg (· % 2 ^ 32) hmask).trans (by omega)

end Decoders

/-- What the decoders return of the prefix of three numbers in range. -/
theorem decoded {tenant_id db_id table_id : ℕ} (htenant : tenant_id < 2 ^ 32)
    (hdb : db_id < 2 ^ 14) (htable : table_id < 2 ^ 14) :
    let p := construct (BitVec.ofNat 64 tenant_id) (BitVec.ofNat 64 db_id)
      (BitVec.ofNat 64 table_id)
    p.tenantID.toNat = tenant_id / 4 ∧ p.dbID.toNat = db_id ∧
      p.tableID.toNat = table_id / 16 * 16 ∧ p.indexID.toNat = table_id % 16 := by
  have htoNat {n : ℕ} (hn : n < 2 ^ 32) : (BitVec.ofNat 64 n).toNat = n :=
    (BitVec.toNat_ofNat n 64).trans (Nat.mod_eq_of_lt (by omega))
  have hid : (construct (BitVec.ofNat 64 tenant_id) (BitVec.ofNat 64 db_id)
      (BitVec.ofNat 64 table_id)).id_.toNat =
      tenant_id * 2 ^ 30 + db_id * 2 ^ 16 + table_id := by
    rw [toNat_id_, htoNat htenant, htoNat (by omega), htoNat (by omega)]
    · rw [htoNat htenant]
      omega
    · rw [htoNat (by omega)]
      exact hdb
    · rw [htoNat (by omega)]
      omega
  intro p
  rw [toNat_tenantID, toNat_dbID, toNat_tableID, toNat_indexID, show p.id_.toNat = _ from hid]
  refine ⟨?_, ?_, ?_, ?_⟩ <;> omega

/-- The four decoders return what the prefix was built from. -/
def Decodes (p : TablePrefix) (tenant_id db_id t x : ℕ) : Prop :=
  p.tenantID.toNat = tenant_id ∧ p.dbID.toNat = db_id ∧ p.tableID.toNat = t ∧
    p.indexID.toNat = x

/-- `tenantID` shifts two places too far, and `tableID` leaves out the shift by four. -/
theorem decodes_iff {tenant_id db_id t x : ℕ} (htenant : tenant_id < 2 ^ 32)
    (hdb : db_id < 2 ^ 14) (ht : t < 1024) (hx : x < 16) :
    (construct (BitVec.ofNat 64 tenant_id) (BitVec.ofNat 64 db_id)
      (BitVec.ofNat 64 (16 * t + x))).Decodes tenant_id db_id t x ↔ tenant_id = 0 ∧ t = 0 := by
  obtain ⟨htenantID, hdbID, htableID, hindexID⟩ :=
    decoded htenant hdb (show 16 * t + x < 2 ^ 14 by omega)
  rw [Decodes, htenantID, hdbID, htableID, hindexID]
  omega

theorem decodes_zero : (construct (BitVec.ofNat 64 0) (BitVec.ofNat 64 5)
    (BitVec.ofNat 64 (16 * 0 + 7))).Decodes 0 5 0 7 :=
  (decodes_iff (by decide) (by decide) (by decide) (by decide)).mpr ⟨rfl, rfl⟩

/-- Tenant 1 decodes as tenant 0. -/
theorem not_decodes : ¬ ∀ tenant_id db_id t x : ℕ, tenant_id < 2 ^ 32 → db_id < 2 ^ 14 →
    t < 1024 → x < 16 →
    (construct (BitVec.ofNat 64 tenant_id) (BitVec.ofNat 64 db_id)
      (BitVec.ofNat 64 (16 * t + x))).Decodes tenant_id db_id t x := by
  intro h
  have htenant := (h 1 0 0 0 (by decide) (by decide) (by decide) (by decide)).1
  revert htenant
  decide

/-! ## The order of prefixes -/

/-- `TablePrefixComp` -/
def comp (lhs rhs : TablePrefix) : Ordering := compare lhs.id_ rhs.id_

/-- Three numbers, each within the bits the prefix has for it. -/
@[ext] structure Triple where
  tenant_id : BitVec 64
  db_id : BitVec 64
  table_id : BitVec 64
  tenant_lt : tenant_id.toNat < 2 ^ 34
  db_lt : db_id.toNat < 2 ^ 14
  table_lt : table_id.toNat < 2 ^ 16

namespace Triple

def tablePrefix (k : Triple) : TablePrefix := construct k.tenant_id k.db_id k.table_id

/-- The lexicographic order. -/
def lex (a b : Triple) : Ordering :=
  (compare a.tenant_id b.tenant_id).then
    ((compare a.db_id b.db_id).then (compare a.table_id b.table_id))

variable (a b : Triple)

theorem toNat_tablePrefix : a.tablePrefix.id_.toNat =
    a.tenant_id.toNat * 2 ^ 30 + a.db_id.toNat * 2 ^ 16 + a.table_id.toNat :=
  toNat_id_ a.tenant_lt a.db_lt a.table_lt

theorem comp_tablePrefix : comp a.tablePrefix b.tablePrefix = a.lex b := by
  have hid (k : Triple) : k.tablePrefix.id_.toNat =
      (k.tenant_id.toNat * 2 ^ 14 + k.db_id.toNat) * 2 ^ 16 + k.table_id.toNat := by
    rw [toNat_tablePrefix]
    omega
  calc comp a.tablePrefix b.tablePrefix
      = compare a.tablePrefix.id_.toNat b.tablePrefix.id_.toNat := Bits.compare_toNat _ _
    _ = a.lex b := by
        rw [hid, hid, Bits.compare_mul_add a.table_lt b.table_lt,
          Bits.compare_mul_add a.db_lt b.db_lt, Ordering.then_assoc]
        simp only [lex, Bits.compare_toNat]

theorem tablePrefix_inj : a.tablePrefix = b.tablePrefix ↔ a = b := by
  constructor
  · intro heq
    have hid : a.tablePrefix.id_.toNat = b.tablePrefix.id_.toNat := by rw [heq]
    rw [toNat_tablePrefix, toNat_tablePrefix] at hid
    have hdb := a.db_lt
    have hdb' := b.db_lt
    have htable := a.table_lt
    have htable' := b.table_lt
    apply Triple.ext <;> apply BitVec.eq_of_toNat_eq <;> omega
  · exact congrArg tablePrefix

/-- The fields fill the word. -/
theorem exists_tablePrefix (p : TablePrefix) : ∃ k : Triple, k.tablePrefix = p := by
  have hlt := p.id_.isLt
  have hfield {n : ℕ} (hn : n < 2 ^ 34) : ∃ x : BitVec 64, x.toNat = n :=
    ⟨BitVec.ofNat 64 n, (BitVec.toNat_ofNat n 64).trans (Nat.mod_eq_of_lt (by omega))⟩
  obtain ⟨tenant_id, htenant⟩ := hfield (n := p.id_.toNat / 2 ^ 30) (by omega)
  obtain ⟨db_id, hdb⟩ := hfield (n := p.id_.toNat / 2 ^ 16 % 2 ^ 14) (by omega)
  obtain ⟨table_id, htable⟩ := hfield (n := p.id_.toNat % 2 ^ 16) (by omega)
  let k : Triple := ⟨tenant_id, db_id, table_id, by omega, by omega, by omega⟩
  have hid : k.tablePrefix.id_.toNat = p.id_.toNat := by
    rw [toNat_tablePrefix, htenant, hdb, htable]
    omega
  refine ⟨k, ?_⟩
  cases p
  exact congrArg TablePrefix.mk (BitVec.eq_of_toNat_eq hid)

end Triple

/-- What lies between two members is a member. -/
def Contiguous (S : Set TablePrefix) : Prop :=
  ∀ p ∈ S, ∀ r ∈ S, ∀ q, (comp p q).isLE → (comp q r).isLE → q ∈ S

/-- The keys of a tenant. -/
def ofTenant (tenant_id : BitVec 64) : Set TablePrefix :=
  {p | ∃ k : Triple, k.tablePrefix = p ∧ k.tenant_id = tenant_id}

/-- The keys of a tenant's database. -/
def ofDb (tenant_id db_id : BitVec 64) : Set TablePrefix :=
  {p | ∃ k : Triple, k.tablePrefix = p ∧ k.tenant_id = tenant_id ∧ k.db_id = db_id}

theorem isLE_comp {p q : TablePrefix} : (comp p q).isLE ↔ p.id_.toNat ≤ q.id_.toNat := by
  rw [comp, Bits.compare_toNat, Nat.isLE_compare]

namespace Triple

variable {a b : Triple}

theorem tenant_le_of_isLE (hle : (comp a.tablePrefix b.tablePrefix).isLE) :
    a.tenant_id.toNat ≤ b.tenant_id.toNat := by
  rw [isLE_comp, toNat_tablePrefix, toNat_tablePrefix] at hle
  have hdb := b.db_lt
  have htable := b.table_lt
  omega

theorem db_le_of_isLE (hle : (comp a.tablePrefix b.tablePrefix).isLE)
    (htenant : a.tenant_id = b.tenant_id) : a.db_id.toNat ≤ b.db_id.toNat := by
  rw [isLE_comp, toNat_tablePrefix, toNat_tablePrefix, htenant] at hle
  have htable := b.table_lt
  omega

end Triple

theorem contiguous_ofTenant (tenant_id : BitVec 64) : Contiguous (ofTenant tenant_id) := by
  rintro _ ⟨a, rfl, rfl⟩ _ ⟨c, rfl, hc⟩ q hab hbc
  obtain ⟨b, rfl⟩ := Triple.exists_tablePrefix q
  have hle := Triple.tenant_le_of_isLE hab
  have hge := Triple.tenant_le_of_isLE hbc
  rw [hc] at hge
  exact ⟨b, rfl, BitVec.eq_of_toNat_eq (le_antisymm hge hle)⟩

theorem contiguous_ofDb (tenant_id db_id : BitVec 64) : Contiguous (ofDb tenant_id db_id) := by
  rintro _ ⟨a, rfl, rfl, rfl⟩ _ ⟨c, rfl, hc, hdb⟩ q hab hbc
  obtain ⟨b, rfl, htenant⟩ :=
    contiguous_ofTenant a.tenant_id _ ⟨a, rfl, rfl⟩ _ ⟨c, rfl, hc⟩ q hab hbc
  have hle := Triple.db_le_of_isLE hab htenant.symm
  have hge := Triple.db_le_of_isLE hbc (htenant.trans hc.symm)
  rw [hdb] at hge
  exact ⟨b, rfl, htenant, BitVec.eq_of_toNat_eq (le_antisymm hge hle)⟩

/-- The prefixes stand in the order of tenant, database and table, no two in one place. -/
theorem comp_hierarchical (a b : Triple) (tenant_id db_id : BitVec 64) :
    comp a.tablePrefix b.tablePrefix = a.lex b ∧
      (a.tablePrefix.id_ = b.tablePrefix.id_ ↔ a = b) ∧
      Contiguous (ofTenant tenant_id) ∧ Contiguous (ofDb tenant_id db_id) := by
  refine ⟨a.comp_tablePrefix b, ?_, contiguous_ofTenant tenant_id,
    contiguous_ofDb tenant_id db_id⟩
  rw [← a.tablePrefix_inj b]
  exact TablePrefix.mk.injEq _ _ ▸ Iff.rfl

end TablePrefix

end QStorage.Infra
