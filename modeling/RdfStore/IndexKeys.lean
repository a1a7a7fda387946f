import Mathlib.Data.Nat.Notation
import Mathlib.Order.Defs.LinearOrder
import Mathlib.Tactic.NormNum

/-!
# The order of the integer index (`backend_bdb_store.c`)

The b-tree of `xsd:integer` values holds the eight bytes of a `long` as its keys
and orders them by `rdfstore_backend_bdb_compare_int`, which subtracts them and
answers the difference as an `int`.

    the answer is the difference of the two, wrapped to 32 bits     (toInt_compareInt)
    its sign is right ↔ the wrapped difference has kept its sign    (compareInt_right_iff)
    keys less than 2^31 apart are in order                          (compareInt_right_of_near)
-/

namespace RdfStore

/-- `return (ai - bi)`: a 64 bit difference that wraps, narrowed to an `int`. -/
def rdfstoreBackendBdbCompareInt (ai bi : Int64) : Int32 := (ai - bi).toInt32

/-- What the comment above the comparators promises. -/
structure ComparesRight (ai bi : Int64) : Prop where
  less : rdfstoreBackendBdbCompareInt ai bi < 0 ↔ ai < bi
  equal : rdfstoreBackendBdbCompareInt ai bi = 0 ↔ ai = bi
  greater : 0 < rdfstoreBackendBdbCompareInt ai bi ↔ bi < ai

theorem toInt_compareInt (ai bi : Int64) :
    (rdfstoreBackendBdbCompareInt ai bi).toInt = (ai.toInt - bi.toInt).bmod (2 ^ 32) := by
  unfold rdfstoreBackendBdbCompareInt
  rw [Int64.toInt_toInt32, Int64.toInt_sub]
  exact Int.bmod_bmod_of_dvd (by decide)

/-- The low half of the difference, read as a signed number. -/
theorem toInt_compareInt_eq_ite (ai bi : Int64) :
    (rdfstoreBackendBdbCompareInt ai bi).toInt =
      if (ai.toInt - bi.toInt) % 2 ^ 32 < 2 ^ 31 then (ai.toInt - bi.toInt) % 2 ^ 32
      else (ai.toInt - bi.toInt) % 2 ^ 32 - 2 ^ 32 := by
  rw [toInt_compareInt, Int.bmod_def]
  rfl

/-- The order of the numbers, as a statement about their difference. -/
theorem comparesRight_iff_sign (ai bi : Int64) :
    ComparesRight ai bi ↔
      ((rdfstoreBackendBdbCompareInt ai bi).toInt < 0 ↔ ai.toInt < bi.toInt) ∧
      ((rdfstoreBackendBdbCompareInt ai bi).toInt = 0 ↔ ai.toInt = bi.toInt) ∧
      (0 < (rdfstoreBackendBdbCompareInt ai bi).toInt ↔ bi.toInt < ai.toInt) := by
  have hzero : ∀ r : Int32, r = 0 ↔ r.toInt = 0 := by
    intro r
    rw [← Int32.toInt_inj, Int32.toInt_zero]
  constructor
  · rintro ⟨hlt, heq, hgt⟩
    rw [Int32.lt_iff_toInt_lt, Int64.lt_iff_toInt_lt, Int32.toInt_zero] at hlt hgt
    rw [hzero, ← Int64.toInt_inj] at heq
    exact ⟨hlt, heq, hgt⟩
  · rintro ⟨hlt, heq, hgt⟩
    constructor
    · rw [Int32.lt_iff_toInt_lt, Int64.lt_iff_toInt_lt, Int32.toInt_zero]
      exact hlt
    · rw [hzero, ← Int64.toInt_inj]
      exact heq
    · rw [Int32.lt_iff_toInt_lt, Int64.lt_iff_toInt_lt, Int32.toInt_zero]
      exact hgt

/-- Right for equal keys, for a larger first key when the low half of the difference is a positive `int`, and
for a smaller one when it is a negative `int`. -/
theorem compareInt_right_iff (ai bi : Int64) :
    ComparesRight ai bi ↔
      ai = bi ∨
      (bi < ai ∧ 0 < (ai.toInt - bi.toInt) % 2 ^ 32 ∧ (ai.toInt - bi.toInt) % 2 ^ 32 < 2 ^ 31) ∨
      (ai < bi ∧ 2 ^ 31 ≤ (ai.toInt - bi.toInt) % 2 ^ 32) := by
  rw [comparesRight_iff_sign, toInt_compareInt_eq_ite, ← Int64.toInt_inj, Int64.lt_iff_toInt_lt,
    Int64.lt_iff_toInt_lt]
  generalize ai.toInt = a
  generalize bi.toInt = b
  have hlo : 0 ≤ (a - b) % 2 ^ 32 := Int.emod_nonneg _ (by decide)
  have hhi : (a - b) % 2 ^ 32 < 2 ^ 32 := Int.emod_lt_of_pos _ (by decide)
  by_cases hsmall : (a - b) % 2 ^ 32 < 2 ^ 31
  · rw [if_pos hsmall]
    omega
  · rw [if_neg hsmall]
    omega

/-- Keys that are 2^32 apart are one key to the b-tree. -/
theorem compareInt_merges_distant_keys : ¬ ComparesRight 4294967296 0 := by
  rintro ⟨-, hequal, -⟩
  exact absurd (hequal.1 (by decide)) (by decide)

/-- Among keys that span less than half the `int` range the order is that of the numbers. -/
theorem compareInt_right_of_near {ai bi : Int64} (h : ai.toInt - bi.toInt < 2 ^ 31)
    (h' : bi.toInt - ai.toInt ≤ 2 ^ 31) : ComparesRight ai bi := by
  have hbmod : (ai.toInt - bi.toInt).bmod (2 ^ 32) = ai.toInt - bi.toInt := by
    apply Int.bmod_eq_of_le
    · norm_num
      omega
    · norm_num
      omega
  rw [comparesRight_iff_sign, toInt_compareInt, hbmod]
  omega

end RdfStore
