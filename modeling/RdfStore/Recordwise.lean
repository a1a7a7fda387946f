import RdfStore.Bitmaps
import RdfStore.MaskedBits

/-!
# Records against a bitmap (`rdfstore_bits_and2`, `rdfstore_bits_or2`)

A is a bitmap, B an array of records of `n` bits each, and bit `i` of the output
combines bit `i` of A with what record `i` of B has in common with a mask.  When
B has fewer records than A has bits the loop runs to eight times their number.

    one round                                             (recordStep_out)
    after `k` rounds                                      (recordLoop_spec)
    the output is right ↔ the loop ends with the records,
      or nothing counts where it does not                 (recordwise_exact_iff)
-/

namespace RdfStore

open ByteMem

/-! ## The loop -/

/-- The size of a record and a mask, which pass the assertions. -/
structure RecordSize where
  n : UInt32
  mask : UInt8
  pos : 0 < n.toNat
  le : n.toNat ≤ 8
  small : mask.toNat < 2 ^ n.toNat

/-- `b[i >> 3] & (1 << (i & 7))` -/
def bitAt (b : Buf) (i : ℕ) : UInt8 := b (i / 8) &&& (1 : UInt8) <<< (i % 8).toUInt8

/-- The two bytes at bit `p`, shifted down. -/
def recordAt (bb : Buf) (p : ℕ) : ℕ := ((bb (p / 8 + 1)).toNat <<< 8 + (bb (p / 8)).toNat) >>> (p % 8)

/-- The output, and the bytes of A and of the output that were touched. -/
structure RecordRun where
  out : Buf
  inA : Finset ℕ
  inOut : Finset ℕ

section Loop

variable (op : Bool → Bool → Bool) (s : RecordSize) (ba bb : Buf)

/-- The test of a round, with `n * i` an `unsigned int`. -/
def recordTest (i : ℕ) : Bool :=
  op (bitAt ba i ≠ 0) (recordAt bb (s.n.toNat * i % 2 ^ 32) &&& s.mask.toNat ≠ 0)

def recordStep (run : RecordRun) (i : ℕ) : RecordRun :=
  if recordTest op s ba bb i then
    { out := poke run.out (i / 8) (run.out (i / 8) ||| (1 : UInt8) <<< (i % 8).toUInt8)
      inA := insert (i / 8) run.inA
      inOut := insert (i / 8) run.inOut }
  else { run with inA := insert (i / 8) run.inA }

/-- The first `k` rounds. -/
def recordLoop (run : RecordRun) : ℕ → RecordRun
  | 0 => run
  | k + 1 => recordStep op s ba bb (recordLoop run k) k

/-- `endbit`: "If B has less records than A has bits; shorten A". -/
def endbit (la lb : UInt32) : UInt32 := if lb * 8 / s.n < la * 8 then lb * 8 / s.n * 8 else la * 8

/-- Both functions: what they return, and what they leave. -/
def recordwise (la lb : UInt32) (bc : Buf) : ℕ × RecordRun :=
  ((endbit s la lb).toNat / 8,
    recordLoop op s ba bb ⟨zeroRange bc 0 la.toNat, ∅, Finset.range la.toNat⟩ (endbit s la lb).toNat)

end Loop

/-- `rdfstore_bits_and2`; no record is fetched where the bit of A is not set. -/
def rdfstoreBitsAnd2 (s : RecordSize) (la : UInt32) (ba : Buf) (lb : UInt32) (bb bc : Buf) : ℕ × RecordRun :=
  recordwise (· && ·) s ba bb la lb bc

/-- `rdfstore_bits_or2` -/
def rdfstoreBitsOr2 (s : RecordSize) (la : UInt32) (ba : Buf) (lb : UInt32) (bb bc : Buf) : ℕ × RecordRun :=
  recordwise (· || ·) s ba bb la lb bc

/-! ## Bits and records -/

theorem bitAt_ne_zero (b : Buf) (i : ℕ) : bitAt b i ≠ 0 ↔ bit b i = true :=
  (oneBitMask (show i % 8 < 8 by omega)).2 (b (i / 8))

theorem recordAt_testBit (bb : Buf) (p : ℕ) {j : ℕ} (hj : j < 8) : (recordAt bb p).testBit j = bit bb (p + j) := by
  unfold recordAt
  rw [Nat.testBit_shiftRight, Nat.shiftLeft_eq, Nat.mul_comm,
    Nat.testBit_two_pow_mul_add _ (show (bb (p / 8)).toNat < 2 ^ 8 from (bb (p / 8)).toNat_lt)]
  by_cases hlow : p % 8 + j < 8
  · rw [if_pos hlow]
    show _ = byteBit (bb ((p + j) / 8)) ((p + j) % 8)
    rw [show (p + j) / 8 = p / 8 by omega, show (p + j) % 8 = p % 8 + j by omega]
    rfl
  · rw [if_neg hlow]
    show _ = byteBit (bb ((p + j) / 8)) ((p + j) % 8)
    rw [show (p + j) / 8 = p / 8 + 1 by omega, show (p + j) % 8 = p % 8 + j - 8 by omega]
    rfl

theorem and_ne_zero_iff (a b : ℕ) : a &&& b ≠ 0 ↔ ∃ j, a.testBit j = true ∧ b.testBit j = true := by
  constructor
  · intro h
    by_contra hnone
    apply h
    apply Nat.eq_of_testBit_eq
    intro j
    rw [Nat.testBit_and, Nat.zero_testBit]
    by_contra hj
    rw [Bool.not_eq_false, Bool.and_eq_true] at hj
    exact hnone ⟨j, hj⟩
  · rintro ⟨j, ha, hb⟩ h
    have hj := Nat.testBit_and a b j
    rw [h, Nat.zero_testBit, ha, hb] at hj
    exact absurd hj (by decide)

/-- A record that begins at bit `p` has a bit of the mask set. -/
def meetsAt (s : RecordSize) (bb : Buf) (p : ℕ) : Bool :=
  (List.range s.n.toNat).any fun j => bit bb (p + j) && byteBit s.mask j

theorem recordAt_meets (s : RecordSize) (bb : Buf) (p : ℕ) :
    recordAt bb p &&& s.mask.toNat ≠ 0 ↔ meetsAt s bb p = true := by
  have hle := s.le
  rw [and_ne_zero_iff, meetsAt, List.any_eq_true]
  constructor
  · rintro ⟨j, hrecord, hmask⟩
    have hj : j < s.n.toNat := by
      by_contra hge
      have hzero := Nat.testBit_lt_two_pow (s.small.trans_le (Nat.pow_le_pow_right (by decide) (not_lt.1 hge)))
      rw [hzero] at hmask
      exact Bool.false_ne_true hmask
    rw [recordAt_testBit bb p (by omega)] at hrecord
    exact ⟨j, List.mem_range.2 hj, Bool.and_eq_true_iff.2 ⟨hrecord, hmask⟩⟩
  · rintro ⟨j, hj, hboth⟩
    rw [List.mem_range] at hj
    rw [Bool.and_eq_true] at hboth
    refine ⟨j, ?_, hboth.2⟩
    rw [recordAt_testBit bb p (by omega)]
    exact hboth.1

/-! ## What the loop leaves -/

section Rounds

variable (op : Bool → Bool → Bool) (s : RecordSize) (ba bb : Buf) (run : RecordRun) (k : ℕ)

theorem recordTest_eq (i : ℕ) :
    recordTest op s ba bb i = op (bit ba i) (meetsAt s bb (s.n.toNat * i % 2 ^ 32)) := by
  unfold recordTest
  congr 1
  · rw [Bool.eq_iff_iff, decide_eq_true_iff]
    exact bitAt_ne_zero ba i
  · rw [Bool.eq_iff_iff, decide_eq_true_iff]
    exact recordAt_meets s bb _

theorem bit_setBit (b : Buf) (i : ℕ) :
    bit (poke b (k / 8) (b (k / 8) ||| (1 : UInt8) <<< (k % 8).toUInt8)) i = (bit b i || decide (i = k)) := by
  rw [bit_poke]
  by_cases hi : i / 8 = k / 8
  · rw [if_pos hi, byteBit_or, byteBit_oneBit (by omega) (by omega), ← hi]
    congr 1
    rw [decide_eq_decide]
    omega
  · rw [if_neg hi, decide_eq_false (fun h => hi (by rw [h])), Bool.or_false]

theorem recordStep_out (i : ℕ) : bit (recordStep op s ba bb run k).out i =
    (bit run.out i || (decide (i = k) && recordTest op s ba bb k)) := by
  unfold recordStep
  by_cases ht : recordTest op s ba bb k = true
  · rw [if_pos ht, ht, Bool.and_true]
    exact bit_setBit k run.out i
  · rw [if_neg ht, Bool.eq_false_iff.2 ht, Bool.and_false, Bool.or_false]

theorem recordStep_inA (j : ℕ) : j ∈ (recordStep op s ba bb run k).inA ↔ j = k / 8 ∨ j ∈ run.inA := by
  unfold recordStep
  by_cases ht : recordTest op s ba bb k = true
  · rw [if_pos ht, Finset.mem_insert]
  · rw [if_neg ht, Finset.mem_insert]

theorem recordStep_inOut (j : ℕ) : j ∈ (recordStep op s ba bb run k).inOut ↔
    (recordTest op s ba bb k = true ∧ j = k / 8) ∨ j ∈ run.inOut := by
  unfold recordStep
  by_cases ht : recordTest op s ba bb k = true
  · rw [if_pos ht, Finset.mem_insert, and_iff_right ht]
  · rw [if_neg ht]
    exact (or_iff_right fun h => ht h.1).symm

/-- What `k` rounds leave of a run. -/
structure AfterRounds (run' : RecordRun) : Prop where
  out : ∀ i, bit run'.out i = (bit run.out i || (decide (i < k) && recordTest op s ba bb i))
  inA : ∀ j, j ∈ run'.inA ↔ j ∈ run.inA ∨ ∃ i < k, j = i / 8
  inOut : ∀ j, j ∈ run'.inOut ↔ j ∈ run.inOut ∨ ∃ i < k, recordTest op s ba bb i = true ∧ j = i / 8

theorem recordLoop_spec : AfterRounds op s ba bb run k (recordLoop op s ba bb run k) := by
  induction k with
  | zero =>
    constructor
    · intro i
      rw [decide_eq_false (Nat.not_lt_zero i), Bool.false_and, Bool.or_false]
      rfl
    · intro j
      exact (or_iff_left fun ⟨i, hi, _⟩ => absurd hi (Nat.not_lt_zero i)).symm
    · intro j
      exact (or_iff_left fun ⟨i, hi, _⟩ => absurd hi (Nat.not_lt_zero i)).symm
  | succ k ih =>
    constructor
    · intro i
      rw [recordLoop, recordStep_out, ih.out, Bool.or_assoc]
      congr 1
      by_cases hi : i = k
      · rw [hi, decide_eq_false (Nat.lt_irrefl k), decide_eq_true rfl, decide_eq_true (Nat.lt_succ_self k),
          Bool.false_and, Bool.false_or]
      · rw [decide_eq_false hi, Bool.false_and, Bool.or_false, decide_eq_decide.2 (show i < k ↔ i < k + 1 by omega)]
    · intro j
      rw [recordLoop, recordStep_inA, ih.inA, or_left_comm, Nat.exists_lt_succ_right, or_comm (a := j = k / 8)]
    · intro j
      rw [recordLoop, recordStep_inOut, ih.inOut, or_left_comm, Nat.exists_lt_succ_right,
        or_comm (b := ∃ i < k, recordTest op s ba bb i = true ∧ j = i / 8)]

end Rounds

/-! ## The output asked for -/

section Exact

variable (op : Bool → Bool → Bool) (s : RecordSize) (la : UInt32) (ba : Buf) (lb : UInt32) (bb : Buf)

/-- The bits of A that have a record. -/
def pairs : ℕ := min (8 * la.toNat) (8 * lb.toNat / s.n.toNat)

/-- What bit `i` of A and record `i` of B make together. -/
def recordBit (i : ℕ) : Bool := op (bit ba i) (meetsAt s bb (s.n.toNat * i))

/-- Bit `i` combines bit `i` of A and record `i` of B as long as there are both, the bits behind are zero, and
neither A nor the output is touched behind its bytes. -/
structure RecordsExact (run : RecordRun) : Prop where
  within : ∀ i < pairs s la lb, bit run.out i = recordBit op s ba bb i
  later : ∀ i, pairs s la lb ≤ i → i < 8 * la.toNat → bit run.out i = false
  inA : ∀ j ∈ run.inA, j < la.toNat
  inOut : ∀ j ∈ run.inOut, j < la.toNat

/-- The loop ends inside A, and nothing counts where it goes on behind the records, ends in front of the last of
them, or has multiplied past 32 bits. -/
structure LoopEndsRight : Prop where
  inside : (endbit s la lb).toNat ≤ 8 * la.toNat
  surplus : ∀ i, pairs s la lb ≤ i → i < (endbit s la lb).toNat → recordTest op s ba bb i = false
  missed : ∀ i, (endbit s la lb).toNat ≤ i → i < pairs s la lb → recordBit op s ba bb i = false
  wrapped : ∀ i, i < (endbit s la lb).toNat → i < pairs s la lb → 2 ^ 32 ≤ s.n.toNat * i →
    recordTest op s ba bb i = recordBit op s ba bb i

variable {op s ba bb}

/-- Where the product fits, the loop looks at the record asked for. -/
theorem recordTest_of_lt {i : ℕ} (hi : s.n.toNat * i < 2 ^ 32) : recordTest op s ba bb i = recordBit op s ba bb i := by
  rw [recordTest_eq, Nat.mod_eq_of_lt hi]
  rfl

variable (op s ba bb)

theorem recordwise_spec (bc : Buf) :
    AfterRounds op s ba bb ⟨zeroRange bc 0 la.toNat, ∅, Finset.range la.toNat⟩ (endbit s la lb).toNat
      (recordwise op s ba bb la lb bc).2 :=
  recordLoop_spec op s ba bb _ _

/-- A bit of the output below the length of A: it is cleared, and then set by its round or not. -/
theorem recordwise_out (bc : Buf) {i : ℕ} (hi : i < 8 * la.toNat) :
    bit (recordwise op s ba bb la lb bc).2.out i = (decide (i < (endbit s la lb).toNat) && recordTest op s ba bb i) := by
  have hclear : bit (zeroRange bc 0 la.toNat) i = false := by
    unfold bit zeroRange
    rw [if_pos (by omega), byteBit_zero]
  rw [(recordwise_spec op s la ba lb bb bc).out i, hclear, Bool.false_or]

theorem recordwise_exact_iff (bc : Buf) :
    RecordsExact op s la ba lb bb (recordwise op s ba bb la lb bc).2 ↔ LoopEndsRight op s la ba lb bb := by
  have hspec := recordwise_spec op s la ba lb bb bc
  have hout := @recordwise_out op s la ba lb bb bc
  have hpairs : pairs s la lb ≤ 8 * la.toNat := Nat.min_le_left _ _
  generalize (recordwise op s ba bb la lb bc).2 = run at *
  constructor
  · intro h
    have hinside : (endbit s la lb).toNat ≤ 8 * la.toNat := by
      by_contra hpast
      have hbehind : la.toNat ∈ run.inA := by
        rw [hspec.inA]
        exact Or.inr ⟨8 * la.toNat, by omega, by omega⟩
      exact absurd (h.inA _ hbehind) (lt_irrefl _)
    refine ⟨hinside, ?_, ?_, ?_⟩
    · intro i hle hlt
      have hbit := hout (show i < 8 * la.toNat by omega)
      rw [h.later i hle (by omega), decide_eq_true hlt, Bool.true_and] at hbit
      exact hbit.symm
    · intro i hle hlt
      have hbit := hout (show i < 8 * la.toNat by omega)
      rw [h.within i hlt, decide_eq_false (by omega), Bool.false_and] at hbit
      exact hbit
    · intro i hlt hpair _
      have hbit := hout (show i < 8 * la.toNat by omega)
      rw [h.within i hpair, decide_eq_true hlt, Bool.true_and] at hbit
      exact hbit.symm
  · intro h
    have hinside := h.inside
    have hbyte : ∀ i < (endbit s la lb).toNat, i / 8 < la.toNat := by
      intro i hi
      omega
    refine ⟨?_, ?_, ?_, ?_⟩
    · intro i hi
      rw [hout (by omega)]
      by_cases hlt : i < (endbit s la lb).toNat
      · rw [decide_eq_true hlt, Bool.true_and]
        by_cases hwrap : 2 ^ 32 ≤ s.n.toNat * i
        · exact h.wrapped i hlt hi hwrap
        · exact recordTest_of_lt (by omega)
      · rw [decide_eq_false hlt, Bool.false_and]
        exact (h.missed i (by omega) hi).symm
    · intro i hle hi
      rw [hout hi]
      by_cases hlt : i < (endbit s la lb).toNat
      · rw [h.surplus i hle hlt, Bool.and_false]
      · rw [decide_eq_false hlt, Bool.false_and]
    · intro j hj
      obtain hj | ⟨i, hi, rfl⟩ := (hspec.inA j).1 hj
      · exact absurd hj (Finset.notMem_empty j)
      · exact hbyte i hi
    · intro j hj
      obtain hj | ⟨i, hi, -, rfl⟩ := (hspec.inOut j).1 hj
      · exact Finset.mem_range.1 hj
      · exact hbyte i hi

end Exact

/-- Both functions: the output is right when the loop ends right, and then only. -/
theorem rdfstoreBits_recordwise_iff (s : RecordSize) (la : UInt32) (ba : Buf) (lb : UInt32) (bb bc : Buf) :
    (RecordsExact (· && ·) s la ba lb bb (rdfstoreBitsAnd2 s la ba lb bb bc).2 ↔
      LoopEndsRight (· && ·) s la ba lb bb) ∧
    (RecordsExact (· || ·) s la ba lb bb (rdfstoreBitsOr2 s la ba lb bb bc).2 ↔
      LoopEndsRight (· || ·) s la ba lb bb) :=
  ⟨recordwise_exact_iff _ s la ba lb bb bc, recordwise_exact_iff _ s la ba lb bb bc⟩

/-- Two records against a byte: `and2` goes on to the second byte of A.  One record against a byte: `or2` sets
all eight bits. -/
theorem recordwise_runs_past_records :
    ¬ RecordsExact (· && ·) ⟨8, 1, by decide, by decide, by decide⟩ 1 (fun _ => 0) 2 (fun _ => 0)
        (rdfstoreBitsAnd2 ⟨8, 1, by decide, by decide, by decide⟩ 1 (fun _ => 0) 2 (fun _ => 0) fun _ => 0).2 ∧
      ¬ RecordsExact (· || ·) ⟨8, 1, by decide, by decide, by decide⟩ 1 (fun _ => 0xFF) 1 (fun _ => 0)
        (rdfstoreBitsOr2 ⟨8, 1, by decide, by decide, by decide⟩ 1 (fun _ => 0xFF) 1 (fun _ => 0) fun _ => 0).2 := by
  constructor
  · intro h
    exact absurd (h.inA 1 (by decide)) (by decide)
  · intro h
    have hbit := h.later 1 (by decide) (by decide)
    revert hbit
    decide

/-! ## Short bitmaps -/

section Short

variable (s : RecordSize) {la lb : UInt32}

theorem toNat_endbit (hla : la.toNat < 2 ^ 26) (hlb : lb.toNat < 2 ^ 26) : (endbit s la lb).toNat =
    if 8 * lb.toNat / s.n.toNat < 8 * la.toNat then 8 * (8 * lb.toNat / s.n.toNat) else 8 * la.toNat := by
  have hpos := s.pos
  have hA : (la * 8).toNat = 8 * la.toNat := by
    rw [UInt32.toNat_mul, Nat.mul_comm]
    exact Nat.mod_eq_of_lt (by show 8 * _ < _; omega)
  have hB : (lb * 8).toNat = 8 * lb.toNat := by
    rw [UInt32.toNat_mul, Nat.mul_comm]
    exact Nat.mod_eq_of_lt (by show 8 * _ < _; omega)
  have hle : 8 * lb.toNat / s.n.toNat ≤ 8 * lb.toNat := Nat.div_le_self _ _
  have hR : (lb * 8 / s.n * 8).toNat = 8 * (8 * lb.toNat / s.n.toNat) := by
    rw [UInt32.toNat_mul, UInt32.toNat_div, hB, Nat.mul_comm]
    exact Nat.mod_eq_of_lt (by show 8 * _ < _; omega)
  have hcompare : lb * 8 / s.n < la * 8 ↔ 8 * lb.toNat / s.n.toNat < 8 * la.toNat := by
    rw [UInt32.lt_iff_toNat_lt, UInt32.toNat_div, hA, hB]
  unfold endbit
  by_cases hlt : 8 * lb.toNat / s.n.toNat < 8 * la.toNat
  · rw [if_pos (hcompare.2 hlt), if_pos hlt, hR]
  · rw [if_neg (fun h => hlt (hcompare.1 h)), if_neg hlt, hA]

/-- Nothing wraps around: B has a record for each bit of A, or no more records than A has bytes, and nothing
counts up to eight times their number. -/
theorem loopEndsRight_iff (op : Bool → Bool → Bool) (ba bb : Buf) (hla : la.toNat < 2 ^ 26) (hlb : lb.toNat < 2 ^ 26) :
    LoopEndsRight op s la ba lb bb ↔ 8 * la.toNat ≤ 8 * lb.toNat / s.n.toNat ∨
      (8 * lb.toNat / s.n.toNat ≤ la.toNat ∧ ∀ i, 8 * lb.toNat / s.n.toNat ≤ i → i < 8 * (8 * lb.toNat / s.n.toNat) →
        recordBit op s ba bb i = false) := by
  have hend := toNat_endbit s hla hlb
  have hrecords : s.n.toNat * (8 * lb.toNat / s.n.toNat) ≤ 8 * lb.toNat := Nat.mul_div_le _ _
  have hpairs : pairs s la lb = min (8 * la.toNat) (8 * lb.toNat / s.n.toNat) := rfl
  generalize 8 * lb.toNat / s.n.toNat = records at *
  by_cases hlt : records < 8 * la.toNat
  · rw [if_pos hlt] at hend
    rw [min_eq_right hlt.le] at hpairs
    have hfits : ∀ i < 8 * records, recordTest op s ba bb i = recordBit op s ba bb i := by
      intro i hi
      apply recordTest_of_lt
      calc s.n.toNat * i ≤ s.n.toNat * (8 * records) := Nat.mul_le_mul_left _ hi.le
        _ = 8 * (s.n.toNat * records) := Nat.mul_left_comm _ _ _
        _ < 2 ^ 32 := by omega
    rw [or_iff_right (by omega)]
    constructor
    · intro h
      have hinside := h.inside
      refine ⟨by omega, fun i hle hi => ?_⟩
      rw [← hfits i hi]
      exact h.surplus i (by omega) (by omega)
    · rintro ⟨hle, hnone⟩
      refine ⟨by omega, fun i hi hi' => ?_, fun i hi hi' => by omega, fun i hi _ _ => hfits i (by omega)⟩
      rw [hfits i (by omega)]
      exact hnone i (by omega) (by omega)
  · rw [if_neg hlt] at hend
    rw [min_eq_left (not_lt.1 hlt)] at hpairs
    refine iff_of_true ⟨by omega, fun i hi hi' => by omega, fun i hi hi' => by omega, fun i hi _ hwrap => ?_⟩
      (Or.inl (not_lt.1 hlt))
    have hle := s.le
    have hprod : s.n.toNat * i ≤ 8 * i := Nat.mul_le_mul_right i hle
    omega

end Short

end RdfStore
