import RdfStore.Bits

/-!
# Writing a masked group of bits (`rdfstore_bits.c`)

`rdfstore_bits_setmask` shifts a 32 bit mask by the place of the position in its
byte and writes it byte by byte, up to the end of the bitmap.  The bitmap grows
when the first of these bytes lies behind it.

    one round writes the masked bits of a byte                   (setmaskLoop_step, bit_maskByte)
    the loop writes the masked bits below the size               (setmaskLoop_masked)
    all masked bits are written ↔ the growth covers them and
      none is shifted out of the mask                            (setmaskExact_iff)
-/

namespace RdfStore

open ByteMem

/-! ## Bits of a word -/

/-- Bit `k` of a word. -/
def wordBit (w : UInt32) (k : ℕ) : Bool := w.toNat.testBit k

theorem wordBit_eq_getLsbD (w : UInt32) (k : ℕ) : wordBit w k = w.toBitVec.getLsbD k := rfl

@[simp] theorem wordBit_zero (k : ℕ) : wordBit 0 k = false := by simp [wordBit]

@[simp] theorem wordBit_or (v w : UInt32) (k : ℕ) : wordBit (v ||| w) k = (wordBit v k || wordBit w k) := by
  simp [wordBit, Nat.testBit_or]

theorem wordBit_shiftLeft (w : UInt32) {s k : ℕ} (hs : s < 32) :
    wordBit (w <<< s.toUInt32) k = (decide (s ≤ k ∧ k < 32) && wordBit w (k - s)) := by
  have hs' : s.toUInt32.toBitVec % 32 = BitVec.ofNat 32 s := by
    apply BitVec.eq_of_toNat_eq
    simp
    omega
  have hmod : s % 4294967296 = s := Nat.mod_eq_of_lt (by omega)
  simp only [wordBit_eq_getLsbD, UInt32.toBitVec_shiftLeft, hs', BitVec.shiftLeft_eq', BitVec.getLsbD_shiftLeft,
    BitVec.toNat_ofNat, hmod]
  by_cases hk : k < 32
  · by_cases hsk : s ≤ k
    · simp [hk, hsk, show ¬ k < s by omega]
    · simp [hk, hsk, show k < s by omega]
  · simp [hk]

theorem wordBit_shiftRight (w : UInt32) (k : ℕ) : wordBit (w >>> 8) k = wordBit w (k + 8) := by
  simp [wordBit_eq_getLsbD, UInt32.toBitVec_shiftRight, Nat.add_comm]

theorem wordBit_of_shiftRight {w : UInt32} (h : w >>> 8 = 0) {k : ℕ} (hk : 8 ≤ k) : wordBit w k = false := by
  have hbit := wordBit_shiftRight w (k - 8)
  rw [h, wordBit_zero, Nat.sub_add_cancel hk] at hbit
  exact hbit.symm

theorem exists_wordBit {w : UInt32} (h : w ≠ 0) : ∃ k, wordBit w k = true := by
  by_contra hnone
  apply h
  apply UInt32.toNat_inj.1
  apply Nat.eq_of_testBit_eq
  intro k
  have hk : wordBit w k = false := Bool.eq_false_iff.2 fun hw => hnone ⟨k, hw⟩
  exact hk.trans (wordBit_zero k).symm

theorem byteBit_written (c : UInt8) (m v : UInt32) {k : ℕ} (hk : k < 8) (hsub : wordBit v k = true → wordBit m k = true) :
    byteBit ((c.toUInt32 &&& ~~~m) ||| v).toUInt8 k = if wordBit m k then wordBit v k else byteBit c k := by
  simp only [byteBit_eq_getLsbD, UInt32.toBitVec_toUInt8, UInt32.toBitVec_or, UInt32.toBitVec_and,
    UInt32.toBitVec_not, wordBit_eq_getLsbD] at hsub ⊢
  by_cases hm : m.toBitVec.getLsbD k = true
  · simp [hk, hm]
  · have hv : v.toBitVec.getLsbD k = false := by
      by_contra h
      exact hm (hsub (by simpa using h))
    rw [BitVec.getLsbD_eq_getElem (show k < 32 by omega)] at hm hv
    simp [hk, hm, hv, show k < 32 by omega]

theorem wordBit_changed (b c : UInt8) {depth j : ℕ} (hd : depth < 32) :
    wordBit ((b ^^^ c).toUInt32 <<< depth.toUInt32) j =
      (decide (depth ≤ j ∧ j < 32) && (byteBit b (j - depth) ^^ byteBit c (j - depth))) := by
  rw [wordBit_shiftLeft _ hd]
  congr 1
  simp [wordBit, byteBit]

/-! ## The loop -/

/-- One byte: the masked bits of the value, and what differs from before. -/
def maskByte (c : UInt8) (mask value : UInt32) : UInt8 := ((c.toUInt32 &&& ~~~mask) ||| value).toUInt8

theorem setmaskLoop_step (size max fuel : ℕ) (bits : Buf) (pos depth : ℕ) (mask value change : UInt32)
    (hmax : pos < max) :
    setmaskLoop size max (fuel + 1) bits pos depth mask value change =
      let d := maskByte (bits pos) mask value
      let bits' := poke bits pos d
      let change' := change ||| ((d ^^^ bits pos).toUInt32 <<< depth.toUInt32)
      if mask >>> 8 ≠ 0 ∧ pos + 1 < size then
        setmaskLoop size max fuel bits' (pos + 1) (depth + 8) (mask >>> 8) (value >>> 8) change'
      else some (bits', change') := by
  have hbits : (if maskByte (bits pos) mask value ≠ bits pos then poke bits pos (maskByte (bits pos) mask value)
      else bits) = poke bits pos (maskByte (bits pos) mask value) := by
    by_cases h : maskByte (bits pos) mask value = bits pos
    · rw [if_neg (fun hne => hne h), h]
      funext k
      unfold poke
      by_cases hk : k = pos
      · rw [if_pos hk, hk]
      · rw [if_neg hk]
    · rw [if_pos h]
  have hchange : (if maskByte (bits pos) mask value ≠ bits pos then
      change ||| ((maskByte (bits pos) mask value ^^^ bits pos).toUInt32 <<< depth.toUInt32) else change) =
      change ||| ((maskByte (bits pos) mask value ^^^ bits pos).toUInt32 <<< depth.toUInt32) := by
    by_cases h : maskByte (bits pos) mask value = bits pos
    · rw [if_neg (fun hne => hne h), h]
      simp
    · rw [if_pos h]
  rw [setmaskLoop, if_neg (by omega)]
  unfold maskByte at hbits hchange ⊢
  simp only [hbits, hchange]

/-- What the loop leaves when it starts at byte `pos` with `depth` bits of the mask done. -/
structure Masked (size : ℕ) (pos depth : ℕ) (mask value change : UInt32) (bits bits' : Buf) (change' : UInt32) :
    Prop where
  written : ∀ i, bit bits' i =
    if 8 * pos ≤ i ∧ i < 8 * size ∧ wordBit mask (i - 8 * pos) then wordBit value (i - 8 * pos) else bit bits i
  changed : ∀ j, wordBit change' j = (wordBit change j || (decide (depth ≤ j ∧ j < 32) &&
    (bit bits' (8 * pos + (j - depth)) ^^ bit bits (8 * pos + (j - depth)))))

theorem bit_poke (bits : Buf) (pos i : ℕ) (d : UInt8) :
    bit (poke bits pos d) i = if i / 8 = pos then byteBit d (i % 8) else bit bits i := by
  unfold bit poke
  by_cases h : i / 8 = pos
  · rw [if_pos h, if_pos h]
  · rw [if_neg h, if_neg h]

section Byte

variable {mask value : UInt32} (hsub : ∀ k, wordBit value k = true → wordBit mask k = true) (bits : Buf) (pos : ℕ)
include hsub

theorem bit_maskByte (i : ℕ) : bit (poke bits pos (maskByte (bits pos) mask value)) i =
    if i / 8 = pos ∧ wordBit mask (i - 8 * pos) then wordBit value (i - 8 * pos) else bit bits i := by
  rw [bit_poke]
  by_cases hi : i / 8 = pos
  · have hmod : i % 8 = i - 8 * pos := by omega
    rw [if_pos hi, maskByte, byteBit_written _ _ _ (by omega) (hsub _), hmod, ← hmod]
    by_cases hm : wordBit mask (i % 8) = true
    · rw [if_pos hm, if_pos ⟨hi, hm⟩]
    · rw [if_neg hm, if_neg fun h => hm h.2, bit, hi]
  · rw [if_neg hi, if_neg fun h => hi h.1]

end Byte

/-- The byte's part of the change word. -/
theorem bit_poke_xor (bits : Buf) (pos l : ℕ) (d : UInt8) :
    (bit (poke bits pos d) (8 * pos + l) ^^ bit bits (8 * pos + l)) = (byteBit d l ^^ byteBit (bits pos) l) := by
  by_cases hl : l < 8
  · rw [bit_byte _ _ _ hl, bit_byte _ _ _ hl, poke_same]
  · rw [bit_poke, if_neg (by omega), byteBit_of_ge _ (by omega), byteBit_of_ge _ (by omega), Bool.xor_self,
      Bool.xor_false]

theorem setmaskLoop_masked (size max fuel : ℕ) (bits : Buf) (pos depth : ℕ) (mask value change : UInt32)
    (hpos : pos < size) (hmax : size ≤ max) (hdepth : depth + 8 * fuel = 32) (hfuel : 0 < fuel)
    (hmask : ∀ k, wordBit mask k = true → k < 8 * fuel)
    (hsub : ∀ k, wordBit value k = true → wordBit mask k = true) :
    ∃ bits' change', setmaskLoop size max fuel bits pos depth mask value change = some (bits', change') ∧
      Masked size pos depth mask value change bits bits' change' := by
  induction fuel generalizing bits pos depth mask value change with
  | zero =>
    exfalso
    omega
  | succ fuel ih =>
    rw [setmaskLoop_step _ _ _ _ _ _ _ _ _ (by omega)]
    have hbit := bit_maskByte hsub bits pos
    have hxor := fun l => bit_poke_xor bits pos l (maskByte (bits pos) mask value)
    have hchange := fun j => wordBit_changed (maskByte (bits pos) mask value) (bits pos) (j := j) (show depth < 32 by omega)
    generalize maskByte (bits pos) mask value = d at *
    by_cases hgo : mask >>> 8 ≠ 0 ∧ pos + 1 < size
    · obtain ⟨k, hk⟩ := exists_wordBit hgo.1
      rw [wordBit_shiftRight] at hk
      have hk' := hmask _ hk
      obtain ⟨bits', change', hrun, hmasked⟩ := ih (poke bits pos d) (pos + 1) (depth + 8) (mask >>> 8) (value >>> 8)
        (change ||| ((d ^^^ bits pos).toUInt32 <<< depth.toUInt32)) hgo.2 (by omega) (by omega)
        (fun k hk => by
          rw [wordBit_shiftRight] at hk
          have := hmask _ hk
          omega)
        (fun k hk => by
          rw [wordBit_shiftRight] at hk ⊢
          exact hsub _ hk)
      refine ⟨bits', change', by simp only [if_pos hgo, hrun], ?_, ?_⟩
      · intro i
        rw [hmasked.written i, hbit i, wordBit_shiftRight, wordBit_shiftRight]
        by_cases hi : 8 * (pos + 1) ≤ i
        · have hother : ¬ (i / 8 = pos ∧ wordBit mask (i - 8 * pos) = true) := fun h => absurd h.1 (by omega)
          rw [if_neg hother, show i - 8 * (pos + 1) + 8 = i - 8 * pos by omega]
          simp only [hi, show 8 * pos ≤ i by omega, true_and]
        · rw [if_neg fun h => hi h.1]
          have hbyte : i / 8 = pos ↔ 8 * pos ≤ i ∧ i < 8 * size := by omega
          simp only [hbyte, and_assoc]
      · intro j
        rw [hmasked.changed j, wordBit_or, hchange j, Bool.or_assoc]
        congr 1
        by_cases hj : depth + 8 ≤ j
        · have hat : 8 * (pos + 1) + (j - (depth + 8)) = 8 * pos + (j - depth) := by omega
          rw [byteBit_of_ge _ (by omega), byteBit_of_ge _ (by omega), Bool.xor_self, Bool.and_false, Bool.false_or,
            hat, bit_poke, if_neg (by omega)]
          simp only [hj, show depth ≤ j by omega]
        · rw [decide_eq_false (p := depth + 8 ≤ j ∧ j < 32) fun h => hj h.1, Bool.false_and, Bool.or_false, ← hxor]
          by_cases hd : depth ≤ j
          · rw [hmasked.written (8 * pos + (j - depth)), if_neg fun h => absurd h.1 (by omega)]
          · rw [decide_eq_false fun h => hd h.1, Bool.false_and, Bool.false_and]
    · refine ⟨_, _, by simp only [if_neg hgo]; rfl, ?_, ?_⟩
      · intro i
        rw [hbit i]
        -- the loop ends with the mask, or with the bitmap
        have hend : (8 * pos ≤ i ∧ i < 8 * size ∧ wordBit mask (i - 8 * pos) = true) ↔
            i / 8 = pos ∧ wordBit mask (i - 8 * pos) = true := by
          constructor
          · rintro ⟨hlo, hhi, hm⟩
            refine ⟨?_, hm⟩
            by_contra hne
            apply hgo
            constructor
            · intro hz
              rw [wordBit_of_shiftRight hz (by omega)] at hm
              exact absurd hm (by decide)
            · omega
          · rintro ⟨hi, hm⟩
            exact ⟨by omega, by omega, hm⟩
        simp only [hend]
      · intro j
        rw [wordBit_or, hchange, hxor]

/-! ## The masked bits -/

/-- The size `rdfstore_bits_setmask` leaves, by the first byte of the mask. -/
def grownSize (size pos : ℕ) : ℕ := if size ≤ pos / 8 then STEP * (1 + pos / 8 / STEP) else size

/-- The value lies in the mask, and the bitmap may grow to cover every masked bit. -/
structure SetmaskArgs (size pos : ℕ) (mask value : UInt32) (max : ℕ) : Prop where
  subset : ∀ k, wordBit value k = true → wordBit mask k = true
  size_le : size ≤ max
  room : ∀ k, wordBit mask k = true → (pos + k) / 8 < size ∨ STEP * (1 + (pos + k) / 8 / STEP) ≤ max

/-- Masked bits have the value, no other bit of the bitmap read with zeros behind it changes, the new size
covers what was written, and the change word holds the changes from byte `pos / 8` on. -/
structure MaskedUpdate (size : ℕ) (bits : Buf) (pos : ℕ) (mask value : UInt32) (size' : ℕ) (bits' : Buf)
    (change : UInt32) : Prop where
  masked : ∀ k, wordBit mask k = true → (pos + k ∈ ones size' bits' ↔ wordBit value k = true)
  others : ∀ i, (∀ k, wordBit mask k = true → i ≠ pos + k) → (i ∈ ones size' bits' ↔ i ∈ ones size bits)
  covers : ∀ k, wordBit mask k = true → pos + k < 8 * size'
  grown : size' = size ∨ size ≤ size' ∧ STEP ∣ size'
  changed : ∀ j < 32, wordBit change j =
    (decide (8 * (pos / 8) + j ∈ ones size bits) ^^ decide (8 * (pos / 8) + j ∈ ones size' bits'))

/-- The call returns, and writes exactly the masked bits. -/
def SetmaskExact (size : ℕ) (bits : Buf) (pos : ℕ) (mask value : UInt32) (max : ℕ) : Prop :=
  ∃ size' bits' change, rdfstoreBitsSetmask size bits pos mask value max = some (size', bits', change) ∧
    MaskedUpdate size bits pos mask value size' bits' change

theorem grownSize_spec {size pos : ℕ} {mask value : UInt32} {max : ℕ} (h : SetmaskArgs size pos mask value max)
    (hne : mask ≠ 0) : pos / 8 < grownSize size pos ∧ size ≤ grownSize size pos ∧ grownSize size pos ≤ max := by
  obtain ⟨k, hk⟩ := exists_wordBit hne
  have hroom := h.room k hk
  have hsize := h.size_le
  unfold grownSize
  by_cases hx : size ≤ pos / 8
  · rw [if_pos hx]
    simp only [STEP] at hroom ⊢
    omega
  · rw [if_neg hx]
    omega

/-- A bit of the shifted word, by its position in the bitmap. -/
theorem wordBit_shifted (w : UInt32) {pos i : ℕ} (hi : 8 * (pos / 8) ≤ i) :
    wordBit (w <<< (pos % 8).toUInt32) (i - 8 * (pos / 8)) =
      (decide (pos ≤ i ∧ i - 8 * (pos / 8) < 32) && wordBit w (i - pos)) := by
  rw [wordBit_shiftLeft w (by omega), show i - 8 * (pos / 8) - pos % 8 = i - pos by omega]
  congr 2
  apply propext
  omega

/-- What a call does: of the masked bits those the loop reaches are written. -/
theorem rdfstoreBitsSetmask_masked {size pos : ℕ} {mask value : UInt32} {max : ℕ} (bits : Buf)
    (h : SetmaskArgs size pos mask value max) (hne : mask ≠ 0) :
    ∃ bits' change, rdfstoreBitsSetmask size bits pos mask value max = some (grownSize size pos, bits', change) ∧
      (∀ i, i ∈ ones (grownSize size pos) bits' ↔
        if (pos ≤ i ∧ i - 8 * (pos / 8) < 32) ∧ i < 8 * grownSize size pos ∧ wordBit mask (i - pos)
          then wordBit value (i - pos) = true else i ∈ ones size bits) ∧
      ∀ j < 32, wordBit change j = (decide (8 * (pos / 8) + j ∈ ones size bits) ^^
        decide (8 * (pos / 8) + j ∈ ones (grownSize size pos) bits')) := by
  obtain ⟨hpos, hle, hmax⟩ := grownSize_spec h hne
  -- the extended bitmap denotes the same ids
  obtain ⟨bits₁, hbits₁, hones⟩ : ∃ bits₁, (if size ≤ pos / 8 then
      zeroRange bits size (STEP * (1 + pos / 8 / STEP)) else bits) = bits₁ ∧
      ones (grownSize size pos) bits₁ = ones size bits := by
    refine ⟨_, rfl, ?_⟩
    unfold grownSize at hle ⊢
    by_cases hx : size ≤ pos / 8
    · rw [if_pos hx] at hle ⊢
      rw [if_pos hx]
      exact ones_zeroRange hle
    · rw [if_neg hx, if_neg hx]
  have hs : pos % 8 < 32 := by omega
  obtain ⟨bits', change, hrun, hmasked⟩ := setmaskLoop_masked (grownSize size pos) max 4 bits₁ (pos / 8) 0
    (mask <<< (pos % 8).toUInt32) (value <<< (pos % 8).toUInt32) 0 hpos hmax (by omega) (by omega)
    (fun k hk => by
      rw [wordBit_shiftLeft mask hs, Bool.and_eq_true, decide_eq_true_iff] at hk
      exact hk.1.2)
    (fun k hk => by
      rw [wordBit_shiftLeft value hs, Bool.and_eq_true] at hk
      rw [wordBit_shiftLeft mask hs, Bool.and_eq_true]
      exact ⟨hk.1, h.subset _ hk.2⟩)
  refine ⟨bits', change, ?_, ?_, ?_⟩
  · unfold rdfstoreBitsSetmask
    have hexit : ¬ (size ≤ pos / 8 ∧ max < STEP * (1 + pos / 8 / STEP)) := by
      rintro ⟨hx, hlt⟩
      unfold grownSize at hmax
      rw [if_pos hx] at hmax
      omega
    rw [if_neg hne, if_neg hexit]
    unfold grownSize at hrun ⊢
    simp only [hbits₁, hrun, Option.map_some]
  · intro i
    rw [mem_ones, hmasked.written i]
    by_cases hi : 8 * (pos / 8) ≤ i ∧ i < 8 * grownSize size pos
    · rw [wordBit_shifted mask hi.1, wordBit_shifted value hi.1]
      by_cases hm : (pos ≤ i ∧ i - 8 * (pos / 8) < 32) ∧ wordBit mask (i - pos) = true
      · have hm' : (decide (pos ≤ i ∧ i - 8 * (pos / 8) < 32) && wordBit mask (i - pos)) = true := by
          rw [decide_eq_true hm.1, Bool.true_and]
          exact hm.2
        rw [if_pos ⟨hi.1, hi.2, hm'⟩, if_pos ⟨hm.1, hi.2, hm.2⟩, decide_eq_true hm.1, Bool.true_and]
        exact and_iff_right hi.2
      · have hm' : ¬ (decide (pos ≤ i ∧ i - 8 * (pos / 8) < 32) && wordBit mask (i - pos)) = true := by
          rw [Bool.and_eq_true, decide_eq_true_iff]
          exact hm
        rw [if_neg fun h => hm' h.2.2, if_neg fun h => hm ⟨h.1, h.2.2⟩, ← hones, mem_ones]
    · rw [if_neg fun h => hi ⟨h.1, h.2.1⟩, if_neg fun h => hi ⟨by omega, h.2.1⟩, ← hones, mem_ones]
  · intro j hj
    have hnew : ∀ b : Buf, decide (8 * (pos / 8) + j ∈ ones (grownSize size pos) b) =
        (decide (8 * (pos / 8) + j < 8 * grownSize size pos) && bit b (8 * (pos / 8) + j)) := by
      intro b
      simp
    rw [hmasked.changed j, wordBit_zero, Bool.false_or, decide_eq_true ⟨Nat.zero_le j, hj⟩, Bool.true_and,
      ← hones, hnew, hnew, Nat.sub_zero]
    by_cases hin : 8 * (pos / 8) + j < 8 * grownSize size pos
    · rw [decide_eq_true hin, Bool.true_and, Bool.true_and, Bool.xor_comm]
    · rw [decide_eq_false hin, Bool.false_and, Bool.false_and, hmasked.written, if_neg fun h => hin h.2.1,
        Bool.xor_self, Bool.xor_self]

/-- Every masked bit lies in the grown bitmap, and those the shift pushes out of the word have their value. -/
def MaskReaches (size : ℕ) (bits : Buf) (pos : ℕ) (mask value : UInt32) : Prop :=
  ∀ k, wordBit mask k = true → pos + k < 8 * grownSize size pos ∧
    (32 ≤ pos % 8 + k → (pos + k ∈ ones size bits ↔ wordBit value k = true))

/-- The masked bits are written when the growth for the first of them covers them all and none is shifted out
of the mask, and only then. -/
theorem setmaskExact_iff {size pos : ℕ} {mask value : UInt32} {max : ℕ} (bits : Buf)
    (h : SetmaskArgs size pos mask value max) :
    SetmaskExact size bits pos mask value max ↔ MaskReaches size bits pos mask value := by
  by_cases hne : mask = 0
  · subst hne
    constructor
    · intro _ k hk
      rw [wordBit_zero] at hk
      exact absurd hk (by decide)
    · intro _
      refine ⟨size, bits, 0, by rw [rdfstoreBitsSetmask, if_pos rfl], ?_⟩
      have hnone : ∀ k, ¬ wordBit 0 k = true := by
        intro k hk
        rw [wordBit_zero] at hk
        exact absurd hk (by decide)
      refine ⟨fun k hk => absurd hk (hnone k), fun i _ => Iff.rfl, fun k hk => absurd hk (hnone k), Or.inl rfl, ?_⟩
      intro j _
      rw [wordBit_zero, Bool.xor_self]
  obtain ⟨bits', change, hrun, hbit, hchange⟩ := rdfstoreBitsSetmask_masked bits h hne
  constructor
  · rintro ⟨size₁, bits₁, change₁, hrun₁, hexact⟩
    rw [hrun, Option.some.injEq, Prod.mk.injEq, Prod.mk.injEq] at hrun₁
    obtain ⟨rfl, rfl, rfl⟩ := hrun₁
    intro k hk
    refine ⟨hexact.covers k hk, fun hout => ?_⟩
    rw [← hexact.masked k hk, hbit, if_neg]
    rintro ⟨⟨-, hlt⟩, -⟩
    omega
  · intro hreach
    refine ⟨_, bits', change, hrun, ?_, ?_, fun k hk => (hreach k hk).1, ?_, hchange⟩
    · intro k hk
      obtain ⟨hlt, hout⟩ := hreach k hk
      by_cases hk32 : pos % 8 + k < 32
      · rw [hbit, Nat.add_sub_cancel_left, if_pos ⟨⟨by omega, by omega⟩, hlt, hk⟩]
      · rw [hbit, if_neg]
        · exact hout (by omega)
        · rintro ⟨⟨-, hin⟩, -⟩
          omega
    · intro i hother
      rw [hbit, if_neg]
      rintro ⟨⟨hle, -⟩, -, hm⟩
      exact hother (i - pos) hm (by omega)
    · obtain ⟨-, hle, -⟩ := grownSize_spec h hne
      unfold grownSize at hle ⊢
      by_cases hx : size ≤ pos / 8
      · rw [if_pos hx] at hle ⊢
        exact Or.inr ⟨hle, Nat.dvd_mul_right _ _⟩
      · rw [if_neg hx]
        exact Or.inl rfl

/-- Three bits at position 126, in sixteen bytes that may grow to thirty-two. -/
theorem straddling_args : SetmaskArgs 16 126 7 7 32 where
  subset := fun _ h => h
  size_le := by omega
  room := by
    intro k hk
    have hk3 : k < 3 := by
      by_contra hge
      have hclear : wordBit 7 k = false :=
        Nat.testBit_lt_two_pow (lt_of_lt_of_le (by decide : 7 < 2 ^ 3) (Nat.pow_le_pow_right (by omega) (by omega)))
      rw [hclear] at hk
      exact absurd hk (by decide)
    simp only [STEP]
    omega

theorem setmaskExact_iff_straddling :
    SetmaskArgs 16 126 7 7 32 ∧
      (SetmaskExact 16 (fun _ => 0) 126 7 7 32 ↔ MaskReaches 16 (fun _ => 0) 126 7 7) :=
  ⟨straddling_args, setmaskExact_iff (fun _ => 0) straddling_args⟩

/-- The third of these bits lies behind the sixteen bytes, which do not grow. -/
theorem setmask_drops_straddling_bit :
    SetmaskArgs 16 126 7 7 32 ∧ ¬ SetmaskExact 16 (fun _ => 0) 126 7 7 32 := by
  refine ⟨straddling_args, ?_⟩
  rintro ⟨size', bits', change, hrun, hexact⟩
  have hsize : (rdfstoreBitsSetmask 16 (fun _ => 0) 126 7 7 32).map (·.1) = some 16 := by decide
  rw [hrun, Option.map_some, Option.some.injEq] at hsize
  have hcover : 126 + 2 < 8 * size' := hexact.covers 2 (by decide)
  dsimp only at hsize
  omega

end RdfStore
