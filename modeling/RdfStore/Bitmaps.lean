import RdfStore.Bits
import RdfStore.Lib.Enumeration
import Mathlib.Order.Bounds.Basic

/-!
# Bitmaps as sets of ids (`rdfstore_bits.c`)

Over the sets the bitmaps denote: the algebra of the binary operations, the loops
that enumerate set bits and four bit records, and the search `rdfstore_bits_isanyset`.

    or / and / exor write ∪ / ∩ / \, trimmed; shorten is least    (rdfstoreBits_algebra)
    the enumerating loops visit what a filter keeps               (rdfstoreBits_enumeration)
    isanyset finds the first bit ↔ it is congruent to the start   (rdfstoreBitsIsanyset_first_iff)
-/

namespace RdfStore

open ByteMem Enumeration

/-! ## The algebra -/

/-- What a binary operation leaves behind: of `n` bytes written those before the answered length denote
the set, the last of them is not zero, and the others are. -/
structure WritesBitmap (n : ℕ) (bc : Buf) (r : ℕ × Buf) (s : Finset ℕ) : Prop where
  denotes : ones r.1 r.2 = s
  within : r.1 ≤ n
  last : r.1 ≠ 0 → r.2 (r.1 - 1) ≠ 0
  rest : ∀ k, r.1 ≤ k → k < n → r.2 k = 0
  frame : ∀ k, n ≤ k → r.2 k = bc k

theorem bitsLoop_writes {c : ℕ → UInt8} {n : ℕ} {bc : Buf} {s : Finset ℕ} (h : ones n c = s) :
    WritesBitmap n bc (bitsLoop c n bc) s where
  denotes := (ones_bitsLoop c n bc).trans h
  within := bitsLoop_len_le c n bc
  last := bitsLoop_last c n bc
  rest := by
    intro k hlen hk
    rw [bitsLoop_apply, if_pos hk]
    exact bitsLoop_zero_tail c n bc k hlen hk
  frame := by
    intro k hk
    rw [bitsLoop_apply, if_neg (by omega)]

/-- A byte that is not zero lies below the length of every bitmap of the set. -/
theorem lt_of_byte_ne_zero {m n k : ℕ} {b c : Buf} (h : ones n b = ones m c) (hk : k < n) (hbyte : b k ≠ 0) :
    k < m := by
  by_contra hle
  apply hbyte
  rw [byte_eq_zero_iff]
  intro j hj
  by_contra hbit
  have hmem : 8 * k + j ∈ ones n b := by
    rw [mem_ones, bit_byte b k j hj]
    exact ⟨by omega, by simpa using hbit⟩
  rw [h, mem_ones] at hmem
  omega

/-- Below both lengths two bitmaps of one set agree. -/
theorem byte_eq_of_ones_eq {m n k : ℕ} {b c : Buf} (h : ones n b = ones m c) (hn : k < n) (hm : k < m) :
    b k = c k := by
  apply byte_ext
  intro j hj
  rw [← bit_byte b k j hj, ← bit_byte c k j hj]
  have hiff : 8 * k + j ∈ ones n b ↔ 8 * k + j ∈ ones m c := by rw [h]
  rw [mem_ones, mem_ones, and_iff_right (by omega), and_iff_right (by omega)] at hiff
  exact Bool.eq_iff_iff.2 hiff

/-- A set has one bitmap without a zero byte at its end. -/
theorem WritesBitmap.unique {n n' : ℕ} {bc bc' : Buf} {r r' : ℕ × Buf} {s : Finset ℕ}
    (h : WritesBitmap n bc r s) (h' : WritesBitmap n' bc' r' s) : takeBytes r.1 r.2 = takeBytes r'.1 r'.2 := by
  have hones : ones r.1 r.2 = ones r'.1 r'.2 := h.denotes.trans h'.denotes.symm
  have hlen : r.1 = r'.1 := by
    apply le_antisymm
    · by_contra hgt
      have := lt_of_byte_ne_zero hones (show r.1 - 1 < r.1 by omega) (h.last (by omega))
      omega
    · by_contra hgt
      have := lt_of_byte_ne_zero hones.symm (show r'.1 - 1 < r'.1 by omega) (h'.last (by omega))
      omega
  rw [← hlen]
  exact takeBytes_congr fun k hk => byte_eq_of_ones_eq hones hk (by omega)

section Algebra

variable (la : ℕ) (ba : Buf) (lb : ℕ) (bb bc : Buf)

theorem rdfstoreBitsOr_writes :
    WritesBitmap (max la lb) bc (rdfstoreBitsOr la ba lb bb bc) (ones la ba ∪ ones lb bb) :=
  bitsLoop_writes (ones_or_bytes la ba lb bb)

theorem rdfstoreBitsAnd_writes :
    WritesBitmap (min la lb) bc (rdfstoreBitsAnd la ba lb bb bc) (ones la ba ∩ ones lb bb) :=
  bitsLoop_writes (ones_and_bytes la ba lb bb)

theorem rdfstoreBitsExor_writes :
    WritesBitmap (max la lb) bc (rdfstoreBitsExor la ba lb bb bc) (ones la ba \ ones lb bb) :=
  bitsLoop_writes (ones_exor_bytes la ba lb bb)

/-- No shorter prefix of the memory denotes the set. -/
theorem rdfstoreBitsShorten_isLeast : IsLeast {m | ones m ba = ones la ba} (rdfstoreBitsShorten la ba) := by
  refine ⟨ones_rdfstoreBitsShorten la ba, fun m hm => ?_⟩
  by_contra hlt
  have hones : ones (rdfstoreBitsShorten la ba) ba = ones m ba := (ones_rdfstoreBitsShorten la ba).trans hm.symm
  have hne : rdfstoreBitsShorten la ba ≠ 0 := by omega
  have := lt_of_byte_ne_zero hones (by omega) (rdfstoreBitsShorten_last la ba hne)
  omega

/-- Zero bytes behind an operand. -/
theorem rdfstoreBitsShorten_zeros (j : ℕ) :
    rdfstoreBitsShorten (la + j) (zeroRange ba la (la + j)) = rdfstoreBitsShorten la ba := by
  have hones : ones (la + j) (zeroRange ba la (la + j)) = ones la ba := ones_zeroRange (by omega)
  have hleast := rdfstoreBitsShorten_isLeast (la + j) (zeroRange ba la (la + j))
  rw [hones] at hleast
  apply le_antisymm
  · apply hleast.2
    have hle := rdfstoreBitsShorten_le la ba
    show ones _ _ = _
    rw [← ones_rdfstoreBitsShorten la ba]
    exact ones_congr fun k hk => if_neg (by omega)
  · apply (rdfstoreBitsShorten_isLeast la ba).2
    have hmem : ones _ _ = ones la ba := hleast.1
    have hle : rdfstoreBitsShorten (la + j) (zeroRange ba la (la + j)) ≤ la := by
      apply hleast.2
      show ones la _ = _
      exact ones_congr fun k hk => if_neg (by omega)
    show ones _ ba = _
    rw [← hmem]
    exact ones_congr fun k hk => (if_neg (by omega)).symm

end Algebra

/-- The laws every search and iterator operation rests on, for operands of any lengths, whatever lies
behind them and in the output. -/
theorem rdfstoreBits_algebra (la : ℕ) (ba : Buf) (lb : ℕ) (bb bc : Buf) :
    WritesBitmap (max la lb) bc (rdfstoreBitsOr la ba lb bb bc) (ones la ba ∪ ones lb bb) ∧
    WritesBitmap (min la lb) bc (rdfstoreBitsAnd la ba lb bb bc) (ones la ba ∩ ones lb bb) ∧
    WritesBitmap (max la lb) bc (rdfstoreBitsExor la ba lb bb bc) (ones la ba \ ones lb bb) ∧
    IsLeast {m | ones m ba = ones la ba} (rdfstoreBitsShorten la ba) ∧
    ∀ ja jb bc', let za := zeroRange ba la (la + ja); let zb := zeroRange bb lb (lb + jb)
      (∀ op ∈ [rdfstoreBitsOr, rdfstoreBitsAnd, rdfstoreBitsExor],
        takeBytes (op (la + ja) za (lb + jb) zb bc').1 (op (la + ja) za (lb + jb) zb bc').2
          = takeBytes (op la ba lb bb bc).1 (op la ba lb bb bc).2) ∧
      rdfstoreBitsShorten (la + ja) za = rdfstoreBitsShorten la ba := by
  refine ⟨rdfstoreBitsOr_writes la ba lb bb bc, rdfstoreBitsAnd_writes la ba lb bb bc,
    rdfstoreBitsExor_writes la ba lb bb bc, rdfstoreBitsShorten_isLeast la ba, ?_⟩
  intro ja jb bc' za zb
  have hza : ones (la + ja) za = ones la ba := ones_zeroRange (by omega)
  have hzb : ones (lb + jb) zb = ones lb bb := ones_zeroRange (by omega)
  refine ⟨?_, rdfstoreBitsShorten_zeros la ba ja⟩
  simp only [List.forall_mem_cons]
  refine ⟨?_, ?_, ?_, List.forall_mem_nil _⟩
  · have h := rdfstoreBitsOr_writes (la + ja) za (lb + jb) zb bc'
    rw [hza, hzb] at h
    exact h.unique (rdfstoreBitsOr_writes la ba lb bb bc)
  · have h := rdfstoreBitsAnd_writes (la + ja) za (lb + jb) zb bc'
    rw [hza, hzb] at h
    exact h.unique (rdfstoreBitsAnd_writes la ba lb bb bc)
  · have h := rdfstoreBitsExor_writes (la + ja) za (lb + jb) zb bc'
    rw [hza, hzb] at h
    exact h.unique (rdfstoreBitsExor_writes la ba lb bb bc)

/-! ## Enumerating records -/

/-- A mask that passes the two assertions of `rdfstore_bits_getfirstrecord`. -/
structure RecordMask where
  mask : UInt8
  small : mask < 16
  nonzero : mask ≠ 0

/-- The `do … while` of `rdfstore_bits_getfirstrecord`: the low half of the byte, then the high half. -/
def firstRecordLoop (size : ℕ) (bits : Buf) (mask : UInt8) : ℕ → ℕ → UInt8 → ℕ
  | 0, _, _ => size * 2
  | fuel + 1, i, c =>
    if (c &&& 0x0F) &&& mask ≠ 0 then 2 * i + 0
    else if (c &&& (0xF0 : UInt8)) &&& (mask <<< (4 : UInt8)) ≠ 0 then 2 * i + 1
    else if i + 1 < size then firstRecordLoop size bits mask fuel (i + 1) (bits (i + 1))
    else size * 2

/-- The first byte, without its low half when the scan starts at the high one. -/
def firstHalves (bits : Buf) (pos : ℕ) : UInt8 :=
  if pos % 2 = 1 then bits (pos / 2) &&& 0xF0 else bits (pos / 2)

/-- `rdfstore_bits_getfirstrecord`: the first record from `pos` on with a bit set within the mask.  As in
`rdfstoreBitsGetfirstsetafter` the first byte is read whatever the size. -/
def rdfstoreBitsGetfirstrecord (size : ℕ) (bits : Buf) (m : RecordMask) (pos : ℕ) : ℕ :=
  firstRecordLoop size bits m.mask (size - pos / 2 + 1) (pos / 2) (firstHalves bits pos)

/-- Record `n` of a bitmap is half `n % 2` of byte `n / 2`. -/
def recordOf (c : UInt8) (n : ℕ) : UInt8 := if n % 2 = 0 then c &&& 0x0F else c >>> (4 : UInt8)

def meets (bits : Buf) (mask : UInt8) (n : ℕ) : Bool := recordOf (bits (n / 2)) n &&& mask ≠ 0

/-- The mask moved to the high half, or the half moved to the mask. -/
theorem high_half_meets (c : UInt8) (m : RecordMask) :
    (c &&& (0xF0 : UInt8)) &&& (m.mask <<< (4 : UInt8)) = 0 ↔ (c >>> (4 : UInt8)) &&& m.mask = 0 := by
  have h : ∀ n < 256, ∀ k < 16, (n.toUInt8 &&& (0xF0 : UInt8)) &&& (k.toUInt8 <<< (4 : UInt8)) = 0 ↔
      (n.toUInt8 >>> (4 : UInt8)) &&& k.toUInt8 = 0 := by
    decide +kernel
  have hc := h c.toNat c.toNat_lt m.mask.toNat (UInt8.lt_iff_toNat_lt.1 m.small)
  rwa [Nat.toUInt8_eq, UInt8.ofNat_toNat, Nat.toUInt8_eq, UInt8.ofNat_toNat] at hc

example : rdfstoreBitsGetfirstrecord 2 (fun _ => 0x30) ⟨2, by decide, by decide⟩ 2 = 3 := by decide

section Records

variable (size : ℕ) (bits : Buf) (m : RecordMask)

/-- What the scan sees of record `n` when it holds `c` for byte `i`. -/
def meetsIn (i : ℕ) (c : UInt8) (n : ℕ) : Bool :=
  recordOf (if n / 2 = i then c else bits (n / 2)) n &&& m.mask ≠ 0

theorem meetsIn_low (i : ℕ) (c : UInt8) : meetsIn bits m i c (2 * i) = true ↔ (c &&& 0x0F) &&& m.mask ≠ 0 := by
  unfold meetsIn recordOf
  rw [if_pos (by omega), if_pos (by omega), decide_eq_true_iff]

theorem meetsIn_high (i : ℕ) (c : UInt8) :
    meetsIn bits m i c (2 * i + 1) = true ↔ (c &&& (0xF0 : UInt8)) &&& (m.mask <<< (4 : UInt8)) ≠ 0 := by
  unfold meetsIn recordOf
  rw [if_neg (by omega), if_pos (by omega), decide_eq_true_iff, Ne, Ne, high_half_meets]

theorem meetsIn_of_ne {i n : ℕ} (c : UInt8) (h : n / 2 ≠ i) : meetsIn bits m i c n = meets bits m.mask n := by
  unfold meetsIn meets
  rw [if_neg h]

theorem meetsIn_self (i n : ℕ) : meetsIn bits m i (bits i) n = meets bits m.mask n := by
  unfold meetsIn meets
  by_cases h : n / 2 = i
  · rw [if_pos h, h]
  · rw [if_neg h]

/-- The scan stops at the first record that meets the mask, counted from record `2 * i` on. -/
theorem firstRecordLoop_spec (fuel i : ℕ) (c : UInt8) (hfuel : size < i + fuel + 1) :
    (firstRecordLoop size bits m.mask fuel i c < size * 2 →
      meetsIn bits m i c (firstRecordLoop size bits m.mask fuel i c) = true ∧
        2 * i ≤ firstRecordLoop size bits m.mask fuel i c) ∧
    ∀ q, meetsIn bits m i c q = true → 2 * i ≤ q → q < size * 2 →
      firstRecordLoop size bits m.mask fuel i c ≤ q := by
  induction fuel generalizing i c with
  | zero =>
    refine ⟨fun hlt => absurd hlt (lt_irrefl _), fun q _ hq hlt => ?_⟩
    omega
  | succ fuel ih =>
    unfold firstRecordLoop
    by_cases hlow : (c &&& 0x0F) &&& m.mask ≠ 0
    · rw [if_pos hlow]
      exact ⟨fun _ => ⟨(meetsIn_low bits m i c).2 hlow, le_refl _⟩, fun q _ hq _ => hq⟩
    rw [if_neg hlow]
    by_cases hhigh : (c &&& (0xF0 : UInt8)) &&& (m.mask <<< (4 : UInt8)) ≠ 0
    · rw [if_pos hhigh]
      refine ⟨fun _ => ⟨(meetsIn_high bits m i c).2 hhigh, by omega⟩, fun q hq hle _ => ?_⟩
      by_contra hlt
      obtain rfl : q = 2 * i := by omega
      exact hlow ((meetsIn_low bits m i c).1 hq)
    rw [if_neg hhigh]
    -- neither half of the byte meets the mask
    have hbehind : ∀ q, meetsIn bits m i c q = true → 2 * i ≤ q → 2 * (i + 1) ≤ q := by
      intro q hq hle
      by_contra hlt
      obtain rfl | rfl : q = 2 * i ∨ q = 2 * i + 1 := by omega
      · exact hlow ((meetsIn_low bits m i c).1 hq)
      · exact hhigh ((meetsIn_high bits m i c).1 hq)
    by_cases hnext : i + 1 < size
    · rw [if_pos hnext]
      obtain ⟨hin, hfirst⟩ := ih (i + 1) (bits (i + 1)) (by omega)
      refine ⟨fun hlt => ?_, fun q hq hle hlt => ?_⟩
      · obtain ⟨hmeets, hle⟩ := hin hlt
        rw [meetsIn_self] at hmeets
        rw [meetsIn_of_ne bits m c (by omega)]
        exact ⟨hmeets, by omega⟩
      · have hle' := hbehind q hq hle
        rw [meetsIn_of_ne bits m c (by omega)] at hq
        exact hfirst q (by rw [meetsIn_self]; exact hq) hle' hlt
    · rw [if_neg hnext]
      refine ⟨fun hlt => absurd hlt (lt_irrefl _), fun q hq hle hlt => ?_⟩
      have hle' := hbehind q hq hle
      omega

/-- Of the first byte only a record before the start is not seen. -/
theorem meetsIn_firstHalves (pos q : ℕ) : meetsIn bits m (pos / 2) (firstHalves bits pos) q = true ↔
    meets bits m.mask q = true ∧ (q = 2 * (pos / 2) → pos ≤ q) := by
  have hlow : ∀ c : UInt8, (c &&& 0xF0) &&& 0x0F = 0 := by
    intro c
    rw [UInt8.and_assoc]
    exact UInt8.and_zero
  have hhigh : ∀ c : UInt8, (c &&& 0xF0) &&& 0xF0 = c &&& 0xF0 := by
    intro c
    rw [UInt8.and_assoc]
    rfl
  unfold firstHalves
  by_cases hodd : pos % 2 = 1
  · rw [if_pos hodd]
    by_cases hq : q / 2 = pos / 2
    · obtain rfl | rfl : q = 2 * (pos / 2) ∨ q = 2 * (pos / 2) + 1 := by omega
      · rw [meetsIn_low, hlow, UInt8.zero_and]
        constructor
        · intro h
          exact absurd rfl h
        · intro h
          have := h.2 rfl
          omega
      · rw [meetsIn_high, hhigh, ← meetsIn_high, meetsIn_self]
        constructor
        · intro h
          exact ⟨h, fun hq => by omega⟩
        · intro h
          exact h.1
    · rw [meetsIn_of_ne bits m _ hq]
      constructor
      · intro h
        exact ⟨h, fun hq' => by omega⟩
      · intro h
        exact h.1
  · rw [if_neg hodd, meetsIn_self]
    constructor
    · intro h
      exact ⟨h, fun hq => by omega⟩
    · intro h
      exact h.1

theorem rdfstoreBitsGetfirstrecord_findsNext :
    FindsNext (size * 2) (meets bits m.mask) (rdfstoreBitsGetfirstrecord size bits m) := by
  constructor
  · intro pos hlt
    have hspec := firstRecordLoop_spec size bits m (size - pos / 2 + 1) (pos / 2)
      (firstHalves bits pos) (by omega)
    obtain ⟨hmeets, hle⟩ := hspec.1 hlt
    rw [meetsIn_firstHalves] at hmeets
    refine ⟨hmeets.1, ?_⟩
    show pos ≤ firstRecordLoop _ _ _ _ _ _
    by_cases heq : firstRecordLoop size bits m.mask (size - pos / 2 + 1) (pos / 2)
      (firstHalves bits pos) = 2 * (pos / 2)
    · exact hmeets.2 heq
    · omega
  · intro pos q hq hle hlt
    have hspec := firstRecordLoop_spec size bits m (size - pos / 2 + 1) (pos / 2)
      (firstHalves bits pos) (by omega)
    exact hspec.2 q ((meetsIn_firstHalves bits m pos q).2 ⟨hq, fun _ => hle⟩) (by omega) hlt

end Records

theorem rdfstoreBitsGetfirstsetafter_findsNext (size : ℕ) (bits : Buf) :
    FindsNext (8 * size) (bit bits) (rdfstoreBitsGetfirstsetafter size bits) := by
  constructor
  · intro pos hlt
    obtain ⟨hmem, hle, -⟩ := (rdfstoreBitsGetfirstsetafter_spec size bits pos).1 (by omega)
    exact ⟨(mem_ones.1 hmem).2, hle⟩
  · intro pos q hq hle hlt
    obtain ⟨hin, hout⟩ := rdfstoreBitsGetfirstsetafter_spec size bits pos
    have hmem : q ∈ ones size bits := mem_ones.2 ⟨hlt, hq⟩
    by_cases hr : rdfstoreBitsGetfirstsetafter size bits pos < size * 8
    · exact (hin hr).2.2 q hmem hle
    · have := hout (by omega) q hmem
      omega

/-- Both loops end and visit, in ascending order and each once, the set bits below `8 * size` and the
records below `2 * size` that meet the mask. -/
theorem rdfstoreBits_enumeration (size : ℕ) (bits : Buf) :
    visits (8 * size) (rdfstoreBitsGetfirstsetafter size bits) (8 * size + 1) 0
      = some ((List.range (8 * size)).filter (bit bits)) ∧
    ∀ m : RecordMask, visits (size * 2) (rdfstoreBitsGetfirstrecord size bits m) (size * 2 + 1) 0
      = some ((List.range (size * 2)).filter (meets bits m.mask)) :=
  ⟨visits_zero (rdfstoreBitsGetfirstsetafter_findsNext size bits) (Nat.lt_succ_self _),
    fun m => visits_zero (rdfstoreBitsGetfirstrecord_findsNext size bits m) (Nat.lt_succ_self _)⟩

/-! ## The first set bit -/

/-- The `while` of `rdfstore_bits_isanyset`: where `at` is left, and the bits found. -/
def isanysetLoop (size : ℕ) (bits : Buf) (mask : UInt8) (rest : ℕ) : ℕ → ℕ → ℕ × UInt8
  | 0, pos => (pos, 0)
  | fuel + 1, pos =>
    if mask ≠ 0 ∧ pos < size then
      if bits pos &&& mask ≠ 0 then (pos * 8 + rest, bits pos &&& mask)
      else isanysetLoop size bits mask rest fuel (pos + 1)
    else (pos, 0)

/-- `rdfstore_bits_isanyset`: the mask is shifted once, by the place of the start in its byte. -/
def rdfstoreBitsIsanyset (size : ℕ) (bits : Buf) (pos : ℕ) (mask : UInt8) : ℕ × UInt8 :=
  isanysetLoop size bits (mask <<< (pos % 8).toUInt8) (pos % 8) (size - pos / 8 + 1) (pos / 8)

theorem byteBit_oneBit {s k : ℕ} (hs : s < 8) (hk : k < 8) :
    byteBit ((1 : UInt8) <<< s.toUInt8) k = decide (k = s) := by
  have hall : ∀ s < 8, ∀ k < 8, byteBit ((1 : UInt8) <<< s.toUInt8) k = decide (k = s) := by decide
  exact hall s hs k hk

theorem oneBitMask {s : ℕ} (hs : s < 8) :
    (1 : UInt8) <<< s.toUInt8 ≠ 0 ∧ ∀ c : UInt8, c &&& (1 : UInt8) <<< s.toUInt8 ≠ 0 ↔ byteBit c s = true := by
  constructor
  · have hne : ∀ s < 8, (1 : UInt8) <<< s.toUInt8 ≠ 0 := by decide
    exact hne s hs
  · intro c
    rw [Ne, byte_eq_zero_iff]
    constructor
    · intro h
      by_contra hbit
      apply h
      intro k hk
      rw [byteBit_and, byteBit_oneBit hs hk]
      by_cases hks : k = s
      · rw [hks, Bool.eq_false_iff.2 hbit, Bool.false_and]
      · rw [decide_eq_false hks, Bool.and_false]
    · intro hbit h
      have hk := h s hs
      rw [byteBit_and, byteBit_oneBit hs hs, hbit, decide_eq_true rfl] at hk
      exact absurd hk (by decide)

/-- The bits at the same place of the bytes from `pos` on are all that is looked at. -/
theorem isanysetLoop_spec (size : ℕ) (bits : Buf) {s : ℕ} (hs : s < 8) (fuel pos : ℕ) (hfuel : size < pos + fuel) :
    let r := isanysetLoop size bits ((1 : UInt8) <<< s.toUInt8) s fuel pos
    (r.2 ≠ 0 → ∃ j, r.1 = j * 8 + s ∧ pos ≤ j ∧ j < size ∧ byteBit (bits j) s = true ∧
      ∀ k, pos ≤ k → k < j → byteBit (bits k) s = false) ∧
    (r.2 = 0 → ∀ k, pos ≤ k → k < size → byteBit (bits k) s = false) := by
  obtain ⟨hne, hbit⟩ := oneBitMask hs
  induction fuel generalizing pos with
  | zero =>
    refine ⟨fun h => absurd rfl h, fun _ k hle hlt => ?_⟩
    omega
  | succ fuel ih =>
    intro r
    by_cases hpos : pos < size
    · by_cases hc : bits pos &&& (1 : UInt8) <<< s.toUInt8 ≠ 0
      · have hr : r = (pos * 8 + s, bits pos &&& (1 : UInt8) <<< s.toUInt8) := by
          show isanysetLoop _ _ _ _ _ _ = _
          rw [isanysetLoop, if_pos ⟨hne, hpos⟩, if_pos hc]
        rw [hr]
        refine ⟨fun _ => ⟨pos, rfl, le_refl _, hpos, (hbit _).1 hc, fun k hle hlt => ?_⟩, fun h => absurd h hc⟩
        omega
      · have hr : r = isanysetLoop size bits ((1 : UInt8) <<< s.toUInt8) s fuel (pos + 1) := by
          show isanysetLoop _ _ _ _ _ _ = _
          rw [isanysetLoop, if_pos ⟨hne, hpos⟩, if_neg hc]
        have hclear : byteBit (bits pos) s = false := Bool.eq_false_iff.2 fun h => hc ((hbit _).2 h)
        -- the byte at hand has no such bit, so it may be put in front of what the rest says
        have hstep : ∀ n, (∀ k, pos + 1 ≤ k → k < n → byteBit (bits k) s = false) →
            ∀ k, pos ≤ k → k < n → byteBit (bits k) s = false := by
          intro n hrest k hle hlt
          by_cases hk : k = pos
          · rw [hk]
            exact hclear
          · exact hrest k (by omega) hlt
        obtain ⟨hfound, hnone⟩ := ih (pos + 1) (by omega)
        rw [hr]
        refine ⟨fun h => ?_, fun h => hstep size (hnone h)⟩
        obtain ⟨j, hj, hle, hlt, hset, hlow⟩ := hfound h
        exact ⟨j, hj, by omega, hlt, hset, hstep j hlow⟩
    · have hr : r = (pos, 0) := by
        show isanysetLoop _ _ _ _ _ _ = _
        rw [isanysetLoop, if_neg fun h => hpos h.2]
      rw [hr]
      refine ⟨fun h => absurd rfl h, fun _ k hle hlt => ?_⟩
      omega

/-- The ids from a position on. -/
def idsFrom (size : ℕ) (bits : Buf) (pos : ℕ) : Set ℕ := {q | q ∈ ones size bits ∧ pos ≤ q}

/-- With mask 1 the first id from the start on is found among those with the same place in their byte. -/
theorem rdfstoreBitsIsanyset_spec (size : ℕ) (bits : Buf) (pos : ℕ) :
    ((rdfstoreBitsIsanyset size bits pos 1).2 ≠ 0 →
      IsLeast {q | q ∈ idsFrom size bits pos ∧ q % 8 = pos % 8} (rdfstoreBitsIsanyset size bits pos 1).1) ∧
    ((rdfstoreBitsIsanyset size bits pos 1).2 = 0 → ∀ q ∈ idsFrom size bits pos, q % 8 ≠ pos % 8) := by
  obtain ⟨hfound, hnone⟩ := isanysetLoop_spec size bits (show pos % 8 < 8 by omega) (size - pos / 8 + 1) (pos / 8)
    (by omega)
  constructor
  · intro h
    obtain ⟨j, hj, hle, hlt, hset, hlow⟩ := hfound h
    have hr : (rdfstoreBitsIsanyset size bits pos 1).1 = 8 * j + pos % 8 := by
      rw [Nat.mul_comm]
      exact hj
    rw [hr]
    refine ⟨⟨⟨mem_ones.2 ⟨by omega, ?_⟩, by omega⟩, by omega⟩, ?_⟩
    · rw [bit_byte bits j _ (by omega)]
      exact hset
    · rintro q ⟨⟨hq, hpq⟩, hmod⟩
      by_contra hgt
      have hbit := (mem_ones.1 hq).2
      unfold bit at hbit
      rw [hmod, hlow (q / 8) (by omega) (by omega)] at hbit
      exact absurd hbit (by decide)
  · rintro h q ⟨hq, hpq⟩ hmod
    obtain ⟨hlt, hbit⟩ := mem_ones.1 hq
    unfold bit at hbit
    rw [hmod, hnone h (q / 8) (by omega) (by omega)] at hbit
    exact absurd hbit (by decide)

/-- It answers whether an id is left, and leaves `at` at the first. -/
def IsanysetFinds (size : ℕ) (bits : Buf) (pos : ℕ) : Prop :=
  let r := rdfstoreBitsIsanyset size bits pos 1
  (r.2 ≠ 0 ↔ (idsFrom size bits pos).Nonempty) ∧ (r.2 ≠ 0 → IsLeast (idsFrom size bits pos) r.1)

/-- The first id is found when it has the place of the start in its byte, and then only. -/
theorem rdfstoreBitsIsanyset_first_iff (size : ℕ) (bits : Buf) (pos : ℕ) :
    IsanysetFinds size bits pos ↔ ∀ q, IsLeast (idsFrom size bits pos) q → q % 8 = pos % 8 := by
  obtain ⟨hfound, hnone⟩ := rdfstoreBitsIsanyset_spec size bits pos
  constructor
  · rintro ⟨hany, hleast⟩ q hq
    have hne := hany.2 ⟨q, hq.1⟩
    rw [hq.unique (hleast hne)]
    exact (hfound hne).1.2
  · intro hplace
    have hleast : (idsFrom size bits pos).Nonempty → (rdfstoreBitsIsanyset size bits pos 1).2 ≠ 0 ∧
        IsLeast (idsFrom size bits pos) (rdfstoreBitsIsanyset size bits pos 1).1 := by
      intro hids
      classical
      obtain ⟨q, hq⟩ : ∃ q, IsLeast (idsFrom size bits pos) q :=
        ⟨Nat.find hids, Nat.find_spec hids, fun _ hm => Nat.find_min' hids hm⟩
      have hmod := hplace _ hq
      have hne : (rdfstoreBitsIsanyset size bits pos 1).2 ≠ 0 := fun h => hnone h _ hq.1 hmod
      refine ⟨hne, ?_⟩
      have hr := hfound hne
      have heq : q = (rdfstoreBitsIsanyset size bits pos 1).1 :=
        le_antisymm (hq.2 hr.1.1) (hr.2 ⟨hq.1, hmod⟩)
      rwa [heq] at hq
    refine ⟨⟨fun h => ⟨_, (hfound h).1.1⟩, fun h => (hleast h).1⟩, fun h => ?_⟩
    exact (hleast ⟨_, (hfound h).1.1⟩).2

/-- Bit 1 alone is set, and the search from 0 on says that none is. -/
theorem isanyset_misses_second_bit : ¬ IsanysetFinds 1 (fun _ => 2) 0 := by
  intro h
  have hzero : (rdfstoreBitsIsanyset 1 (fun _ => 2) 0 1).2 = 0 := by decide
  exact h.1.2 ⟨1, by decide, by decide⟩ hzero

end RdfStore
