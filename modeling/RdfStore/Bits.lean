import RdfStore.Lib.ByteMem

/-!
# Bitmaps of statement ids (`rdfstore_bits.c`)

A bitmap is a size in bytes and a buffer.  `rdfstoreBitsSetmask` writes a masked
group of bits and grows the bitmap in units of `STEP` bytes, clearing what it
adds; `rdfstoreBitsExor/Or/And` combine two bitmaps of any sizes into a third
buffer and return the length of the last non-zero byte; `rdfstoreBitsShorten`
drops trailing zero bytes; `rdfstoreBitsGetfirstsetafter` finds the next id.

    setmask(at, 1, 1):  ids' = insert at ids                    (rdfstoreBitsSetmask_set)
    setmask(at, 1, 0):  ids' = ids \ {at}                       (rdfstoreBitsSetmask_clear)
    or / and / exor:    ids' = ∪ / ∩ / \                        (ones_rdfstoreBitsOr, …)
    the counting loop answers the cardinality                   (countBits_eq)
-/

namespace RdfStore

open ByteMem

/-! ## Setting a masked group of bits -/

/-- Growth unit of a bitmap, in bytes. -/
def STEP : Nat := 16

/-- The `do … while` of `rdfstore_bits_setmask`.  A 32 bit mask is shifted out after
four rounds, so fuel 4 is never used up; `none` is the `exit(1)` on overflow. -/
def setmaskLoop (size max : Nat) :
    Nat → Buf → Nat → Nat → UInt32 → UInt32 → UInt32 → Option (Buf × UInt32)
  | 0, bits, _, _, _, _, change => some (bits, change)
  | fuel + 1, bits, pos, depth, mask, value, change =>
    if max ≤ pos then none
    else
      let c := bits pos
      let d := ((c.toUInt32 &&& ~~~mask) ||| value).toUInt8
      let bits' := if d ≠ c then poke bits pos d else bits
      let change' := if d ≠ c then change ||| ((d ^^^ c).toUInt32 <<< depth.toUInt32) else change
      if mask >>> 8 ≠ 0 ∧ pos + 1 < size then
        setmaskLoop size max fuel bits' (pos + 1) (depth + 8) (mask >>> 8) (value >>> 8) change'
      else some (bits', change')

/-- `rdfstore_bits_setmask`: the new size, the buffer and the changed bits. -/
def rdfstoreBitsSetmask (size : Nat) (bits : Buf) (pos : Nat) (mask value : UInt32) (max : Nat) :
    Option (Nat × Buf × UInt32) :=
  if mask = 0 then some (size, bits, 0)
  else
    let s := STEP * (1 + pos / 8 / STEP)
    if size ≤ pos / 8 ∧ max < s then none
    else
      let size' := if size ≤ pos / 8 then s else size
      let bits' := if size ≤ pos / 8 then zeroRange bits size s else bits
      let sh := (pos % 8).toUInt32
      (setmaskLoop size' max 4 bits' (pos / 8) 0 (mask <<< sh) (value <<< sh) 0).map
        fun r => (size', r.1, r.2)

/-! ## Searching and counting -/

/-- The unrolled `_RX` tests: the lowest set bit, 7 when none of the first seven is. -/
def lowestBit (c : UInt8) : Nat := ((List.range 7).find? (byteBit c)).getD 7

def firstSetLoop (size : Nat) (bits : Buf) : Nat → Nat → UInt8 → Nat
  | 0, _, _ => size * 8
  | fuel + 1, i, c =>
    if c ≠ 0 then 8 * i + lowestBit c
    else if i + 1 < size then firstSetLoop size bits fuel (i + 1) (bits (i + 1))
    else size * 8

/-- `rdfstore_bits_getfirstsetafter`.  The first byte is read before the size is
looked at, so a position at or behind the end reads a byte behind the bitmap. -/
def rdfstoreBitsGetfirstsetafter (size : Nat) (bits : Buf) (pos : Nat) : Nat :=
  firstSetLoop size bits (size - pos / 8 + 1) (pos / 8)
    (bits (pos / 8) &&& (0xFF <<< (pos % 8).toUInt8))

def countLoop (size : Nat) (bits : Buf) : Nat → Nat → Nat
  | 0, _ => 0
  | fuel + 1, pos =>
    let p := rdfstoreBitsGetfirstsetafter size bits pos
    if p < size * 8 then countLoop size bits fuel (p + 1) + 1 else 0

/-- `while ((pos = getfirstsetafter(size, bits, pos)) < size*8) { n++; pos++; }`, the
loop that fills in the size of an iterator. -/
def countBits (size : Nat) (bits : Buf) : Nat := countLoop size bits (8 * size + 1) 0

/-! ## Binary operations -/

/-- The loop the binary operations share: `c i` is written at every `i` below the
bound, the length is one more than the last non-zero one. -/
def bitsLoop (c : Nat → UInt8) : Nat → Buf → Nat × Buf
  | 0, bc => (0, bc)
  | n + 1, bc =>
    let r := bitsLoop c n bc
    (if c n ≠ 0 then n + 1 else r.1, poke r.2 n (c n))

/-- The byte at `i`, zero behind the end. -/
def byteAt (l : Nat) (b : Buf) (i : Nat) : UInt8 := if l ≤ i then 0 else b i

/-- `rdfstore_bits_exor`: set in a, but not set in b. -/
def rdfstoreBitsExor (la : Nat) (ba : Buf) (lb : Nat) (bb : Buf) (bc : Buf) : Nat × Buf :=
  bitsLoop (fun i => (byteAt la ba i ||| byteAt lb bb i) ^^^ byteAt lb bb i) (max la lb) bc

def rdfstoreBitsOr (la : Nat) (ba : Buf) (lb : Nat) (bb : Buf) (bc : Buf) : Nat × Buf :=
  bitsLoop (fun i => byteAt la ba i ||| byteAt lb bb i) (max la lb) bc

def rdfstoreBitsAnd (la : Nat) (ba : Buf) (lb : Nat) (bb : Buf) (bc : Buf) : Nat × Buf :=
  bitsLoop (fun i => byteAt la ba i &&& byteAt lb bb i) (min la lb) bc

/-- `rdfstore_bits_shorten`: the length without trailing zero bytes. -/
def rdfstoreBitsShorten : Nat → Buf → Nat
  | 0, _ => 0
  | la + 1, ba => if ba la = 0 then rdfstoreBitsShorten la ba else la + 1

/-! ## What the operations denote -/

theorem bit_byteAt (l : Nat) (b : Buf) (i : Nat) : bit (byteAt l b) i = true ↔ i ∈ ones l b := by
  simp only [bit, byteAt, mem_ones]
  by_cases h : l ≤ i / 8
  · simp [h, show ¬ i < 8 * l by omega]
  · simp [h, show i < 8 * l by omega]

theorem bitsLoop_apply (c : Nat → UInt8) (n : Nat) (bc : Buf) (k : Nat) :
    (bitsLoop c n bc).2 k = if k < n then c k else bc k := by
  induction n with
  | zero => simp [bitsLoop]
  | succ n ih =>
    simp only [bitsLoop, poke, ih]
    by_cases hk : k = n
    · subst hk; simp
    · rw [if_neg hk]
      by_cases hlt : k < n
      · rw [if_pos hlt, if_pos (by omega)]
      · rw [if_neg hlt, if_neg (by omega)]

theorem bitsLoop_len_le (c : Nat → UInt8) (n : Nat) (bc : Buf) : (bitsLoop c n bc).1 ≤ n := by
  induction n with
  | zero => simp [bitsLoop]
  | succ n ih =>
    simp only [bitsLoop]
    split
    · exact le_refl _
    · omega

theorem bitsLoop_zero_tail (c : Nat → UInt8) (n : Nat) (bc : Buf) (k : Nat)
    (h1 : (bitsLoop c n bc).1 ≤ k) (h2 : k < n) : c k = 0 := by
  induction n with
  | zero => omega
  | succ n ih =>
    simp only [bitsLoop] at h1
    split at h1
    · omega
    · next hz =>
      by_cases hk : k = n
      · subst hk; simpa using hz
      · exact ih h1 (by omega)

/-- The last byte of a result is not zero. -/
theorem bitsLoop_last (c : Nat → UInt8) (n : Nat) (bc : Buf) (h : (bitsLoop c n bc).1 ≠ 0) :
    (bitsLoop c n bc).2 ((bitsLoop c n bc).1 - 1) ≠ 0 := by
  have hle := bitsLoop_len_le c n bc
  rw [bitsLoop_apply, if_pos (by omega)]
  clear hle
  induction n with
  | zero => simp [bitsLoop] at h
  | succ n ih =>
    simp only [bitsLoop] at h ⊢
    split
    · next hc => simpa using hc
    · next hc =>
      rw [if_neg hc] at h
      exact ih h

theorem ones_bitsLoop (c : Nat → UInt8) (n : Nat) (bc : Buf) :
    ones (bitsLoop c n bc).1 (bitsLoop c n bc).2 = ones n c := by
  have hle := bitsLoop_len_le c n bc
  have htail : ∀ k, (bitsLoop c n bc).1 ≤ k → k < n → c k = 0 :=
    fun k h1 h2 => bitsLoop_zero_tail c n bc k h1 h2
  rw [ones_eq_of_zero_tail hle htail]
  exact ones_congr fun k hk => by rw [bitsLoop_apply, if_pos (by omega)]

/-- A result of length zero denotes the empty set, and only such a result does. -/
theorem bitsLoop_len_eq_zero_iff (c : Nat → UInt8) (n : Nat) (bc : Buf) :
    (bitsLoop c n bc).1 = 0 ↔ ones n c = ∅ := by
  constructor
  · intro h
    rw [← ones_bitsLoop c n bc, h, ones_zero]
  · intro h
    by_contra hne
    have hlast := bitsLoop_last c n bc hne
    have hlt : (bitsLoop c n bc).1 - 1 < (bitsLoop c n bc).1 := by omega
    have hne' := ones_nonempty_of_byte hlt hlast
    rw [ones_bitsLoop, h] at hne'
    exact Finset.not_nonempty_empty hne'

section Binary

variable (la : Nat) (ba : Buf) (lb : Nat) (bb bc : Buf)

theorem ones_exor_bytes :
    ones (max la lb) (fun i => (byteAt la ba i ||| byteAt lb bb i) ^^^ byteAt lb bb i)
      = ones la ba \ ones lb bb := by
  ext i
  have hi : bit (fun i => (byteAt la ba i ||| byteAt lb bb i) ^^^ byteAt lb bb i) i = true ↔
      bit (byteAt la ba) i = true ∧ ¬ bit (byteAt lb bb) i = true := by
    simp only [bit, byteBit_xor, byteBit_or]
    cases byteBit (byteAt la ba (i / 8)) (i % 8) <;> cases byteBit (byteAt lb bb (i / 8)) (i % 8) <;>
      simp
  rw [mem_ones, hi, bit_byteAt, bit_byteAt, Finset.mem_sdiff]
  constructor
  · rintro ⟨_, h⟩; exact h
  · intro h
    have := (mem_ones.1 h.1).1
    exact ⟨by omega, h⟩

theorem ones_or_bytes :
    ones (max la lb) (fun i => byteAt la ba i ||| byteAt lb bb i) = ones la ba ∪ ones lb bb := by
  ext i
  have hi : bit (fun i => byteAt la ba i ||| byteAt lb bb i) i = true ↔
      bit (byteAt la ba) i = true ∨ bit (byteAt lb bb) i = true := by
    simp [bit]
  rw [mem_ones, hi, bit_byteAt, bit_byteAt, Finset.mem_union]
  constructor
  · rintro ⟨_, h⟩; exact h
  · intro h
    refine ⟨?_, h⟩
    rcases h with h | h
    · have := (mem_ones.1 h).1; omega
    · have := (mem_ones.1 h).1; omega

theorem ones_and_bytes :
    ones (min la lb) (fun i => byteAt la ba i &&& byteAt lb bb i) = ones la ba ∩ ones lb bb := by
  ext i
  have hi : bit (fun i => byteAt la ba i &&& byteAt lb bb i) i = true ↔
      bit (byteAt la ba) i = true ∧ bit (byteAt lb bb) i = true := by
    simp [bit]
  rw [mem_ones, hi, bit_byteAt, bit_byteAt, Finset.mem_inter]
  constructor
  · rintro ⟨_, h⟩; exact h
  · intro h
    have h1 := (mem_ones.1 h.1).1
    have h2 := (mem_ones.1 h.2).1
    exact ⟨by omega, h⟩

theorem ones_rdfstoreBitsExor :
    ones (rdfstoreBitsExor la ba lb bb bc).1 (rdfstoreBitsExor la ba lb bb bc).2
      = ones la ba \ ones lb bb :=
  (ones_bitsLoop _ _ _).trans (ones_exor_bytes la ba lb bb)

theorem ones_rdfstoreBitsOr :
    ones (rdfstoreBitsOr la ba lb bb bc).1 (rdfstoreBitsOr la ba lb bb bc).2
      = ones la ba ∪ ones lb bb :=
  (ones_bitsLoop _ _ _).trans (ones_or_bytes la ba lb bb)

theorem ones_rdfstoreBitsAnd :
    ones (rdfstoreBitsAnd la ba lb bb bc).1 (rdfstoreBitsAnd la ba lb bb bc).2
      = ones la ba ∩ ones lb bb :=
  (ones_bitsLoop _ _ _).trans (ones_and_bytes la ba lb bb)

theorem rdfstoreBitsExor_len_eq_zero_iff :
    (rdfstoreBitsExor la ba lb bb bc).1 = 0 ↔ ones la ba \ ones lb bb = ∅ := by
  rw [← ones_exor_bytes]; exact bitsLoop_len_eq_zero_iff _ _ _

theorem rdfstoreBitsOr_len_eq_zero_iff :
    (rdfstoreBitsOr la ba lb bb bc).1 = 0 ↔ ones la ba ∪ ones lb bb = ∅ := by
  rw [← ones_or_bytes]; exact bitsLoop_len_eq_zero_iff _ _ _

theorem rdfstoreBitsAnd_len_eq_zero_iff :
    (rdfstoreBitsAnd la ba lb bb bc).1 = 0 ↔ ones la ba ∩ ones lb bb = ∅ := by
  rw [← ones_and_bytes]; exact bitsLoop_len_eq_zero_iff _ _ _

end Binary

/-! ## Shortening -/

theorem rdfstoreBitsShorten_le (la : Nat) (ba : Buf) : rdfstoreBitsShorten la ba ≤ la := by
  induction la with
  | zero => simp [rdfstoreBitsShorten]
  | succ la ih =>
    simp only [rdfstoreBitsShorten]
    split
    · omega
    · exact le_refl _

theorem rdfstoreBitsShorten_zero_tail (la : Nat) (ba : Buf) (k : Nat)
    (h1 : rdfstoreBitsShorten la ba ≤ k) (h2 : k < la) : ba k = 0 := by
  induction la with
  | zero => omega
  | succ la ih =>
    simp only [rdfstoreBitsShorten] at h1
    split at h1
    · next hz =>
      by_cases hk : k = la
      · rw [hk]; exact hz
      · exact ih h1 (by omega)
    · omega

theorem ones_rdfstoreBitsShorten (la : Nat) (ba : Buf) :
    ones (rdfstoreBitsShorten la ba) ba = ones la ba :=
  (ones_eq_of_zero_tail (rdfstoreBitsShorten_le la ba)
    fun k h1 h2 => rdfstoreBitsShorten_zero_tail la ba k h1 h2).symm

theorem rdfstoreBitsShorten_last (la : Nat) (ba : Buf) (h : rdfstoreBitsShorten la ba ≠ 0) :
    ba (rdfstoreBitsShorten la ba - 1) ≠ 0 := by
  induction la with
  | zero => simp [rdfstoreBitsShorten] at h
  | succ la ih =>
    simp only [rdfstoreBitsShorten] at h ⊢
    split
    · next hz =>
      rw [if_pos hz] at h
      exact ih h
    · next hz => simpa using hz

theorem rdfstoreBitsShorten_eq_zero_iff (la : Nat) (ba : Buf) :
    rdfstoreBitsShorten la ba = 0 ↔ ones la ba = ∅ := by
  constructor
  · intro h
    rw [← ones_rdfstoreBitsShorten, h, ones_zero]
  · intro h
    by_contra hne
    have hlast := rdfstoreBitsShorten_last la ba hne
    have hlt : rdfstoreBitsShorten la ba - 1 < rdfstoreBitsShorten la ba := by omega
    have hne' := ones_nonempty_of_byte hlt hlast
    rw [ones_rdfstoreBitsShorten, h] at hne'
    exact Finset.not_nonempty_empty hne'

/-! ## Writing one bit -/

theorem byteBit_eq_getLsbD (c : UInt8) (k : Nat) : byteBit c k = c.toBitVec.getLsbD k := rfl

/-- The byte `setmask` writes for a one bit mask: bit `s` gets the value. -/
theorem byteBit_maskByte (c : UInt8) (v : Bool) (s k : Nat) (hs : s < 8) (hk : k < 8) :
    byteBit (((c.toUInt32 &&& ~~~((1 : UInt32) <<< s.toUInt32))
      ||| ((if v then 1 else 0 : UInt32) <<< s.toUInt32)).toUInt8) k
      = if k = s then v else byteBit c k := by
  have hs' : s.toUInt32.toBitVec % 32 = BitVec.ofNat 32 s := by
    apply BitVec.eq_of_toNat_eq
    simp
    omega
  have hmod : s % 4294967296 = s := Nat.mod_eq_of_lt (by omega)
  simp only [byteBit_eq_getLsbD, UInt32.toBitVec_toUInt8, UInt32.toBitVec_or, UInt32.toBitVec_and,
    UInt32.toBitVec_not, UInt32.toBitVec_shiftLeft, hs']
  rcases Nat.lt_trichotomy k s with h | h | h
  · simp [hk, hmod, h, show k ≠ s by omega]
  · subst h
    cases v <;> simp [hk, hmod]
  · have h' : k - s ≠ 0 := by omega
    cases v <;> simp [hk, hmod, h', show k ≠ s by omega]

/-- The bits `setmask` reports changed, after one round. -/
theorem change_eq_zero_iff (c d : UInt8) :
    (if d ≠ c then (0 : UInt32) ||| ((d ^^^ c).toUInt32 <<< (0 : Nat).toUInt32) else 0) = 0 ↔ d = c := by
  by_cases h : d = c
  · simp [h]
  · rw [if_pos h]
    refine ⟨fun hz => ?_, fun hdc => absurd hdc h⟩
    have hword : (d ^^^ c).toUInt32 = 0 := by simpa using hz
    have hbyte : d ^^^ c = 0 := UInt8.toNat_inj.1 (by simpa using congrArg UInt32.toNat hword)
    exact UInt8.xor_eq_zero_iff.1 hbyte

/-- The byte is written as it is when the bit has the value already. -/
theorem maskByte_eq_iff (c : UInt8) (v : Bool) (s : Nat) (hs : s < 8) :
    ((c.toUInt32 &&& ~~~((1 : UInt32) <<< s.toUInt32))
      ||| ((if v then 1 else 0 : UInt32) <<< s.toUInt32)).toUInt8 = c ↔ byteBit c s = v := by
  constructor
  · intro h
    have hbit := byteBit_maskByte c v s s hs hs
    rwa [h, if_pos rfl] at hbit
  · intro h
    refine byte_ext fun k hk => ?_
    rw [byteBit_maskByte c v s k hs hk]
    split
    · next hks => rw [hks, h]
    · rfl

/-- One bit at `pos`: one round of the loop writes byte `pos / 8`, and reports whether it changed. -/
theorem setmaskLoop_one (size max pos : Nat) (bits : Buf) (v : Bool) (hp : pos / 8 < max) :
    ∃ bits' change, setmaskLoop size max 4 bits (pos / 8) 0 ((1 : UInt32) <<< (pos % 8).toUInt32)
        ((if v then 1 else 0 : UInt32) <<< (pos % 8).toUInt32) 0 = some (bits', change) ∧
      (∀ i, bit bits' i = if i = pos then v else bit bits i) ∧ (change = 0 ↔ bit bits pos = v) := by
  have hshift : ∀ s < 8, ¬ ((1 : UInt32) <<< s.toUInt32) >>> 8 ≠ 0 := by decide
  have hs := hshift (pos % 8) (by omega)
  refine ⟨_, _, by rw [setmaskLoop, if_neg (by omega), if_neg fun h => hs h.1], fun i => ?_, ?_⟩
  · have hbyte : ∀ (d : UInt8) (k : Nat),
        (if d ≠ bits (pos / 8) then poke bits (pos / 8) d else bits) k = if k = pos / 8 then d else bits k := by
      intro d k
      by_cases hd : d = bits (pos / 8)
      · by_cases hk : k = pos / 8
        · simp [hd, hk]
        · simp [hd, hk]
      · simp [hd, poke]
    simp only [bit, hbyte]
    by_cases hi : i / 8 = pos / 8
    · rw [if_pos hi, byteBit_maskByte _ v _ _ (by omega) (by omega), hi]
      by_cases hip : i = pos
      · rw [if_pos hip, if_pos (by rw [hip])]
      · rw [if_neg hip, if_neg (by omega)]
    · rw [if_neg hi, if_neg fun h => hi (by rw [h])]
  · exact (change_eq_zero_iff _ _).trans (maskByte_eq_iff _ v _ (by omega))

/-- Writing one bit below the maximum succeeds; `v` says whether the id is added or dropped, and no
change is reported when it was so before. -/
theorem rdfstoreBitsSetmask_bit (size max pos : Nat) (bits : Buf) (v : Bool) (hp : pos / 8 < max)
    (hstep : STEP ∣ max) :
    ∃ size' bits' change,
      rdfstoreBitsSetmask size bits pos 1 (if v then 1 else 0) max = some (size', bits', change) ∧
      pos / 8 < size' ∧ (size ≤ max → size' ≤ max) ∧
      ones size' bits' = (if v then insert pos (ones size bits) else (ones size bits).erase pos) ∧
      (change = 0 ↔ (pos ∈ ones size bits ↔ v = true)) := by
  obtain ⟨m, rfl⟩ := hstep
  have hs : pos / 8 < STEP * (1 + pos / 8 / STEP) ∧ STEP * (1 + pos / 8 / STEP) ≤ STEP * m := by
    simp only [STEP] at hp ⊢; omega
  -- the extended bitmap denotes the same ids and covers the bit
  obtain ⟨size', bits₁, hb, hpos, hle, hones⟩ : ∃ size' bits₁,
      ((if size ≤ pos / 8 then STEP * (1 + pos / 8 / STEP) else size) = size' ∧
        (if size ≤ pos / 8 then zeroRange bits size (STEP * (1 + pos / 8 / STEP)) else bits) = bits₁) ∧
      pos / 8 < size' ∧ (size ≤ STEP * m → size' ≤ STEP * m) ∧ ones size' bits₁ = ones size bits := by
    by_cases hx : size ≤ pos / 8
    · refine ⟨_, _, ⟨rfl, rfl⟩, ?_⟩
      rw [if_pos hx, if_pos hx]
      exact ⟨hs.1, fun _ => hs.2, ones_zeroRange (by omega)⟩
    · refine ⟨_, _, ⟨rfl, rfl⟩, ?_⟩
      rw [if_neg hx, if_neg hx]
      exact ⟨by omega, id, rfl⟩
  obtain ⟨bits', change, hloop, hbit, hchange⟩ := setmaskLoop_one size' (STEP * m) pos bits₁ v hp
  refine ⟨size', bits', change, ?_, hpos, hle, ?_, ?_⟩
  · unfold rdfstoreBitsSetmask
    rw [if_neg (by decide), if_neg (by omega)]
    simp only [hb.1, hb.2, hloop, Option.map_some]
  · ext i
    rw [mem_ones, hbit i, ← hones]
    by_cases hi : i = pos
    · subst hi
      cases v
      · simp
      · simp; omega
    · cases v <;> simp [hi]
  · rw [hchange, ← hones, mem_ones, and_iff_right (by omega : pos < 8 * size')]
    cases v <;> simp

theorem rdfstoreBitsSetmask_one (size max pos : Nat) (bits : Buf) (v : Bool) (hsize : size ≤ max)
    (hp : pos / 8 < max) (hstep : STEP ∣ max) :
    ∃ size' bits' change,
      rdfstoreBitsSetmask size bits pos 1 (if v then 1 else 0) max = some (size', bits', change) ∧
      0 < size' ∧ size' ≤ max ∧
      ones size' bits' = if v then insert pos (ones size bits) else (ones size bits).erase pos := by
  obtain ⟨size', bits', change, hset, hpos, hle, hones, -⟩ := rdfstoreBitsSetmask_bit size max pos bits v hp hstep
  exact ⟨size', bits', change, hset, by omega, hle hsize, hones⟩

theorem rdfstoreBitsSetmask_set (size max pos : Nat) (bits : Buf) (hsize : size ≤ max)
    (hp : pos / 8 < max) (hstep : STEP ∣ max) :
    ∃ size' bits' change, rdfstoreBitsSetmask size bits pos 1 1 max = some (size', bits', change) ∧
      0 < size' ∧ size' ≤ max ∧ ones size' bits' = insert pos (ones size bits) := by
  simpa using rdfstoreBitsSetmask_one size max pos bits true hsize hp hstep

theorem rdfstoreBitsSetmask_clear (size max pos : Nat) (bits : Buf) (hsize : size ≤ max)
    (hp : pos / 8 < max) (hstep : STEP ∣ max) :
    ∃ size' bits' change, rdfstoreBitsSetmask size bits pos 1 0 max = some (size', bits', change) ∧
      0 < size' ∧ size' ≤ max ∧ ones size' bits' = (ones size bits).erase pos := by
  simpa using rdfstoreBitsSetmask_one size max pos bits false hsize hp hstep

/-! ## Enumerating the ids -/

theorem lowestBit_spec {c : UInt8} (h : c ≠ 0) :
    lowestBit c < 8 ∧ byteBit c (lowestBit c) = true ∧ ∀ k < lowestBit c, byteBit c k = false := by
  unfold lowestBit
  cases hf : (List.range 7).find? (byteBit c) with
  | some k =>
    rw [List.find?_range_eq_some] at hf
    obtain ⟨hk, hmem, hlow⟩ := hf
    simp only [List.mem_range] at hmem
    exact ⟨by simp; omega, by simpa using hk, fun j hj => by simpa using hlow j (by simpa using hj)⟩
  | none =>
    rw [List.find?_range_eq_none] at hf
    have hlow : ∀ k < 7, byteBit c k = false := fun k hk => by simpa using hf k hk
    refine ⟨by simp, ?_, fun k hk => hlow k (by simpa using hk)⟩
    by_contra h7
    apply h
    rw [byte_eq_zero_iff]
    intro k hk
    by_cases hk7 : k = 7
    · subst hk7; simpa using h7
    · exact hlow k (by omega)

/-- The scan stops at the first id not before `8 * i`, or there is none below the size. -/
theorem firstSetLoop_spec (size : Nat) (bits : Buf) (fuel i : Nat) (c : UInt8)
    (hfuel : size < i + fuel + 1) :
    (∃ j k, firstSetLoop size bits fuel i c = 8 * j + k ∧ k < 8 ∧ i ≤ j ∧
        (∀ n, i ≤ n → n < j → (if n = i then c else bits n) = 0) ∧
        byteBit (if j = i then c else bits j) k = true ∧
        (∀ l < k, byteBit (if j = i then c else bits j) l = false)) ∨
      (firstSetLoop size bits fuel i c = size * 8 ∧
        ∀ n, i ≤ n → n < size → (if n = i then c else bits n) = 0) := by
  induction fuel generalizing i c with
  | zero => exact Or.inr ⟨rfl, fun n h1 h2 => by omega⟩
  | succ fuel ih =>
    unfold firstSetLoop
    by_cases hc : c = 0
    · rw [if_neg (by simpa using hc)]
      by_cases hsz : i + 1 < size
      · rw [if_pos hsz]
        have hsame : ∀ n, i + 1 ≤ n → (if n = i + 1 then bits (i + 1) else bits n) = bits n := by
          intro n _
          split
          · next h => rw [h]
          · rfl
        have hnext : ∀ n, i + 1 ≤ n → (if n = i then c else bits n) = bits n :=
          fun n hn => if_neg (by omega)
        rcases ih (i + 1) (bits (i + 1)) (by omega) with ⟨j, k, he, hk, hij, hz, hset, hlow⟩ | ⟨he, hz⟩
        · rw [hsame j hij] at hset
          refine Or.inl ⟨j, k, he, hk, by omega, fun n h1 h2 => ?_, by rw [hnext j hij]; exact hset, ?_⟩
          · by_cases hn : n = i
            · rw [if_pos hn]; exact hc
            · rw [hnext n (by omega), ← hsame n (by omega)]; exact hz n (by omega) h2
          · intro l hl
            rw [hnext j hij, ← hsame j hij]
            exact hlow l hl
        · refine Or.inr ⟨he, fun n h1 h2 => ?_⟩
          by_cases hn : n = i
          · rw [if_pos hn]; exact hc
          · rw [hnext n (by omega), ← hsame n (by omega)]; exact hz n (by omega) h2
      · rw [if_neg hsz]
        refine Or.inr ⟨rfl, fun n h1 h2 => ?_⟩
        rw [if_pos (by omega)]
        exact hc
    · rw [if_pos hc]
      obtain ⟨h8, hset, hlow⟩ := lowestBit_spec hc
      refine Or.inl ⟨i, lowestBit c, rfl, h8, le_refl i, fun n h1 h2 => by omega, ?_, ?_⟩
      · rw [if_pos rfl]; exact hset
      · rw [if_pos rfl]; exact hlow

/-- The first byte of the scan keeps the bits from `pos` on. -/
theorem byteBit_firstByte (c : UInt8) (s k : Nat) (hs : s < 8) (hk : k < 8) :
    byteBit (c &&& (0xFF <<< s.toUInt8)) k = (decide (s ≤ k) && byteBit c k) := by
  have hmask : ∀ s < 8, ∀ k < 8, byteBit ((0xFF : UInt8) <<< s.toUInt8) k = decide (s ≤ k) := by
    decide
  rw [byteBit_and, hmask s hs k hk, Bool.and_comm]

/-- The answer is the first id from `pos` on, or at least `8 * size` when there is none. -/
theorem rdfstoreBitsGetfirstsetafter_spec (size : Nat) (bits : Buf) (pos : Nat) :
    (rdfstoreBitsGetfirstsetafter size bits pos < size * 8 →
      rdfstoreBitsGetfirstsetafter size bits pos ∈ ones size bits ∧
      pos ≤ rdfstoreBitsGetfirstsetafter size bits pos ∧
      ∀ q ∈ ones size bits, pos ≤ q → rdfstoreBitsGetfirstsetafter size bits pos ≤ q) ∧
    (size * 8 ≤ rdfstoreBitsGetfirstsetafter size bits pos → ∀ q ∈ ones size bits, q < pos) := by
  unfold rdfstoreBitsGetfirstsetafter
  generalize hc : (bits (pos / 8) &&& (0xFF <<< (pos % 8).toUInt8)) = c
  -- what the scanned bytes say about an id from `pos` on
  have hview : ∀ q, pos ≤ q → byteBit (if q / 8 = pos / 8 then c else bits (q / 8)) (q % 8) = bit bits q := by
    intro q hq
    split
    · next h =>
      rw [← hc, byteBit_firstByte _ _ _ (by omega) (by omega), ← h]
      simp [bit, show pos % 8 ≤ q % 8 by omega]
    · rfl
  have hbelow : ∀ k < 8, byteBit c k = true → pos % 8 ≤ k := by
    intro k hk h
    rw [← hc, byteBit_firstByte _ _ _ (by omega) hk] at h
    simp only [Bool.and_eq_true, decide_eq_true_eq] at h
    exact h.1
  rcases firstSetLoop_spec size bits (size - pos / 8 + 1) (pos / 8) c (by omega) with
    ⟨j, k, he, hk, hij, hz, hset, hlow⟩ | ⟨he, hz⟩
  · have hfirst : ∀ q ∈ ones size bits, pos ≤ q → 8 * j + k ≤ q := by
      intro q hq hpq
      by_contra hlt
      have hb := hview q hpq
      rw [(mem_ones.1 hq).2] at hb
      by_cases hqj : q / 8 < j
      · rw [hz (q / 8) (by omega) hqj, byteBit_zero] at hb
        exact absurd hb (by simp)
      · have hqj' : q / 8 = j := by omega
        rw [hqj', hlow (q % 8) (by omega)] at hb
        exact absurd hb (by simp)
    have hpos : pos ≤ 8 * j + k := by
      by_cases hji : j = pos / 8
      · rw [if_pos hji] at hset
        have := hbelow k hk hset
        omega
      · omega
    rw [he]
    refine ⟨fun hlt => ⟨?_, hpos, hfirst⟩, fun hge q hq => ?_⟩
    · rw [mem_ones]
      refine ⟨by omega, ?_⟩
      rw [← hview _ hpos, show (8 * j + k) / 8 = j by omega, show (8 * j + k) % 8 = k by omega]
      exact hset
    · by_contra hge'
      have := hfirst q hq (by omega)
      have := (mem_ones.1 hq).1
      omega
  · rw [he]
    refine ⟨fun hlt => absurd hlt (lt_irrefl _), fun _ q hq => ?_⟩
    by_contra hge
    have hq' := mem_ones.1 hq
    have hb := hview q (by omega)
    rw [hz (q / 8) (by omega) (by omega), byteBit_zero, hq'.2] at hb
    exact absurd hb (by simp)

/-- The ids from a position on, the first of them taken out. -/
theorem filter_ones_eq_insert {size : Nat} {bits : Buf} {pos p : Nat} (hmem : p ∈ ones size bits) (hle : pos ≤ p)
    (hfirst : ∀ q ∈ ones size bits, pos ≤ q → p ≤ q) : (ones size bits).filter (pos ≤ ·) =
      insert p ((ones size bits).filter (p + 1 ≤ ·)) := by
  ext q
  simp only [Finset.mem_filter, Finset.mem_insert]
  constructor
  · rintro ⟨hq, hpq⟩
    have := hfirst q hq hpq
    by_cases hqp : q = p
    · exact Or.inl hqp
    · exact Or.inr ⟨hq, by omega⟩
  · rintro (rfl | ⟨hq, hpq⟩)
    · exact ⟨hmem, hle⟩
    · exact ⟨hq, by omega⟩

theorem countLoop_eq (size : Nat) (bits : Buf) (fuel pos : Nat) (hfuel : 8 * size < pos + fuel) :
    countLoop size bits fuel pos = ((ones size bits).filter (pos ≤ ·)).card := by
  induction fuel generalizing pos with
  | zero =>
    rw [countLoop, eq_comm, Finset.card_eq_zero, Finset.filter_eq_empty_iff]
    intro q hq
    have := (mem_ones.1 hq).1
    omega
  | succ fuel ih =>
    obtain ⟨hin, hout⟩ := rdfstoreBitsGetfirstsetafter_spec size bits pos
    unfold countLoop
    by_cases hp : rdfstoreBitsGetfirstsetafter size bits pos < size * 8
    · obtain ⟨hmem, hle, hfirst⟩ := hin hp
      simp only [if_pos hp]
      generalize rdfstoreBitsGetfirstsetafter size bits pos = p at *
      rw [ih (p + 1) (by omega), filter_ones_eq_insert hmem hle hfirst, Finset.card_insert_of_notMem (by simp)]
    · simp only [if_neg hp]
      rw [eq_comm, Finset.card_eq_zero, Finset.filter_eq_empty_iff]
      intro q hq
      have := hout (by omega) q hq
      omega

/-- Counting with `getfirstsetafter` gives the number of ids, whatever lies behind the bitmap. -/
theorem countBits_eq (size : Nat) (bits : Buf) : countBits size bits = (ones size bits).card := by
  unfold countBits
  rw [countLoop_eq size bits _ 0 (by omega)]
  simp

end RdfStore
