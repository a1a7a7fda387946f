import RdfStore.Lib.ByteMem
import Mathlib.Data.List.Infix
import Mathlib.Tactic.Common

/-!
# The codec of repeated patterns (`my_compress.c`)

`compress_mine` cuts the bytes into pieces.  A piece is a pattern of up to 127 bytes
and how often it is repeated, or up to 127 bytes as they are.  `expand_mine` reads
the head of a piece (its kind, a length in one, two or four bytes, the width of the
pattern if it is not one) and writes the piece out.  Which pattern is taken does not
matter to it.

    what is taken fits the bytes that are left         (choosePiece_fits)
    a piece that fits is read back                     (expandPiece_write)
    so are all bytes, less than 2^28 of them           (expandMine_compressMine)
-/

namespace RdfStore.Mine

open ByteMem

/-! ## `compress_mine` -/

/-- `MAXRUNLENGTH` -/
def maxRunLength : Nat := 16 * 256 * 256 * 256

/-- `MAXVARLENGTH` -/
def maxVarLength : Nat := 127

/-- `comp`, `len` and `vlen` -/
structure Piece where
  comp : Bool
  len : Nat
  vlen : Nat
  deriving DecidableEq

/-- The loop that looks for more matches: how often the first `vlen` bytes are repeated. -/
def moreMatches (input : Bytes) (vlen : Nat) : Nat → Nat → Nat
  | 0, len => len
  | fuel + 1, len =>
    if len * vlen + vlen < input.length ∧ len < maxRunLength ∧
        (input.drop (len * vlen)).take vlen = input.take vlen then
      moreMatches input vlen fuel (len + 1)
    else len

/-- `(double)vlen / (double)len <= OPTIMAL`, one in ten thousand -/
def isOptimal (vlen len : Nat) : Bool := 10000 * vlen ≤ len

/-- `best_match` with its entry in `matches` is replaced if there is none or its ratio is larger.  The
numbers are so small that doubles and fractions compare alike. -/
def betterMatch (best : Option (Nat × Nat)) (vlen len : Nat) : Option (Nat × Nat) :=
  match best with
  | none => some (vlen, len)
  | some (bestMatch, matched) =>
    if vlen * matched < bestMatch * len then some (vlen, len) else some (bestMatch, matched)

/-- The loop over `vlen`: the width of the pattern to take and how often it is repeated. -/
def findMatch (input : Bytes) : Nat → Nat → Option (Nat × Nat) → Option (Nat × Nat)
  | 0, _, best => best
  | fuel + 1, vlen, best =>
    if vlen * 2 < input.length ∧ vlen ≤ maxVarLength then
      if (input.drop vlen).take vlen = input.take vlen then
        let len := moreMatches input vlen input.length 2
        if isOptimal vlen len then some (vlen, len) else findMatch input fuel (vlen + 1) (betterMatch best vlen len)
      else findMatch input fuel (vlen + 1) best
    else best

/-- The byte behind `len` others is one of them. -/
def isRepeated (input : Bytes) (len : Nat) : Bool :=
  if len = 1 then input.headD 0 == input.getD len 0 else (input.take len).contains (input.getD len 0)

/-- The loop for literal bytes. -/
def literalLength (input : Bytes) : Nat → Nat → Nat
  | 0, len => len
  | fuel + 1, len =>
    if len < input.length ∧ len < maxVarLength ∧ len < maxRunLength then
      if isRepeated input len then len else literalLength input fuel (len + 1)
    else len

/-- What is taken from the bytes that are left. -/
def choosePiece (input : Bytes) : Piece :=
  match findMatch input maxVarLength 1 none with
  | some (vlen, len) => if 1 < len then ⟨true, len, vlen⟩ else ⟨false, literalLength input input.length 1, 1⟩
  | none => ⟨false, literalLength input input.length 1, 1⟩

/-- `out[ l ] |= 64` and `out[ l ] |= 128` -/
def headByte (first : Nat) (p : Piece) : UInt8 :=
  (first.toUInt8 ||| if p.vlen > 1 then 64 else 0) ||| if p.comp then 128 else 0

/-- The head of a piece. -/
def Piece.head (p : Piece) : Bytes :=
  (if p.len > 4095 then
    [headByte (32 + (p.len >>> 24 &&& 15)) p, (p.len >>> 16 &&& 0xffff).toUInt8, (p.len >>> 8 &&& 0xffff).toUInt8,
      (p.len &&& 0xffff).toUInt8]
  else if p.len > 15 then [headByte (16 + (p.len >>> 8 &&& 15)) p, (p.len &&& 0xff).toUInt8]
  else [headByte (p.len &&& 15) p]) ++
    if p.vlen > 1 then [(p.vlen &&& 127).toUInt8] else []

/-- The bytes of a piece: the pattern, or as many bytes as there are. -/
def Piece.body (p : Piece) (input : Bytes) : Bytes := if p.comp then input.take p.vlen else input.take p.len

def compressLoop : Nat → Bytes → Bytes
  | 0, _ => []
  | fuel + 1, input =>
    if 0 < input.length then
      let p := choosePiece input
      p.head ++ p.body input ++ compressLoop fuel (input.drop (p.len * p.vlen))
    else []

/-- `compress_mine`; a piece has a byte at least. -/
def compressMine (input : Bytes) : Bytes := compressLoop input.length input

/-! ## `expand_mine` -/

/-- The length of a run, behind its first byte. -/
def readLen (c : UInt8) (input : Bytes) : Option (Nat × Bytes) :=
  if c &&& 32 ≠ 0 then
    match input with
    | b1 :: b2 :: b3 :: input =>
      some (((((c &&& 31).toNat <<< 8 + b1.toNat) <<< 8 + b2.toNat) <<< 8) + b3.toNat, input)
    | _ => none
  else if c &&& 16 ≠ 0 then
    match input with
    | b1 :: input => some ((c &&& 15).toNat <<< 8 + b1.toNat, input)
    | _ => none
  else some ((c &&& 15).toNat, input)

def readVlen (c : UInt8) (input : Bytes) : Option (Nat × Bytes) :=
  if c &&& 64 ≠ 0 then
    match input with
    | b :: input => some (b.toNat, input)
    | _ => none
  else some (1, input)

/-- The bytes that a piece is written out to, and what is left of the input.  Literal bytes with a
width leave bytes of the output as they were, and count as no result like a read behind the end. -/
def readBody (c : UInt8) (len vlen : Nat) (input : Bytes) : Option (Bytes × Bytes) :=
  if c &&& 128 ≠ 0 then
    if vlen > 1 then
      if vlen ≤ input.length then some ((List.replicate len (input.take vlen)).flatten, input.drop vlen) else none
    else
      match input with
      | b :: rest => some (List.replicate (len * vlen) b, (b :: rest).drop vlen)
      | [] => none
  else if len ≤ input.length ∧ vlen = 1 then some (input.take len, input.drop len)
  else none

/-- A pass of the loop: `none` for no result, `some none` where the loop is left. -/
def expandPiece (c : UInt8) (input : Bytes) : Option (Option (Bytes × Bytes)) :=
  if c = 0 then some none
  else
    match readLen c input with
    | none => none
    | some (len, input) =>
      match readVlen c input with
      | none => none
      | some (vlen, input) => if len = 0 then some none else (readBody c len vlen input).map some

def expandLoop : Nat → Bytes → Option Bytes
  | _, [] => some []
  | 0, _ :: _ => none
  | fuel + 1, c :: input =>
    match expandPiece c input with
    | none => none
    | some none => some []
    | some (some (written, input)) => (expandLoop fuel input).map (written ++ ·)

/-- `expand_mine` -/
def expandMine (input : Bytes) : Option Bytes := expandLoop input.length input

/-! ## What is taken -/

/-- The first `vlen` bytes come `len` times. -/
structure Repeats (input : Bytes) (vlen len : Nat) : Prop where
  inside : len * vlen ≤ input.length
  same : ∀ k < len, (input.drop (k * vlen)).take vlen = input.take vlen

theorem Repeats.take_eq {input : Bytes} {vlen len : Nat} (h : Repeats input vlen len) :
    input.take (len * vlen) = (List.replicate len (input.take vlen)).flatten := by
  have hle : ∀ k ≤ len, input.take (k * vlen) = (List.replicate k (input.take vlen)).flatten := by
    intro k hk
    induction k with
    | zero => simp
    | succ k ih =>
      rw [Nat.succ_mul, List.take_add, ih (by omega), h.same k hk, List.replicate_succ', List.flatten_append]
      simp
  exact hle len le_rfl

theorem moreMatches_repeats {input : Bytes} {vlen : Nat} (fuel : Nat) {len : Nat} (h : Repeats input vlen len) :
    Repeats input vlen (moreMatches input vlen fuel len) ∧ len ≤ moreMatches input vlen fuel len := by
  induction fuel generalizing len with
  | zero => exact ⟨h, le_rfl⟩
  | succ fuel ih =>
    rw [moreMatches]
    split
    · next hmore =>
      have hnext : Repeats input vlen (len + 1) := by
        refine ⟨?_, fun k hk => ?_⟩
        · rw [Nat.succ_mul]
          omega
        · rcases Nat.lt_succ_iff_lt_or_eq.1 hk with hk | rfl
          · exact h.same k hk
          · exact hmore.2.2
      obtain ⟨hfits, hle⟩ := ih hnext
      exact ⟨hfits, by omega⟩
    · exact ⟨h, le_rfl⟩

/-- A match that may be taken. -/
structure Match (input : Bytes) (vlen len : Nat) : Prop where
  vlen_pos : 1 ≤ vlen
  vlen_le : vlen ≤ maxVarLength
  repeated : Repeats input vlen len

theorem findMatch_match {input : Bytes} (fuel : Nat) {vlen : Nat} {best : Option (Nat × Nat)} (hpos : 1 ≤ vlen)
    (hbest : ∀ m ∈ best, Match input m.1 m.2) : ∀ m ∈ findMatch input fuel vlen best, Match input m.1 m.2 := by
  induction fuel generalizing vlen best with
  | zero => exact hbest
  | succ fuel ih =>
    rw [findMatch]
    split
    · next hroom =>
      split
      · next hsame =>
        have htwo : Repeats input vlen 2 := by
          refine ⟨by omega, fun k hk => ?_⟩
          rcases (by omega : k = 0 ∨ k = 1) with rfl | rfl
          · simp
          · rwa [Nat.one_mul]
        have hfound : Match input vlen (moreMatches input vlen input.length 2) :=
          ⟨hpos, hroom.2, (moreMatches_repeats input.length htwo).1⟩
        simp only
        split
        · intro m hm
          cases hm
          exact hfound
        · refine ih (Nat.le_succ_of_le hpos) fun m hm => ?_
          unfold betterMatch at hm
          split at hm
          · cases hm
            exact hfound
          · split at hm
            · cases hm
              exact hfound
            · exact hbest m hm
      · exact ih (Nat.le_succ_of_le hpos) hbest
    · exact hbest

theorem literalLength_bounds {input : Bytes} (fuel : Nat) {len : Nat} (h1 : len ≤ input.length)
    (h2 : len ≤ maxVarLength) : len ≤ literalLength input fuel len ∧ literalLength input fuel len ≤ input.length ∧
      literalLength input fuel len ≤ maxVarLength := by
  induction fuel generalizing len with
  | zero => exact ⟨le_rfl, h1, h2⟩
  | succ fuel ih =>
    rw [literalLength]
    split
    · next hmore =>
      split
      · exact ⟨le_rfl, h1, h2⟩
      · obtain ⟨h3, h4, h5⟩ := @ih (len + 1) hmore.1 hmore.2.1
        exact ⟨by omega, h4, h5⟩
    · exact ⟨le_rfl, h1, h2⟩

/-- A piece that the head has room for and that is the start of the input. -/
structure Piece.Fits (p : Piece) (input : Bytes) : Prop where
  len_pos : 1 ≤ p.len
  len_lt : p.len < 2 ^ 28
  vlen_pos : 1 ≤ p.vlen
  vlen_le : p.vlen ≤ 127
  inside : p.len * p.vlen ≤ input.length
  repeated : p.comp = true → input.take (p.len * p.vlen) = (List.replicate p.len (input.take p.vlen)).flatten
  literal : p.comp = false → p.vlen = 1

theorem literal_fits {input : Bytes} (hpos : 0 < input.length) (hlt : input.length < 2 ^ 28) :
    Piece.Fits ⟨false, literalLength input input.length 1, 1⟩ input := by
  obtain ⟨h1, h2, h3⟩ := @literalLength_bounds input input.length 1 hpos (by decide)
  refine ⟨h1, ?_, le_rfl, (show 1 ≤ 127 by decide), ?_, fun h => (by cases h), fun _ => rfl⟩
  · exact h2.trans_lt hlt
  · rw [Nat.mul_one]
    exact h2

theorem choosePiece_fits {input : Bytes} (hpos : 0 < input.length) (hlt : input.length < 2 ^ 28) :
    (choosePiece input).Fits input := by
  have hfound := @findMatch_match input maxVarLength 1 none le_rfl (fun m hm => (by cases hm))
  unfold choosePiece
  split
  · next vlen len hm =>
    obtain ⟨h1, h2, h3⟩ := hfound _ hm
    split
    · next hlen =>
      have hle : len ≤ len * vlen := Nat.le_mul_of_pos_right _ h1
      exact ⟨hlen.le, (hle.trans h3.inside).trans_lt hlt, h1, h2, h3.inside, fun _ => h3.take_eq, fun h => (by cases h)⟩
    · exact literal_fits hpos hlt
  · exact literal_fits hpos hlt

/-! ## Reading a piece -/

theorem headByte_eq (first : Nat) (p : Piece) :
    headByte first p = (first.toUInt8 ||| if decide (p.vlen > 1) then 64 else 0) ||| if p.comp then 128 else 0 := by
  unfold headByte
  simp only [decide_eq_true_eq]

/-- The bits of a first byte. -/
theorem headByte_bits {first : Nat} (hfirst : first < 64) (p : Piece) :
    (headByte first p &&& 128 ≠ 0 ↔ p.comp = true) ∧ (headByte first p &&& 64 ≠ 0 ↔ p.vlen > 1) ∧
      (headByte first p &&& 32 ≠ 0 ↔ 32 ≤ first) ∧ (headByte first p &&& 16 ≠ 0 ↔ 16 ≤ first % 32) ∧
      (headByte first p &&& 31).toNat = first % 32 ∧ (headByte first p &&& 15).toNat = first % 16 ∧
      (0 < first → headByte first p ≠ 0) := by
  have h : ∀ first < 64, ∀ var comp : Bool,
      let c : UInt8 := (first.toUInt8 ||| if var then 64 else 0) ||| if comp then 128 else 0
      (c &&& 128 ≠ 0 ↔ comp = true) ∧ (c &&& 64 ≠ 0 ↔ var = true) ∧ (c &&& 32 ≠ 0 ↔ 32 ≤ first) ∧
        (c &&& 16 ≠ 0 ↔ 16 ≤ first % 32) ∧ (c &&& 31).toNat = first % 32 ∧ (c &&& 15).toNat = first % 16 ∧
        (0 < first → c ≠ 0) := by
    decide
  have hp := h first hfirst (decide (p.vlen > 1)) p.comp
  rw [headByte_eq]
  simpa only [decide_eq_true_eq] using hp

theorem and_15 (n : Nat) : n &&& 15 = n % 16 := Nat.and_two_pow_sub_one_eq_mod n 4

theorem and_127 (n : Nat) : n &&& 127 = n % 128 := Nat.and_two_pow_sub_one_eq_mod n 7

theorem and_255 (n : Nat) : n &&& 0xff = n % 256 := Nat.and_two_pow_sub_one_eq_mod n 8

theorem and_65535 (n : Nat) : n &&& 0xffff = n % 65536 := Nat.and_two_pow_sub_one_eq_mod n 16

theorem readVlen_eq {c : UInt8} {p : Piece} (hc : c &&& 64 ≠ 0 ↔ p.vlen > 1) (h1 : 1 ≤ p.vlen) (h2 : p.vlen ≤ 127)
    (tail : Bytes) :
    readVlen c ((if p.vlen > 1 then [(p.vlen &&& 127).toUInt8] else []) ++ tail) = some (p.vlen, tail) := by
  unfold readVlen
  by_cases hwide : p.vlen > 1
  · have hnat : (p.vlen &&& 127).toUInt8.toNat = p.vlen := by
      rw [toNat_toUInt8, and_127]
      omega
    rw [if_pos (hc.2 hwide), if_pos hwide, List.singleton_append]
    simp only [hnat]
  · have hone : p.vlen = 1 := by omega
    rw [if_neg fun h => hwide (hc.1 h), if_neg hwide, hone, List.nil_append]

/-- The head is a first byte, the rest of the length and the width of the pattern. -/
theorem exists_head (p : Piece) (h1 : 1 ≤ p.len) (h2 : p.len < 2 ^ 28) :
    ∃ first lenBytes, 0 < first ∧ first < 64 ∧
      p.head = headByte first p :: (lenBytes ++ if p.vlen > 1 then [(p.vlen &&& 127).toUInt8] else []) ∧
      ∀ tail, readLen (headByte first p) (lenBytes ++ tail) = some (p.len, tail) := by
  unfold Piece.head
  by_cases hlong : p.len > 4095
  · have hhigh : p.len >>> 24 &&& 15 = p.len / 2 ^ 24 := by
      rw [and_15, Nat.shiftRight_eq_div_pow]
      omega
    rw [hhigh]
    generalize hf : 32 + p.len / 2 ^ 24 = first
    obtain ⟨-, -, h32, -, h31, -⟩ := headByte_bits (show first < 64 by omega) p
    refine ⟨first, _, by omega, by omega, by rw [if_pos hlong]; rfl, fun tail => ?_⟩
    simp only [readLen, List.cons_append, List.nil_append]
    rw [if_pos (h32.2 (by omega)), h31]
    simp only [toNat_toUInt8, and_65535, Nat.shiftRight_eq_div_pow, Nat.shiftLeft_eq, Nat.reducePow]
    refine congrArg some (Prod.ext ?_ rfl)
    simp only
    omega
  by_cases hmiddle : p.len > 15
  · have hhigh : p.len >>> 8 &&& 15 = p.len / 2 ^ 8 := by
      rw [and_15, Nat.shiftRight_eq_div_pow]
      omega
    rw [hhigh]
    generalize hf : 16 + p.len / 2 ^ 8 = first
    obtain ⟨-, -, h32, h16, -, h15, -⟩ := headByte_bits (show first < 64 by omega) p
    refine ⟨first, _, by omega, by omega, by rw [if_neg hlong, if_pos hmiddle]; rfl, fun tail => ?_⟩
    simp only [readLen, List.cons_append, List.nil_append]
    rw [if_neg fun h => absurd (h32.1 h) (by omega), if_pos (h16.2 (by omega)), h15]
    simp only [toNat_toUInt8, and_255, Nat.shiftLeft_eq, Nat.reducePow]
    refine congrArg some (Prod.ext ?_ rfl)
    simp only
    omega
  · have hlow : p.len &&& 15 = p.len := by
      rw [and_15]
      omega
    rw [hlow]
    obtain ⟨-, -, h32, h16, -, h15, -⟩ := headByte_bits (show p.len < 64 by omega) p
    refine ⟨p.len, [], by omega, by omega, by rw [if_neg hlong, if_neg hmiddle]; rfl, fun tail => ?_⟩
    simp only [readLen, List.nil_append]
    rw [if_neg fun h => absurd (h32.1 h) (by omega), if_neg fun h => absurd (h16.1 h) (by omega), h15]
    refine congrArg some (Prod.ext ?_ rfl)
    simp only
    omega

theorem readBody_eq {c : UInt8} {p : Piece} {input : Bytes} (hc : c &&& 128 ≠ 0 ↔ p.comp = true) (h : p.Fits input)
    (tail : Bytes) :
    readBody c p.len p.vlen (p.body input ++ tail) = some (input.take (p.len * p.vlen), tail) := by
  have hlen := h.len_pos
  have hvlen : p.vlen ≤ input.length := (Nat.le_mul_of_pos_left p.vlen hlen).trans h.inside
  unfold readBody Piece.body
  cases hcomp : p.comp with
  | true =>
    have htake : (input.take p.vlen).length = p.vlen := List.length_take_of_le hvlen
    rw [if_pos (hc.2 hcomp), h.repeated hcomp]
    simp only [if_true]
    by_cases hwide : p.vlen > 1
    · rw [if_pos hwide, if_pos (by rw [List.length_append, htake]; omega), List.take_left' htake, List.drop_left' htake]
    · have hone : p.vlen = 1 := le_antisymm (not_lt.1 hwide) h.vlen_pos
      obtain ⟨b, rest, hb⟩ := List.exists_cons_of_length_pos (show 0 < input.length by omega)
      rw [if_neg hwide, hone, hb]
      simp [List.flatten_replicate_singleton]
  | false =>
    have hone := h.literal hcomp
    have hinside := h.inside
    rw [hone, Nat.mul_one] at hinside
    have htake : (input.take p.len).length = p.len := List.length_take_of_le hinside
    rw [if_neg fun h => by rw [hc.1 h] at hcomp; cases hcomp]
    simp only [Bool.false_eq_true, if_false]
    rw [if_pos ⟨by rw [List.length_append, htake]; omega, hone⟩, List.take_left' htake, List.drop_left' htake, hone,
      Nat.mul_one]

/-- A piece that fits is read back. -/
theorem expandPiece_write {p : Piece} {input : Bytes} (h : p.Fits input) (tail : Bytes) :
    ∃ c rest, p.head ++ p.body input ++ tail = c :: rest ∧
      expandPiece c rest = some (some (input.take (p.len * p.vlen), tail)) := by
  obtain ⟨first, lenBytes, hpos, hlt, hhead, hlen⟩ := exists_head p h.len_pos h.len_lt
  obtain ⟨h128, h64, -, -, -, -, hne⟩ := headByte_bits hlt p
  refine ⟨headByte first p, lenBytes ++ ((if p.vlen > 1 then [(p.vlen &&& 127).toUInt8] else []) ++
    (p.body input ++ tail)), by rw [hhead]; simp only [List.cons_append, List.append_assoc], ?_⟩
  unfold expandPiece
  rw [if_neg (hne hpos), hlen]
  simp only [readVlen_eq h64 h.vlen_pos h.vlen_le]
  rw [if_neg (Nat.one_le_iff_ne_zero.1 h.len_pos), readBody_eq h128 h]
  rfl

/-! ## The round trip -/

theorem expandLoop_compressLoop (fuel : Nat) {input : Bytes} (hfuel : input.length ≤ fuel) (hlt : input.length < 2 ^ 28)
    {fuel' : Nat} (hfuel' : (compressLoop fuel input).length ≤ fuel') :
    expandLoop fuel' (compressLoop fuel input) = some input := by
  induction fuel generalizing input fuel' with
  | zero =>
    rw [List.eq_nil_of_length_eq_zero (Nat.le_zero.1 hfuel)]
    cases fuel' <;> rfl
  | succ fuel ih =>
    rw [compressLoop] at hfuel' ⊢
    by_cases hpos : 0 < input.length
    · have hfits := choosePiece_fits hpos hlt
      have hsome : 0 < (choosePiece input).len * (choosePiece input).vlen := Nat.mul_pos hfits.len_pos hfits.vlen_pos
      rw [if_pos hpos] at hfuel' ⊢
      simp only at hfuel' ⊢
      obtain ⟨c, rest, hcons, hpiece⟩ := expandPiece_write hfits
        (compressLoop fuel (input.drop ((choosePiece input).len * (choosePiece input).vlen)))
      have hrest : (compressLoop fuel (input.drop ((choosePiece input).len * (choosePiece input).vlen))).length ≤
          rest.length := by
        have hlen := congrArg List.length hcons
        obtain ⟨first, lenBytes, -, -, hhead, -⟩ := exists_head _ hfits.len_pos hfits.len_lt
        rw [hhead] at hlen
        simp only [List.length_append, List.length_cons] at hlen
        omega
      rw [hcons] at hfuel' ⊢
      obtain ⟨fuel', rfl⟩ := Nat.exists_eq_succ_of_ne_zero (show fuel' ≠ 0 by rw [List.length_cons] at hfuel'; omega)
      rw [expandLoop, hpiece]
      simp only
      rw [ih (by rw [List.length_drop]; omega) (by rw [List.length_drop]; omega)
        (hrest.trans (by rw [List.length_cons] at hfuel'; omega))]
      exact congrArg some (List.take_append_drop _ input)
    · rw [if_neg hpos, List.eq_nil_of_length_eq_zero (Nat.eq_zero_of_not_pos hpos)]
      cases fuel' <;> rfl

/-- What has been compressed is expanded to the same bytes. -/
theorem expandMine_compressMine (x : Bytes) (h : x.length < 2 ^ 28) :
    ∃ y, expandMine (compressMine x) = some y ∧ y.length = x.length ∧ y = x :=
  ⟨x, expandLoop_compressLoop x.length le_rfl h le_rfl, rfl, rfl⟩

/-- A pattern of two bytes three times, and a byte behind it. -/
theorem expandMine_compressMine_pattern :
    ∃ y, expandMine (compressMine [1, 2, 1, 2, 1, 2, 7]) = some y ∧ y.length = 7 ∧ y = [1, 2, 1, 2, 1, 2, 7] :=
  expandMine_compressMine [1, 2, 1, 2, 1, 2, 7] (by decide)

end RdfStore.Mine
