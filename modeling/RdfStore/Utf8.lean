import RdfStore.Text
import Mathlib.Data.Nat.Bitwise

/-!
# Code points and their bytes (`rdfstore_utf8.c`)

A character of more than one byte is a lead byte, with a mark that says how many
bytes are behind it, and these bytes with six bits in each.

    rdfstoreUtf8IsUtf8 and rdfstoreUtf8Utf8ToCp read back what
      rdfstoreUtf8CpToUtf8 writes below 2^31, whatever follows      (isUtf8_cp, utf8ToCp_cp)
    no code point's bytes begin with another's                      (cpToUtf8_inj)
-/

namespace RdfStore

open ByteMem

/-! ## The functions -/

/-- A byte after the first: six bits. -/
def utf8Continuation (c shift : Nat) : UInt8 := (0x80 ||| (c >>> shift &&& 0x3f)).toUInt8

/-- `rdfstore_utf8_cp_to_utf8` -/
def rdfstoreUtf8CpToUtf8 (c : Nat) : Bytes :=
  if c < 0x80 then [c.toUInt8]
  else if c < 0x800 then [(0xc0 ||| c >>> 6).toUInt8, utf8Continuation c 0]
  else if c < 0x10000 then [(0xe0 ||| c >>> 12).toUInt8, utf8Continuation c 6, utf8Continuation c 0]
  else if c < 0x200000 then
    [(0xf0 ||| c >>> 18).toUInt8, utf8Continuation c 12, utf8Continuation c 6, utf8Continuation c 0]
  else if c < 0x4000000 then
    [(0xf8 ||| c >>> 24).toUInt8, utf8Continuation c 18, utf8Continuation c 12, utf8Continuation c 6,
      utf8Continuation c 0]
  else if c < 0x80000000 then
    [(0xfc ||| c >>> 30).toUInt8, utf8Continuation c 24, utf8Continuation c 18, utf8Continuation c 12,
      utf8Continuation c 6, utf8Continuation c 0]
  else
    [0xfe, utf8Continuation c 30, utf8Continuation c 24, utf8Continuation c 18, utf8Continuation c 12,
      utf8Continuation c 6, utf8Continuation c 0]

/-- `rdfstore_utf8_mask` -/
def utf8Mask : Nat → UInt8
  | 1 => 0x7f
  | 2 => 0x1f
  | 3 => 0x0f
  | 4 => 0x07
  | 5 => 0x03
  | 6 => 0x01
  | _ => 0

/-- The loop of `rdfstore_utf8_utf8_to_cp` over the bytes after the first. -/
def utf8ToCpLoop : Nat → Bytes → Nat → Option Nat
  | 0, _, cp => some cp
  | n + 1, bytes, cp =>
    if bytes.headD 0 &&& 0xc0 ≠ 0x80 then none
    else utf8ToCpLoop n bytes.tail (cp <<< 6 ||| (bytes.headD 0 &&& 0x3f).toNat)

/-- `rdfstore_utf8_utf8_to_cp` -/
def rdfstoreUtf8Utf8ToCp (inlen : Nat) (inbuff : Bytes) : Option Nat :=
  if inlen = 0 then none
  else utf8ToCpLoop (inlen - 1) inbuff.tail (inbuff.headD 0 &&& utf8Mask inlen).toNat

/-- A text in UTF-8. -/
def utf8 (text : List Char) : Bytes := text.flatMap fun c => rdfstoreUtf8CpToUtf8 c.toNat

@[simp] theorem utf8_nil : utf8 [] = [] := rfl

@[simp] theorem utf8_cons (c : Char) (text : List Char) :
    utf8 (c :: text) = rdfstoreUtf8CpToUtf8 c.toNat ++ utf8 text := rfl

theorem utf8_append (l r : List Char) : utf8 (l ++ r) = utf8 l ++ utf8 r := List.flatMap_append

/-! ## Bytes as numbers -/

theorem utf8Continuation_eq (c shift : Nat) :
    utf8Continuation c shift = (0x80 + c / 2 ^ shift % 64).toUInt8 := by
  have hmod : c >>> shift &&& 0x3f = c / 2 ^ shift % 64 := by
    rw [Nat.shiftRight_eq_div_pow]
    exact Nat.and_two_pow_sub_one_eq_mod _ 6
  have hlt : c / 2 ^ shift % 64 < 2 ^ 6 := Nat.mod_lt _ (by decide)
  unfold utf8Continuation
  rw [hmod, ← Nat.two_pow_add_eq_or_of_lt hlt 2]

/-- A mark and bits that it leaves free. -/
theorem or_eq_add_of_dvd {bits mark x : Nat} (hmark : 2 ^ bits ∣ mark) (hx : x < 2 ^ bits) :
    mark ||| x = mark + x := by
  obtain ⟨k, rfl⟩ := hmark
  exact (Nat.two_pow_add_eq_or_of_lt hx k).symm

theorem cpToUtf8_one {c : Nat} (h : c < 0x80) : rdfstoreUtf8CpToUtf8 c = [c.toUInt8] := if_pos h

/-- The code points with `k` bytes behind the lead byte. -/
inductive Utf8Width : Nat → Nat → Prop
  | two {c : Nat} : 0x80 ≤ c → c < 0x800 → Utf8Width 1 c
  | three {c : Nat} : 0x800 ≤ c → c < 0x10000 → Utf8Width 2 c
  | four {c : Nat} : 0x10000 ≤ c → c < 0x200000 → Utf8Width 3 c
  | five {c : Nat} : 0x200000 ≤ c → c < 0x4000000 → Utf8Width 4 c
  | six {c : Nat} : 0x4000000 ≤ c → c < 0x80000000 → Utf8Width 5 c

/-- The mark of a lead byte in front of `k` others. -/
def utf8Mark : Nat → Nat
  | 1 => 0xc0
  | 2 => 0xe0
  | 3 => 0xf0
  | 4 => 0xf8
  | _ => 0xfc

/-- The last `k` bytes of a code point. -/
def utf8Continuations : Nat → Nat → Bytes
  | 0, _ => []
  | k + 1, c => (0x80 + c / 64 ^ k % 64).toUInt8 :: utf8Continuations k c

/-- A lead byte in front of `k` others, and these. -/
def utf8Sequence (k c : Nat) : Bytes := (utf8Mark k + c / 64 ^ k).toUInt8 :: utf8Continuations k c

@[simp] theorem length_utf8Continuations (k c : Nat) : (utf8Continuations k c).length = k := by
  induction k with
  | zero => rfl
  | succ k ih => rw [utf8Continuations, List.length_cons, ih]

theorem exists_utf8Width {c : Nat} (h1 : 0x80 ≤ c) (h2 : c < 0x80000000) : ∃ k, Utf8Width k c := by
  rcases Nat.lt_or_ge c 0x800 with h | h
  · exact ⟨1, .two h1 h⟩
  rcases Nat.lt_or_ge c 0x10000 with h' | h'
  · exact ⟨2, .three h h'⟩
  rcases Nat.lt_or_ge c 0x200000 with h | h
  · exact ⟨3, .four h' h⟩
  rcases Nat.lt_or_ge c 0x4000000 with h' | h'
  · exact ⟨4, .five h h'⟩
  · exact ⟨5, .six h' h2⟩

namespace Utf8Width

variable {k c : Nat}

theorem mem_range (h : Utf8Width k c) : 1 ≤ k ∧ k ≤ 5 := by
  cases h <;> decide

theorem ge (h : Utf8Width k c) : 0x80 ≤ c := by
  cases h <;> omega

theorem lt (h : Utf8Width k c) : c < 0x80000000 := by
  cases h <;> omega

/-- Between two code points of one width are those of the same width. -/
theorem between {lo hi : Nat} (hlo : Utf8Width k lo) (hhi : Utf8Width k hi) (h1 : lo ≤ c) (h2 : c ≤ hi) :
    Utf8Width k c := by
  cases hlo with
  | two hl _ => cases hhi with | two _ hh => exact .two (hl.trans h1) (h2.trans_lt hh)
  | three hl _ => cases hhi with | three _ hh => exact .three (hl.trans h1) (h2.trans_lt hh)
  | four hl _ => cases hhi with | four _ hh => exact .four (hl.trans h1) (h2.trans_lt hh)
  | five hl _ => cases hhi with | five _ hh => exact .five (hl.trans h1) (h2.trans_lt hh)
  | six hl _ => cases hhi with | six _ hh => exact .six (hl.trans h1) (h2.trans_lt hh)

theorem length_eq (h : Utf8Width k c) : utf8Length c = k + 1 := by
  unfold utf8Length
  cases h with
  | two h1 h2 => rw [if_neg (by omega), if_pos h2]
  | three h1 h2 => rw [if_neg (by omega), if_neg (by omega), if_pos h2]
  | four h1 h2 => rw [if_neg (by omega), if_neg (by omega), if_neg (by omega), if_pos h2]
  | five h1 h2 => rw [if_neg (by omega), if_neg (by omega), if_neg (by omega), if_neg (by omega), if_pos h2]
  | six h1 h2 =>
    rw [if_neg (by omega), if_neg (by omega), if_neg (by omega), if_neg (by omega), if_neg (by omega), if_pos h2]

/-- What the lead byte has room for. -/
theorem leadBits (h : Utf8Width k c) : c / 64 ^ k < 2 ^ (6 - k) := by
  cases h with
  | two h1 h2 => exact Nat.div_lt_of_lt_mul h2
  | three h1 h2 => exact Nat.div_lt_of_lt_mul h2
  | four h1 h2 => exact Nat.div_lt_of_lt_mul h2
  | five h1 h2 => exact Nat.div_lt_of_lt_mul h2
  | six h1 h2 => exact Nat.div_lt_of_lt_mul h2

theorem cpToUtf8 (h : Utf8Width k c) : rdfstoreUtf8CpToUtf8 c = utf8Sequence k c := by
  have hbits := h.leadBits
  unfold rdfstoreUtf8CpToUtf8 utf8Sequence
  cases h with
  | two h1 h2 =>
    have hlead : 0xc0 ||| c / 64 = 0xc0 + c / 64 := @or_eq_add_of_dvd 6 _ _ (by decide) (by omega)
    rw [if_neg (by omega), if_pos h2]
    simp only [utf8Continuations, utf8Mark, utf8Continuation_eq, Nat.shiftRight_eq_div_pow, Nat.reducePow,
      Nat.div_one, hlead]
  | three h1 h2 =>
    have hlead : 0xe0 ||| c / 4096 = 0xe0 + c / 4096 := @or_eq_add_of_dvd 5 _ _ (by decide) (by omega)
    rw [if_neg (by omega), if_neg (by omega), if_pos h2]
    simp only [utf8Continuations, utf8Mark, utf8Continuation_eq, Nat.shiftRight_eq_div_pow, Nat.reducePow,
      Nat.div_one, hlead]
  | four h1 h2 =>
    have hlead : 0xf0 ||| c / 262144 = 0xf0 + c / 262144 := @or_eq_add_of_dvd 4 _ _ (by decide) (by omega)
    rw [if_neg (by omega), if_neg (by omega), if_neg (by omega), if_pos h2]
    simp only [utf8Continuations, utf8Mark, utf8Continuation_eq, Nat.shiftRight_eq_div_pow, Nat.reducePow,
      Nat.div_one, hlead]
  | five h1 h2 =>
    have hlead : 0xf8 ||| c / 16777216 = 0xf8 + c / 16777216 :=
      @or_eq_add_of_dvd 3 _ _ (by decide) (by omega)
    rw [if_neg (by omega), if_neg (by omega), if_neg (by omega), if_neg (by omega), if_pos h2]
    simp only [utf8Continuations, utf8Mark, utf8Continuation_eq, Nat.shiftRight_eq_div_pow, Nat.reducePow,
      Nat.div_one, hlead]
  | six h1 h2 =>
    have hlead : 0xfc ||| c / 1073741824 = 0xfc + c / 1073741824 :=
      @or_eq_add_of_dvd 2 _ _ (by decide) (by omega)
    rw [if_neg (by omega), if_neg (by omega), if_neg (by omega), if_neg (by omega), if_neg (by omega), if_pos h2]
    simp only [utf8Continuations, utf8Mark, utf8Continuation_eq, Nat.shiftRight_eq_div_pow, Nat.reducePow,
      Nat.div_one, hlead]

end Utf8Width

/-! ## Reading back -/

theorem continuation_facts : ∀ x < 64, isContinuation (0x80 + x).toUInt8 = true ∧
    (0x80 + x).toUInt8 &&& 0xc0 = 0x80 ∧ ((0x80 + x).toUInt8 &&& 0x3f).toNat = x := by
  decide

/-- What a lead byte says: the length of the character and its first bits. -/
structure Utf8Lead (a : UInt8) (len bits : Nat) : Prop where
  notAscii : ¬ a < 0x80
  lo : 0xc0 ≤ a
  hi : a ≤ 0xfd
  skip : utf8ToSkip a = len
  shifted : (a &&& (0x1F >>> (len - 2).toUInt8)).toNat = bits
  masked : (a &&& utf8Mask len).toNat = bits

instance (a : UInt8) (len bits : Nat) : Decidable (Utf8Lead a len bits) :=
  decidable_of_iff (¬ a < 0x80 ∧ 0xc0 ≤ a ∧ a ≤ 0xfd ∧ utf8ToSkip a = len ∧
      (a &&& (0x1F >>> (len - 2).toUInt8)).toNat = bits ∧ (a &&& utf8Mask len).toNat = bits)
    ⟨fun ⟨h1, h2, h3, h4, h5, h6⟩ => ⟨h1, h2, h3, h4, h5, h6⟩,
      fun ⟨h1, h2, h3, h4, h5, h6⟩ => ⟨h1, h2, h3, h4, h5, h6⟩⟩

theorem utf8Lead_mark {k x : Nat} (h1 : 1 ≤ k) (h2 : k ≤ 5) (hx : x < 2 ^ (6 - k)) :
    Utf8Lead (utf8Mark k + x).toUInt8 (k + 1) x := by
  have h : ∀ k ≤ 5, 1 ≤ k → ∀ x < 2 ^ (6 - k), Utf8Lead (utf8Mark k + x).toUInt8 (k + 1) x := by decide
  exact h k h2 h1 x hx

theorem shift_or {b x : Nat} (hx : x < 64) : b <<< 6 ||| x = 64 * b + x := by
  rw [← Nat.shiftLeft_add_eq_or_of_lt hx, Nat.shiftLeft_eq, Nat.mul_comm]

theorem utf8Tail_cont {ll b x : Nat} (hx : x < 64) (rest : Bytes) :
    utf8Tail (ll + 1) ((0x80 + x).toUInt8 :: rest) b = utf8Tail ll rest (64 * b + x) := by
  obtain ⟨hcont, -, hbits⟩ := continuation_facts x hx
  have hnat : ((0x80 + x).toUInt8 &&& 0x3f).toNat = x := hbits
  have hgrows : ¬ 64 * b + x < b := by omega
  rw [utf8Tail]
  simp only [List.headD_cons, List.tail_cons, hcont, hnat, shift_or hx, hgrows, Bool.not_true,
    Bool.false_eq_true, if_false]

theorem utf8ToCpLoop_cont {n cp x : Nat} (hx : x < 64) (rest : Bytes) :
    utf8ToCpLoop (n + 1) ((0x80 + x).toUInt8 :: rest) cp = utf8ToCpLoop n rest (64 * cp + x) := by
  obtain ⟨-, hmark, hbits⟩ := continuation_facts x hx
  rw [utf8ToCpLoop]
  simp only [List.headD_cons, List.tail_cons, hmark, hbits, shift_or hx, ne_eq, not_true_eq_false, if_false]

/-- The bits in front of the last `k` bytes, and those of the next byte. -/
theorem bits_succ (c k : Nat) : 64 * (c / 64 ^ (k + 1)) + c / 64 ^ k % 64 = c / 64 ^ k := by
  rw [Nat.pow_succ, ← Nat.div_div_eq_div_mul]
  exact Nat.div_add_mod _ 64

theorem utf8Tail_continuations (k c : Nat) (rest : Bytes) :
    utf8Tail k (utf8Continuations k c ++ rest) (c / 64 ^ k) = some c := by
  induction k with
  | zero => rw [utf8Tail, Nat.pow_zero, Nat.div_one]
  | succ k ih =>
    rw [utf8Continuations, List.cons_append, utf8Tail_cont (Nat.mod_lt _ (by decide)), bits_succ, ih]

theorem utf8ToCpLoop_continuations (k c : Nat) (rest : Bytes) :
    utf8ToCpLoop k (utf8Continuations k c ++ rest) (c / 64 ^ k) = some c := by
  induction k with
  | zero => rw [utf8ToCpLoop, Nat.pow_zero, Nat.div_one]
  | succ k ih =>
    rw [utf8Continuations, List.cons_append, utf8ToCpLoop_cont (Nat.mod_lt _ (by decide)), bits_succ, ih]

theorem isUtf8_cons (a : UInt8) (rest : Bytes) :
    rdfstoreUtf8IsUtf8 (a :: rest) =
      if a < 0x80 then some 1
      else if !(0xc0 ≤ a && a ≤ 0xfd) then none
      else if !isContinuation (rest.headD 0) then none
      else
        match utf8Tail (utf8ToSkip a - 1) rest (a &&& (0x1F >>> (utf8ToSkip a - 2).toUInt8)).toNat with
        | none => none
        | some b => if utf8Length b < utf8ToSkip a then none else some (utf8ToSkip a) := rfl

theorem Utf8Lead.isUtf8 {a : UInt8} {len bits : Nat} {rest : Bytes} (h : Utf8Lead a len bits) (b : Nat)
    (hcont : isContinuation (rest.headD 0) = true) (htail : utf8Tail (len - 1) rest bits = some b)
    (hshort : ¬ utf8Length b < len) : rdfstoreUtf8IsUtf8 (a :: rest) = some len := by
  rw [isUtf8_cons]
  simp only [h.notAscii, h.lo, h.hi, h.skip, h.shifted, hcont, htail, hshort,
    if_false, decide_true, Bool.and_self, Bool.not_true, Bool.false_eq_true]

theorem isUtf8_ascii {a : UInt8} (ha : a < 0x80) (rest : Bytes) : rdfstoreUtf8IsUtf8 (a :: rest) = some 1 := by
  rw [isUtf8_cons, if_pos ha]

theorem toUInt8_lt {c : Nat} (h : c < 0x80) : c.toUInt8 < 0x80 := by
  rw [UInt8.lt_iff_toNat_lt]
  simpa [Nat.mod_eq_of_lt (by omega : c < 256)] using h

/-- The 31-bit code points are recognised. -/
theorem isUtf8_cp {c : Nat} (hc : c < 0x80000000) (rest : Bytes) :
    rdfstoreUtf8IsUtf8 (rdfstoreUtf8CpToUtf8 c ++ rest) = some (rdfstoreUtf8CpToUtf8 c).length := by
  rcases Nat.lt_or_ge c 0x80 with hascii | hwide
  · rw [cpToUtf8_one hascii]
    exact isUtf8_ascii (toUInt8_lt hascii) rest
  · obtain ⟨k, h⟩ := exists_utf8Width hwide hc
    obtain ⟨hlo, hhi⟩ := h.mem_range
    rw [h.cpToUtf8, utf8Sequence, List.cons_append, List.length_cons, length_utf8Continuations]
    refine (utf8Lead_mark hlo hhi h.leadBits).isUtf8 c ?_ (utf8Tail_continuations k c rest) ?_
    · obtain ⟨k, rfl⟩ := Nat.exists_eq_succ_of_ne_zero (by omega : k ≠ 0)
      exact (continuation_facts _ (Nat.mod_lt _ (by decide))).1
    · rw [h.length_eq]
      exact lt_irrefl _

theorem utf8ToCp_cp {c : Nat} (hc : c < 0x80000000) (rest : Bytes) :
    rdfstoreUtf8Utf8ToCp (rdfstoreUtf8CpToUtf8 c).length (rdfstoreUtf8CpToUtf8 c ++ rest) = some c := by
  unfold rdfstoreUtf8Utf8ToCp
  rcases Nat.lt_or_ge c 0x80 with hascii | hwide
  · have hmask : ∀ x < 128, (x.toUInt8 &&& utf8Mask 1).toNat = x := by decide
    rw [cpToUtf8_one hascii]
    simp only [List.length_cons, List.length_nil, List.cons_append, List.headD_cons, List.tail_cons]
    rw [if_neg (by omega), hmask c hascii, utf8ToCpLoop]
  · obtain ⟨k, h⟩ := exists_utf8Width hwide hc
    obtain ⟨hlo, hhi⟩ := h.mem_range
    rw [h.cpToUtf8, utf8Sequence, List.cons_append, List.length_cons, length_utf8Continuations,
      if_neg (Nat.succ_ne_zero k), List.headD_cons, List.tail_cons, (utf8Lead_mark hlo hhi h.leadBits).masked]
    exact utf8ToCpLoop_continuations k c rest

/-! ## No two code points begin alike -/

theorem length_cpToUtf8_le {c : Nat} (hc : c < 0x200000) : (rdfstoreUtf8CpToUtf8 c).length ≤ 4 := by
  unfold rdfstoreUtf8CpToUtf8
  split_ifs <;> simp

theorem cpToUtf8_ne_nil (c : Nat) : rdfstoreUtf8CpToUtf8 c ≠ [] := by
  unfold rdfstoreUtf8CpToUtf8
  split_ifs <;> simp

theorem utf8_ne_nil {text : List Char} (h : text ≠ []) : utf8 text ≠ [] := by
  obtain ⟨c, text, rfl⟩ := List.exists_cons_of_ne_nil h
  simp [cpToUtf8_ne_nil]

/-- Beyond ASCII there is a lead byte and something behind it. -/
theorem cpToUtf8_wide {c : Nat} (h1 : 0x80 ≤ c) (hc : c < 0x80000000) :
    ∃ a rest, rdfstoreUtf8CpToUtf8 c = a :: rest ∧ ¬ a < 0x80 ∧ 0 < rest.length := by
  obtain ⟨k, h⟩ := exists_utf8Width h1 hc
  obtain ⟨hlo, hhi⟩ := h.mem_range
  refine ⟨_, _, h.cpToUtf8, (utf8Lead_mark hlo hhi h.leadBits).notAscii, ?_⟩
  rw [length_utf8Continuations]
  omega

theorem utf8Continuations_eq_map (k c : Nat) :
    ∃ bytes : List Nat, utf8Continuations k c = bytes.map (·.toUInt8) ∧ ∀ b ∈ bytes, 0x80 ≤ b ∧ b < 256 := by
  induction k with
  | zero => exact ⟨[], rfl, fun _ h => (by cases h)⟩
  | succ k ih =>
    obtain ⟨bytes, hbytes, hwide⟩ := ih
    refine ⟨(0x80 + c / 64 ^ k % 64) :: bytes, by rw [utf8Continuations, hbytes, List.map_cons], ?_⟩
    exact List.forall_mem_cons.2 ⟨by omega, hwide⟩

theorem utf8Mark_add {k x : Nat} (h1 : 1 ≤ k) (h2 : k ≤ 5) (hx : x < 2 ^ (6 - k)) :
    0xc0 ≤ utf8Mark k + x ∧ utf8Mark k + x < 256 := by
  have h : ∀ k ≤ 5, 1 ≤ k → ∀ x < 2 ^ (6 - k), 0xc0 ≤ utf8Mark k + x ∧ utf8Mark k + x < 256 := by decide
  exact h k h2 h1 x hx

/-- Beyond ASCII every byte is marked. -/
theorem cpToUtf8_bytes {c : Nat} (h1 : 0x80 ≤ c) (hc : c < 0x80000000) :
    ∃ bytes : List Nat, rdfstoreUtf8CpToUtf8 c = bytes.map (·.toUInt8) ∧ ∀ b ∈ bytes, 0x80 ≤ b ∧ b < 256 := by
  obtain ⟨k, h⟩ := exists_utf8Width h1 hc
  obtain ⟨hlo, hhi⟩ := h.mem_range
  obtain ⟨bytes, hbytes, hwide⟩ := utf8Continuations_eq_map k c
  obtain ⟨hge, hlt⟩ := utf8Mark_add hlo hhi h.leadBits
  refine ⟨(utf8Mark k + c / 64 ^ k) :: bytes, by rw [h.cpToUtf8, utf8Sequence, hbytes, List.map_cons], ?_⟩
  exact List.forall_mem_cons.2 ⟨⟨by omega, hlt⟩, hwide⟩

/-- Bytes that begin with a 31-bit code point begin with no other code point. -/
theorem cpToUtf8_inj {c d : Nat} (hc : c < 0x80000000) {y z : Bytes}
    (h : rdfstoreUtf8CpToUtf8 c ++ y = rdfstoreUtf8CpToUtf8 d ++ z) : c = d := by
  have hlen := isUtf8_cp hc y
  have hcp := utf8ToCp_cp hc y
  rcases Nat.lt_or_ge d 0x80000000 with hd | hd
  · have hlen' := isUtf8_cp hd z
    have hcp' := utf8ToCp_cp hd z
    rw [← h, hlen, Option.some_inj] at hlen'
    rw [← h, ← hlen', hcp, Option.some_inj] at hcp'
    exact hcp'
  · -- the lead byte 0xfe stands for no character
    have hnone : rdfstoreUtf8IsUtf8 (rdfstoreUtf8CpToUtf8 d ++ z) = none := by
      unfold rdfstoreUtf8CpToUtf8
      rw [if_neg (by omega), if_neg (by omega), if_neg (by omega), if_neg (by omega), if_neg (by omega),
        if_neg (by omega)]
      rfl
    rw [h, hnone] at hlen
    cases hlen

theorem cpToUtf8_toNat {a : UInt8} (ha : a < 0x80) : rdfstoreUtf8CpToUtf8 a.toNat = [a] := by
  have hlt : a.toNat < 0x80 := ha
  rw [cpToUtf8_one hlt]
  simp

/-- Only the ASCII characters begin with a byte below 0x80. -/
theorem cpToUtf8_head {c : Nat} {a : UInt8} (ha : a < 0x80) {y z : Bytes}
    (h : rdfstoreUtf8CpToUtf8 c ++ y = a :: z) : c = a.toNat := by
  have hlt : a.toNat < 0x80 := ha
  refine (@cpToUtf8_inj a.toNat c (by omega) z y ?_).symm
  rw [cpToUtf8_toNat ha, h]
  rfl

end RdfStore
