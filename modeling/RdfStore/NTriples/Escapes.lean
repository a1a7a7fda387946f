import RdfStore.NTriples.Writer
import RdfStore.NTriples.Reader
import Mathlib.Tactic.Ring

/-!
# What becomes of an escaped text

The writer escapes a text character by character, and the reader replaces the
sequences of non-ASCII characters only, with all the hexadecimal digits that
follow.

    a plain text is read back                                       (unescape_escaped)
    a text that is read back, and ends where it should, is plain    (plain_of_unescape)
-/

namespace RdfStore.NTriples

open ByteMem

/-! ## What the writer makes of a character -/

/-- An ASCII character with an escape sequence of its own. -/
def IsSpecial (n : Nat) : Prop := n = 0x09 ∨ n = 0x0a ∨ n = 0x0d ∨ n = 0x5c ∨ n = 0x22

instance (n : Nat) : Decidable (IsSpecial n) := inferInstanceAs (Decidable (_ ∨ _))

/-- What is written for a code point. -/
def escaped (n : Nat) : Bytes :=
  if n = 0x09 then ascii "\\t"
  else if n = 0x0a then ascii "\\n"
  else if n = 0x0d then ascii "\\r"
  else if n = 0x5c then ascii "\\\\"
  else if n = 0x22 then ascii "\\\""
  else if n < 0x80 then [n.toUInt8]
  else 0x5c :: 0x75 :: hexFixed (hexWidth n) n

/-- What is written for a text. -/
def escapedText (text : List Char) : Bytes := text.flatMap fun c => escaped c.toNat

@[simp] theorem escapedText_nil : escapedText [] = [] := rfl

@[simp] theorem escapedText_cons (c : Char) (text : List Char) :
    escapedText (c :: text) = escaped c.toNat ++ escapedText text := rfl

theorem escapedText_append (l r : List Char) : escapedText (l ++ r) = escapedText l ++ escapedText r :=
  List.flatMap_append

@[simp] theorem length_hexFixed (width n : Nat) : (hexFixed width n).length = width := by
  induction width generalizing n with
  | zero => rfl
  | succ width ih => rw [hexFixed, List.length_append, ih, List.length_singleton]

theorem escapeFrom_skip (l rest : Bytes) : escapeFrom l.length (l ++ rest) = escapeFrom 0 rest := by
  induction l with
  | nil => rfl
  | cons a l ih => exact ih

theorem toUInt8_eq_iff {n : Nat} (hn : n < 256) (a : UInt8) : n.toUInt8 = a ↔ n = a.toNat := by
  rw [← UInt8.toNat_inj, toNat_toUInt8_of_lt hn]

theorem escapeFrom_ascii {n : Nat} (hn : n < 0x80) (rest : Bytes) :
    escapeFrom 0 (n.toUInt8 :: rest) = (escapeFrom 0 rest).map (escaped n ++ ·) := by
  have hone : rdfstoreUtf8IsUtf8 (n.toUInt8 :: rest) = some 1 := by
    have h := isUtf8_cp (show n < 0x80000000 by omega) rest
    rwa [cpToUtf8_one hn] at h
  rw [escapeFrom, escaped]
  simp only [hone, toUInt8_eq_iff (show n < 256 by omega), UInt8.reduceToNat, hn, if_true, gt_iff_lt,
    lt_self_iff_false, if_false]
  split_ifs <;> rfl

theorem hexWidth_le {n : Nat} (hn : n < 0x100000) : 4 ≤ hexWidth n ∧ hexWidth n ≤ 5 := by
  unfold hexWidth
  split_ifs <;> omega

theorem escapeFrom_sequence {n : Nat} (h1 : 0x80 ≤ n) (h2 : n < 0x80000000) (rest : Bytes) :
    escapeFrom 0 (rdfstoreUtf8CpToUtf8 n ++ rest) =
      if (escapeSequence (rdfstoreUtf8CpToUtf8 n).length n).length ≥ esSize then none
      else (escapeFrom 0 rest).map (escapeSequence (rdfstoreUtf8CpToUtf8 n).length n ++ ·) := by
  have hutf8 := isUtf8_cp h2 rest
  have hcp := utf8ToCp_cp h2 rest
  obtain ⟨a, cs, hcons, ha, hcs⟩ := cpToUtf8_wide h1 h2
  rw [hcons, List.cons_append] at hutf8 hcp
  have hne : ∀ b : UInt8, b < 0x80 → a ≠ b := by
    rintro b hb rfl
    exact absurd hb ha
  rw [hcons, List.cons_append, escapeFrom, if_neg (hne _ (by decide)), if_neg (hne _ (by decide)),
    if_neg (hne _ (by decide)), if_neg (hne _ (by decide)), if_neg (hne _ (by decide))]
  simp only [List.length_cons] at hutf8 hcp
  simp only [hutf8, hcp, List.length_cons, Nat.add_sub_cancel, escapeFrom_skip]
  rw [if_pos (Nat.succ_lt_succ hcs)]

theorem escaped_wide {n : Nat} (hn : 0x80 ≤ n) : escaped n = 0x5c :: 0x75 :: hexFixed (hexWidth n) n := by
  unfold escaped
  rw [if_neg (by omega), if_neg (by omega), if_neg (by omega), if_neg (by omega), if_neg (by omega),
    if_neg (by omega)]

theorem escapeSequence_of_lt {n : Nat} (h1 : 0x80 ≤ n) (h2 : n < 0x200000) :
    escapeSequence (rdfstoreUtf8CpToUtf8 n).length n = escaped n :=
  (if_pos (length_cpToUtf8_le h2)).trans (escaped_wide h1).symm

/-- Six digits and a NUL do not fit `es`. -/
theorem length_escaped_wide {n : Nat} (h1 : 0x80 ≤ n) : (escaped n).length ≥ esSize ↔ ¬ n < 0x100000 := by
  rw [escaped_wide h1, List.length_cons, List.length_cons, length_hexFixed, esSize, hexWidth]
  split_ifs <;> omega

theorem escapeFrom_wide {n : Nat} (h1 : 0x80 ≤ n) (h2 : n < 0x200000) (rest : Bytes) :
    escapeFrom 0 (rdfstoreUtf8CpToUtf8 n ++ rest) =
      if n < 0x100000 then (escapeFrom 0 rest).map (escaped n ++ ·) else none := by
  rw [escapeFrom_sequence h1 (h2.trans (by decide)), escapeSequence_of_lt h1 h2]
  simp only [length_escaped_wide h1]
  rw [ite_not]

theorem char_lt (c : Char) : c.toNat < 0x110000 := by
  rcases c.valid with h | h
  · exact lt_trans h (by decide)
  · exact h.2

/-- The ASCII bytes of a text are its ASCII characters. -/
theorem not_mem_utf8 {a : UInt8} (ha : a < 0x80) {text : List Char} (h : ∀ c ∈ text, c.toNat ≠ a.toNat) :
    a ∉ utf8 text := by
  rw [utf8, List.mem_flatMap]
  rintro ⟨c, hc, hmem⟩
  have hlt := char_lt c
  by_cases h1 : c.toNat < 0x80
  · rw [cpToUtf8_one h1, List.mem_singleton] at hmem
    exact h c hc ((toUInt8_eq_iff (by omega) a).1 hmem.symm)
  · obtain ⟨bytes, hbytes, hwide⟩ := cpToUtf8_bytes (not_lt.1 h1) (show c.toNat < 0x80000000 by omega)
    rw [hbytes, List.mem_map] at hmem
    obtain ⟨b, hb, rfl⟩ := hmem
    obtain ⟨hlo, hhi⟩ := hwide b hb
    have hb' : b.toUInt8.toNat < 0x80 := ha
    rw [← (toUInt8_eq_iff hhi _).1 rfl] at hb'
    omega

/-- A text without the code points whose sequences are too long. -/
theorem escape_utf8 {text : List Char} (h : ∀ c ∈ text, c.toNat < 0x100000) :
    escape (utf8 text) = some (escapedText text) := by
  unfold escape
  induction text with
  | nil => rfl
  | cons c text ih =>
    obtain ⟨hc, htext⟩ := List.forall_mem_cons.1 h
    rw [utf8_cons]
    by_cases hascii : c.toNat < 0x80
    · rw [cpToUtf8_one hascii, List.singleton_append, escapeFrom_ascii hascii, ih htext]
      rfl
    · rw [escapeFrom_wide (by omega) ((char_lt c).trans (by decide)), if_pos hc, ih htext]
      rfl

theorem small_of_escape {text : List Char} {es : Bytes} (h : escape (utf8 text) = some es) :
    ∀ c ∈ text, c.toNat < 0x100000 := by
  unfold escape at h
  induction text generalizing es with
  | nil => exact fun c hc => by cases hc
  | cons c text ih =>
    rw [utf8_cons] at h
    by_cases hascii : c.toNat < 0x80
    · rw [cpToUtf8_one hascii, List.singleton_append, escapeFrom_ascii hascii] at h
      obtain ⟨es', hes, -⟩ := Option.map_eq_some_iff.1 h
      exact List.forall_mem_cons.2 ⟨by omega, ih hes⟩
    · rw [escapeFrom_wide (by omega) ((char_lt c).trans (by decide))] at h
      split at h
      · next hc =>
        obtain ⟨es', hes, -⟩ := Option.map_eq_some_iff.1 h
        exact List.forall_mem_cons.2 ⟨hc, ih hes⟩
      · cases h

/-! ## Hexadecimal digits -/

theorem hexDigit_facts : ∀ n < 16, isHex (hexDigit n) = true ∧ hexVal (hexDigit n) = n := by
  decide

theorem isHex_of_mem_hexFixed {width n : Nat} {a : UInt8} (h : a ∈ hexFixed width n) : isHex a = true := by
  induction width generalizing n with
  | zero => cases h
  | succ width ih =>
    rw [hexFixed, List.mem_append, List.mem_singleton] at h
    rcases h with h | rfl
    · exact ih h
    · exact (hexDigit_facts _ (Nat.mod_lt _ (by decide))).1

theorem hexValue_append (l r : Bytes) : hexValue (l ++ r) = hexValue l * 16 ^ r.length + hexValue r := by
  have h : ∀ (r : Bytes) (n : Nat), r.foldl (fun n a => 16 * n + hexVal a) n = n * 16 ^ r.length + hexValue r := by
    intro r
    induction r with
    | nil => simp [hexValue]
    | cons a r ih =>
      intro n
      rw [hexValue, List.foldl_cons, List.foldl_cons, ih, ih, List.length_cons, Nat.pow_succ]
      ring
  unfold hexValue
  rw [List.foldl_append, h]
  rfl

theorem hexValue_hexFixed (width n : Nat) : hexValue (hexFixed width n) = n % 16 ^ width := by
  induction width generalizing n with
  | zero => rw [Nat.pow_zero, Nat.mod_one]; rfl
  | succ width ih =>
    have hdigit : hexValue [hexDigit (n % 16)] = n % 16 := by
      unfold hexValue
      simpa using (hexDigit_facts _ (Nat.mod_lt n (by decide))).2
    rw [hexFixed, hexValue_append, ih, hdigit, List.length_singleton, Nat.pow_one, Nat.pow_succ, Nat.mul_comm (16 ^ width),
      Nat.mod_mul]
    omega

theorem hexVal_lt {a : UInt8} (h : isHex a = true) : hexVal a < 16 := by
  unfold isHex isDigit at h
  unfold hexVal isDigit
  simp only [Bool.or_eq_true, Bool.and_eq_true, decide_eq_true_eq, UInt8.le_iff_toNat_le, UInt8.reduceToNat] at h ⊢
  split_ifs <;> omega

theorem hexValue_lt {ds : Bytes} (h : ∀ a ∈ ds, isHex a = true) : hexValue ds < 16 ^ ds.length := by
  induction ds using List.reverseRecOn with
  | nil => decide
  | append_singleton ds a ih =>
    have hds := ih fun b hb => h b (List.mem_append_left _ hb)
    have ha := hexVal_lt (h a (by simp))
    have hone : hexValue [a] = hexVal a := by simp [hexValue]
    rw [hexValue_append, hone, List.length_append, List.length_singleton, Nat.pow_one, Nat.pow_succ]
    omega

/-! ## What the reader makes of a sequence -/

theorem unescapeFrom_skip (skip : Nat) (s : Bytes) : unescapeFrom skip s = unescape (s.drop skip) := by
  induction skip generalizing s with
  | zero => rfl
  | succ skip ih =>
    cases s with
    | nil => rfl
    | cons a s => exact ih s

@[simp] theorem unescape_nil : unescape [] = [] := rfl

theorem unescape_cons {a : UInt8} (h : a ≠ 0x5c) (s : Bytes) : unescape (a :: s) = a :: unescape s := if_neg h

theorem unescape_of_none {s : Bytes} (h : uEscape s = none) : unescape (0x5c :: s) = 0x5c :: unescape s := by
  rw [unescape, unescapeFrom, if_pos rfl, h]
  rfl

theorem unescape_of_some {s ds : Bytes} (h : uEscape s = some ds) :
    unescape (0x5c :: s) = rdfstoreUtf8CpToUtf8 (hexValue ds) ++ unescape (s.drop (ds.length + 1)) := by
  rw [unescape, unescapeFrom, if_pos rfl, h]
  simp only [unescapeFrom_skip]

theorem isHex_of_mem_hexRun {s : Bytes} {a : UInt8} (h : a ∈ hexRun s) : isHex a = true :=
  List.mem_takeWhile_imp (List.mem_of_mem_take h)

theorem length_hexRun_le (s : Bytes) : (hexRun s).length ≤ 8 := List.length_take_le _ _

theorem length_hexRun_le_length (s : Bytes) : (hexRun s).length ≤ s.length :=
  (List.length_take_le' _ _).trans ((List.takeWhile_sublist _).length_le)

theorem hexRun_append {ds : Bytes} (hds : ∀ a ∈ ds, isHex a = true) (hlen : ds.length ≤ 8) (s : Bytes) :
    hexRun (ds ++ s) = ds ++ (s.takeWhile isHex).take (8 - ds.length) := by
  unfold hexRun
  rw [List.takeWhile_append_of_pos hds, List.take_append, List.take_of_length_le hlen]

/-- A replaced sequence has the value of its digits. -/
theorem hexValue_hexRun_lt (s : Bytes) : hexValue (hexRun s) < 2 ^ 32 := by
  calc hexValue (hexRun s) < 16 ^ (hexRun s).length := hexValue_lt fun _ => isHex_of_mem_hexRun
    _ ≤ 16 ^ 8 := Nat.pow_le_pow_right (by decide) (length_hexRun_le s)
    _ = 2 ^ 32 := by decide

theorem uEscape_eq_some_iff {s ds : Bytes} :
    uEscape s = some ds ↔ ∃ u t, s = u :: t ∧ (u = 0x75 ∨ u = 0x55) ∧ 4 ≤ (hexRun t).length ∧ ds = hexRun t := by
  cases s with
  | nil => simp [uEscape]
  | cons u t =>
    rw [uEscape]
    constructor
    · intro h
      split at h
      · next hu => exact ⟨u, t, rfl, hu.1, hu.2, (Option.some_inj.1 h).symm⟩
      · cases h
    · rintro ⟨_, _, heq, hu, hlen, rfl⟩
      cases heq
      rw [if_pos ⟨hu, hlen⟩]

/-- Nothing that a sequence before it would take. -/
def NoHexHead (s : Bytes) : Prop := ∀ a ∈ s.head?, isHex a = false

theorem noHexHead_of_take {s : Bytes} {n : Nat} (h : (s.takeWhile isHex).take n = []) (hn : 0 < n) :
    NoHexHead s := by
  cases s with
  | nil => rintro _ ⟨⟩
  | cons a s =>
    rintro _ ⟨⟩
    by_contra hhex
    rw [List.takeWhile_cons_of_pos (by simpa using hhex)] at h
    cases n with
    | zero => cases hn
    | succ n => cases h

/-- Of a sequence the reader takes the digits of the code point, and the digits that follow. -/
theorem unescape_wide {n : Nat} (h1 : 0x80 ≤ n) (h2 : n < 0x100000) (s : Bytes) :
    ∃ more, more = (s.takeWhile isHex).take (8 - hexWidth n) ∧
      n * 16 ^ more.length + hexValue more < 2 ^ 32 ∧
      unescape (escaped n ++ s) =
        rdfstoreUtf8CpToUtf8 (n * 16 ^ more.length + hexValue more) ++ unescape (s.drop more.length) := by
  obtain ⟨hlo, hhi⟩ := hexWidth_le h2
  have hrun := hexRun_append (fun _ => @isHex_of_mem_hexFixed (hexWidth n) n _)
    (by rw [length_hexFixed]; omega) s
  rw [length_hexFixed] at hrun
  have hvalue : hexValue (hexFixed (hexWidth n) n) = n := by
    rw [hexValue_hexFixed, Nat.mod_eq_of_lt]
    unfold hexWidth
    split_ifs <;> omega
  have hesc : uEscape (0x75 :: (hexFixed (hexWidth n) n ++ s)) = some (hexRun (hexFixed (hexWidth n) n ++ s)) := by
    refine uEscape_eq_some_iff.2 ⟨_, _, rfl, .inl rfl, ?_, rfl⟩
    rw [hrun, List.length_append, length_hexFixed]
    omega
  have hlt := hexValue_hexRun_lt (hexFixed (hexWidth n) n ++ s)
  rw [hrun, hexValue_append, hvalue] at hlt
  refine ⟨_, rfl, hlt, ?_⟩
  rw [escaped_wide h1, List.cons_append, List.cons_append, unescape_of_some hesc, hrun, hexValue_append, hvalue,
    List.length_append, length_hexFixed, List.drop_succ_cons]
  congr 2
  rw [List.drop_append, length_hexFixed, List.drop_eq_nil_of_le (by rw [length_hexFixed]; omega), List.nil_append,
    Nat.add_sub_cancel_left]

theorem unescape_wide_of_noHexHead {n : Nat} (h1 : 0x80 ≤ n) (h2 : n < 0x100000) {s : Bytes} (hs : NoHexHead s) :
    unescape (escaped n ++ s) = rdfstoreUtf8CpToUtf8 n ++ unescape s := by
  obtain ⟨more, hmore, -, hun⟩ := unescape_wide h1 h2 s
  have hnil : s.takeWhile isHex = [] := by
    cases s with
    | nil => rfl
    | cons a s => simp [hs a rfl]
  rw [hnil, List.take_nil] at hmore
  rw [hun, hmore]
  simp [hexValue]

/-! ## Plain texts -/

/-- An ASCII character that a sequence before it would take. -/
def isHexChar (c : Char) : Bool := decide (c.toNat < 0x80) && isHex c.toNat.toUInt8

/-- What survives: characters without an escape sequence or with one of at most five digits, and no
hexadecimal digit behind such a sequence. -/
structure Unharmed (text : List Char) : Prop where
  small : ∀ c ∈ text, c.toNat < 0x100000
  ordinary : ∀ c ∈ text, ¬ IsSpecial c.toNat
  apart : text.IsChain fun a b => 0x80 ≤ a.toNat → isHexChar b = false

theorem Unharmed.cons {c : Char} {text : List Char} (h : Unharmed text) (hsmall : c.toNat < 0x100000)
    (hordinary : ¬ IsSpecial c.toNat) (hapart : 0x80 ≤ c.toNat → ∀ d ∈ text.head?, isHexChar d = false) :
    Unharmed (c :: text) where
  small := List.forall_mem_cons.2 ⟨hsmall, h.small⟩
  ordinary := List.forall_mem_cons.2 ⟨hordinary, h.ordinary⟩
  apart := List.isChain_cons.2 ⟨fun d hd hwide => hapart hwide d hd, h.apart⟩

theorem Unharmed.tail {c : Char} {text : List Char} (h : Unharmed (c :: text)) : Unharmed text :=
  ⟨fun d hd => h.small d (List.mem_cons_of_mem _ hd), fun d hd => h.ordinary d (List.mem_cons_of_mem _ hd),
    h.apart.tail⟩

theorem escaped_ascii {n : Nat} (hn : n < 0x80) (h : ¬ IsSpecial n) : escaped n = [n.toUInt8] := by
  unfold IsSpecial at h
  unfold escaped
  rw [if_neg (by omega), if_neg (by omega), if_neg (by omega), if_neg (by omega), if_neg (by omega), if_pos hn]

theorem escaped_special {n : Nat} (h : IsSpecial n) (hn : n ≠ 0x5c) :
    ∃ x, escaped n = [0x5c, x] ∧ x ≠ 0x75 ∧ x ≠ 0x55 := by
  rcases h with rfl | rfl | rfl | h | rfl
  · exact ⟨0x74, by decide, by decide, by decide⟩
  · exact ⟨0x6e, by decide, by decide, by decide⟩
  · exact ⟨0x72, by decide, by decide, by decide⟩
  · exact absurd h hn
  · exact ⟨0x22, by decide, by decide, by decide⟩

/-- A character that is written begins with a hexadecimal digit only when it is one. -/
theorem noHexHead_escaped {c : Char} {s : Bytes} (h : isHexChar c = false) : NoHexHead (escaped c.toNat ++ s) := by
  have hbackslash : isHex 0x5c = false := by decide
  intro a ha
  by_cases hs : IsSpecial c.toNat
  · by_cases hn : c.toNat = 0x5c
    · rw [hn] at ha
      cases ha
      exact hbackslash
    · obtain ⟨x, hx, -⟩ := escaped_special hs hn
      rw [hx] at ha
      cases ha
      exact hbackslash
  · by_cases hascii : c.toNat < 0x80
    · rw [escaped_ascii hascii hs] at ha
      cases ha
      simpa [isHexChar, hascii] using h
    · rw [escaped_wide (not_lt.1 hascii)] at ha
      cases ha
      exact hbackslash

theorem noHexHead_escapedText {c : Char} {text : List Char} (h : isHexChar c = false) (rest : Bytes) :
    NoHexHead (escapedText (c :: text) ++ rest) := by
  rw [escapedText_cons, List.append_assoc]
  exact noHexHead_escaped h

theorem toUInt8_ne_backslash {n : Nat} (hn : n < 0x80) (h : ¬ IsSpecial n) : n.toUInt8 ≠ 0x5c := by
  rw [Ne, toUInt8_eq_iff (by omega)]
  rintro rfl
  exact h (by decide)

theorem unescape_escaped {text : List Char} (h : Unharmed text) {rest : Bytes} (hrest : NoHexHead rest) :
    unescape (escapedText text ++ rest) = utf8 text ++ unescape rest := by
  induction text with
  | nil => rfl
  | cons c text ih =>
    have hc := h.ordinary c List.mem_cons_self
    rw [escapedText_cons, utf8_cons, List.append_assoc, List.append_assoc, ← ih h.tail]
    by_cases hascii : c.toNat < 0x80
    · rw [escaped_ascii hascii hc, cpToUtf8_one hascii, List.singleton_append, List.singleton_append,
        unescape_cons (toUInt8_ne_backslash hascii hc)]
    · refine unescape_wide_of_noHexHead (not_lt.1 hascii) (h.small c List.mem_cons_self) ?_
      cases text with
      | nil => exact hrest
      | cons d text =>
        exact noHexHead_escapedText ((List.isChain_cons_cons.1 h.apart).1 (not_lt.1 hascii)) rest

/-! ## What is not plain is not read back -/

/-- A byte behind a text that is no part of an escape sequence. -/
structure Stops (x : UInt8) : Prop where
  noBackslash : x ≠ 0x5c
  noHex : isHex x = false
  noU : x ≠ 0x75 ∧ x ≠ 0x55

instance (x : UInt8) : Decidable (Stops x) :=
  decidable_of_iff (x ≠ 0x5c ∧ isHex x = false ∧ x ≠ 0x75 ∧ x ≠ 0x55)
    ⟨fun ⟨h1, h2, h3⟩ => ⟨h1, h2, h3⟩, fun ⟨h1, h2, h3⟩ => ⟨h1, h2, h3⟩⟩

theorem Stops.noHexHead {x : UInt8} (h : Stops x) (s : Bytes) : NoHexHead (x :: s) := by
  rintro _ ⟨⟩
  exact h.noHex

theorem uEscape_of_ne {u : UInt8} (h1 : u ≠ 0x75) (h2 : u ≠ 0x55) (t : Bytes) : uEscape (u :: t) = none :=
  if_neg fun h => h.1.elim h1 h2

theorem special_cons {n : Nat} (h : IsSpecial n) : ∃ z, escaped n = [0x5c, z] ∧ z ≠ 0x75 ∧ z ≠ 0x55 := by
  by_cases hn : n = 0x5c
  · subst hn
    exact ⟨0x5c, by decide, by decide, by decide⟩
  · exact escaped_special h hn

/-- The escape sequence of an ASCII character stays as it is. -/
theorem unescape_special {n : Nat} (h : IsSpecial n) (s : Bytes) :
    ∃ z, unescape (escaped n ++ s) = 0x5c :: unescape (z :: s) ∧ (n = 0x5c → z = 0x5c) := by
  obtain ⟨z, hz, h1, h2⟩ := special_cons h
  refine ⟨z, ?_, ?_⟩
  · rw [hz, List.cons_append, List.singleton_append, unescape_of_none (uEscape_of_ne h1 h2 s)]
  · rintro rfl
    exact (List.cons.inj (List.cons.inj (hz.symm.trans (show escaped 0x5c = [0x5c, 0x5c] by decide))).2).1

theorem isHex_lt {a : UInt8} (h : isHex a = true) : a < 0x80 := by
  unfold isHex isDigit at h
  simp only [Bool.or_eq_true, Bool.and_eq_true, decide_eq_true_eq, UInt8.le_iff_toNat_le, UInt8.reduceToNat] at h
  rw [UInt8.lt_iff_toNat_lt]
  simp only [UInt8.reduceToNat]
  omega

/-- Digits in front of the text never catch up with it. -/
theorem unescape_ne_rotated {text : List Char} (hsmall : ∀ c ∈ text, c.toNat < 0x100000) {x : UInt8}
    (hx : Stops x) (s y : Bytes) (c : UInt8) {ds : Bytes} (hne : ds ≠ []) (hds : ∀ a ∈ ds, isHex a = true) :
    unescape (escapedText text ++ x :: s) ≠ ds ++ (utf8 text ++ c :: y) := by
  induction text generalizing ds with
  | nil =>
    obtain ⟨d, ds, rfl⟩ := List.exists_cons_of_ne_nil hne
    intro h
    rw [escapedText_nil, List.nil_append, unescape_cons hx.noBackslash] at h
    have hhex := hds d List.mem_cons_self
    rw [← (List.cons.inj h).1, hx.noHex] at hhex
    cases hhex
  | cons a text ih =>
    obtain ⟨d, ds, rfl⟩ := List.exists_cons_of_ne_nil hne
    have hd : isHex d = true := hds d List.mem_cons_self
    obtain ⟨ha, htext⟩ := List.forall_mem_cons.1 hsmall
    intro h
    rw [escapedText_cons, List.append_assoc, List.cons_append] at h
    by_cases hspecial : IsSpecial a.toNat
    · obtain ⟨z, hz, -⟩ := unescape_special hspecial (escapedText text ++ x :: s)
      rw [hz] at h
      rw [← (List.cons.inj h).1] at hd
      exact absurd hd (by decide)
    by_cases hascii : a.toNat < 0x80
    · rw [escaped_ascii hascii hspecial, List.singleton_append,
        unescape_cons (toUInt8_ne_backslash hascii hspecial)] at h
      obtain ⟨rfl, htail⟩ := List.cons.inj h
      refine @ih htext (ds ++ [a.toNat.toUInt8]) (by simp) ?_ ?_
      · intro b hb
        rcases List.mem_append.1 hb with hb | hb
        · exact hds b (List.mem_cons_of_mem _ hb)
        · exact List.mem_singleton.1 hb ▸ hd
      · rw [htail, utf8_cons, cpToUtf8_one hascii]
        simp
    · obtain ⟨more, -, hlt, hun⟩ := unescape_wide (not_lt.1 hascii) ha (escapedText text ++ x :: s)
      rw [hun] at h
      have hval := cpToUtf8_head (isHex_lt hd) h
      have hd' : d.toNat < 0x80 := isHex_lt hd
      have hpos : 0 < 16 ^ more.length := Nat.pow_pos (by decide)
      have hle : a.toNat ≤ a.toNat * 16 ^ more.length := Nat.le_mul_of_pos_right _ hpos
      omega

/-- The characters at the head of a text whose escape sequences begin with hexadecimal digits. -/
theorem hexRun_escapedText {x : UInt8} (hx : Stops x) (text : List Char) (s : Bytes) :
    ∃ chars later, text = chars ++ later ∧ utf8 chars = hexRun (escapedText text ++ x :: s) ∧
      escapedText chars = hexRun (escapedText text ++ x :: s) := by
  have h : ∀ n, ∃ chars later, text = chars ++ later ∧
      utf8 chars = ((escapedText text ++ x :: s).takeWhile isHex).take n ∧
      escapedText chars = ((escapedText text ++ x :: s).takeWhile isHex).take n := by
    induction text with
    | nil =>
      intro n
      refine ⟨[], [], rfl, ?_, ?_⟩ <;> simp [hx.noHex]
    | cons a text ih =>
      intro n
      by_cases hhex : isHexChar a = true
      · obtain ⟨hascii, hbyte⟩ : a.toNat < 0x80 ∧ isHex a.toNat.toUInt8 = true := by
          simpa [isHexChar] using hhex
        have hspecial : ¬ IsSpecial a.toNat := by
          rintro (h | h | h | h | h) <;> rw [h] at hbyte <;> exact absurd hbyte (by decide)
        cases n with
        | zero => exact ⟨[], a :: text, rfl, rfl, rfl⟩
        | succ n =>
          obtain ⟨chars, later, htext, hutf8, hesc⟩ := ih n
          refine ⟨a :: chars, later, by rw [htext]; rfl, ?_, ?_⟩
          · rw [utf8_cons, cpToUtf8_one hascii, hutf8, escapedText_cons, escaped_ascii hascii hspecial]
            simp [hbyte]
          · rw [escapedText_cons, hesc, escapedText_cons, escaped_ascii hascii hspecial]
            simp [hbyte]
      · have hnil : (escapedText (a :: text) ++ x :: s).takeWhile isHex = [] := by
          have hhead := @noHexHead_escapedText a text (Bool.eq_false_iff.2 hhex) (x :: s)
          cases hl : escapedText (a :: text) ++ x :: s with
          | nil => rfl
          | cons b l =>
            rw [hl] at hhead
            simp [hhead b rfl]
        refine ⟨[], a :: text, rfl, ?_, ?_⟩ <;> rw [hnil, List.take_nil] <;> rfl
  exact h 8

/-- A backslash too many stays too many. -/
theorem unescape_ne_shifted {text : List Char} (hsmall : ∀ c ∈ text, c.toNat < 0x100000) {x : UInt8}
    (hx : Stops x) (s y : Bytes) {c : UInt8} (hc : c ≠ 0x5c) (n : Nat) :
    List.replicate n 0x5c ++ unescape (0x5c :: (escapedText text ++ x :: s)) ≠ utf8 text ++ c :: y := by
  induction text generalizing n with
  | nil =>
    intro h
    rw [escapedText_nil, List.nil_append, unescape_of_none (uEscape_of_ne hx.noU.1 hx.noU.2 s)] at h
    cases n with
    | zero => exact hc (List.cons.inj h).1.symm
    | succ n => exact hc (List.cons.inj h).1.symm
  | cons a text ih =>
    obtain ⟨ha, htext⟩ := List.forall_mem_cons.1 hsmall
    intro h
    rw [escapedText_cons, List.append_assoc, utf8_cons, List.append_assoc] at h
    -- what is written for the character begins with no digit, unless it stands for itself
    by_cases hbackslash : a.toNat = 0x5c
    · have hesc : escaped 0x5c = [0x5c, 0x5c] := by decide
      have hcp : rdfstoreUtf8CpToUtf8 0x5c = [0x5c] := by decide
      have hnone : ∀ t, uEscape (0x5c :: t) = none := uEscape_of_ne (by decide) (by decide)
      rw [hbackslash, hesc, hcp, List.cons_append, List.singleton_append, List.singleton_append,
        unescape_of_none (hnone _), unescape_of_none (hnone _)] at h
      refine ih htext (n + 1) ?_
      cases n with
      | zero => exact (List.cons.inj h).2
      | succ n =>
        rw [List.replicate_succ, List.cons_append] at h
        rw [← (List.cons.inj h).2, List.replicate_succ', List.replicate_succ']
        simp
    have hhead : ∀ t, 0x5c :: t ≠ rdfstoreUtf8CpToUtf8 a.toNat ++ (utf8 text ++ c :: y) := by
      intro t ht
      have hlt : a.toNat < 2 ^ 32 := by omega
      exact hbackslash (cpToUtf8_head (a := 0x5c) (by decide) ht.symm)
    cases n with
    | succ n => exact hhead _ h
    | zero =>
      rw [List.replicate_zero, List.nil_append] at h
      cases hu : uEscape (escaped a.toNat ++ (escapedText text ++ x :: s)) with
      | none =>
        rw [unescape_of_none hu] at h
        exact hhead _ h
      | some ds =>
        -- a letter u behind the backslash, and digits behind it
        obtain ⟨u, t, heq, hletter, hfour, rfl⟩ := uEscape_eq_some_iff.1 hu
        have hletter' : u ≠ 0x5c := by rcases hletter with rfl | rfl <;> decide
        have hspecial : ¬ IsSpecial a.toNat := by
          intro hspecial
          obtain ⟨z, hz, -⟩ := special_cons hspecial
          rw [hz] at heq
          exact hletter' (List.cons.inj heq).1.symm
        have hascii : a.toNat < 0x80 := by
          by_contra hwide
          rw [escaped_wide (not_lt.1 hwide)] at heq
          exact hletter' (List.cons.inj heq).1.symm
        rw [escaped_ascii hascii hspecial, List.singleton_append] at heq hu h
        obtain ⟨rfl, rfl⟩ := List.cons.inj heq
        rw [unescape_of_some hu, cpToUtf8_one hascii, List.singleton_append] at h
        obtain ⟨chars, later, rfl, hutf8, hesc⟩ := hexRun_escapedText hx text s
        have hbyte : a.toNat.toUInt8 < 0x80 := by rcases hletter with h | h <;> rw [h] <;> decide
        have hvalue := cpToUtf8_head hbyte h
        rw [hvalue, cpToUtf8_toNat hbyte, List.singleton_append, List.drop_succ_cons] at h
        have hdrop : (escapedText (chars ++ later) ++ x :: s).drop
            (hexRun (escapedText (chars ++ later) ++ x :: s)).length = escapedText later ++ x :: s := by
          rw [← hesc, escapedText_append, List.append_assoc, List.drop_left]
        refine unescape_ne_rotated (fun c hc => htext c (List.mem_append_right _ hc)) hx s y c
          (List.ne_nil_of_length_pos (Nat.lt_of_lt_of_le (by decide) hfour)) (fun _ => isHex_of_mem_hexRun) ?_
        rw [← hdrop, (List.cons.inj h).2, utf8_append, hutf8, List.append_assoc]

/-- What is read back, and ends where it should, is plain. -/
theorem plain_of_unescape {text : List Char} (hsmall : ∀ c ∈ text, c.toNat < 0x100000) {x : UInt8}
    (hx : Stops x) {s y : Bytes} {c : UInt8} (hc : c ≠ 0x5c)
    (h : unescape (escapedText text ++ x :: s) = utf8 text ++ c :: y) :
    Unharmed text ∧ c = x ∧ y = unescape s := by
  induction text with
  | nil =>
    rw [escapedText_nil, List.nil_append, unescape_cons hx.noBackslash] at h
    obtain ⟨rfl, rfl⟩ := List.cons.inj h
    exact ⟨⟨hsmall, by simp, List.isChain_nil⟩, rfl, rfl⟩
  | cons a text ih =>
    obtain ⟨ha, htext⟩ := List.forall_mem_cons.1 hsmall
    rw [escapedText_cons, List.append_assoc, utf8_cons, List.append_assoc] at h
    by_cases hspecial : IsSpecial a.toNat
    · obtain ⟨z, hz, hslash⟩ := unescape_special hspecial (escapedText text ++ x :: s)
      rw [hz] at h
      have hval : a.toNat = 0x5c := cpToUtf8_head (a := 0x5c) (by decide) h.symm
      have hcp : rdfstoreUtf8CpToUtf8 0x5c = [0x5c] := by decide
      rw [hval, hcp, hslash hval, List.singleton_append] at h
      exact absurd (List.cons.inj h).2 (unescape_ne_shifted htext hx s y hc 0)
    by_cases hascii : a.toNat < 0x80
    · rw [escaped_ascii hascii hspecial, cpToUtf8_one hascii, List.singleton_append, List.singleton_append,
        unescape_cons (toUInt8_ne_backslash hascii hspecial)] at h
      obtain ⟨hplain, hcx, hy⟩ := ih htext (List.cons.inj h).2
      refine ⟨hplain.cons ha hspecial fun hwide => absurd hascii (not_lt.2 hwide), hcx, hy⟩
    · obtain ⟨more, hmore, hlt, hun⟩ := unescape_wide (not_lt.1 hascii) ha (escapedText text ++ x :: s)
      rw [hun] at h
      have hval := cpToUtf8_inj (show a.toNat < 0x80000000 by omega) h.symm
      have hnil : more = [] := by
        by_contra hne
        have hpow : 16 ^ 1 ≤ 16 ^ more.length := Nat.pow_le_pow_right (by decide) (List.length_pos_iff.2 hne)
        have hle : a.toNat * 16 ≤ a.toNat * 16 ^ more.length := Nat.mul_le_mul_left _ hpow
        omega
      rw [hnil] at h
      simp only [hexValue, List.length_nil, Nat.pow_zero, Nat.mul_one, List.foldl_nil, Nat.add_zero, List.drop_zero,
        List.append_cancel_left_eq] at h
      obtain ⟨hplain, hcx, hy⟩ := ih htext h
      refine ⟨hplain.cons ha hspecial fun _ d hd => ?_, hcx, hy⟩
      rw [hnil] at hmore
      have hhead := noHexHead_of_take hmore.symm (by have := hexWidth_le ha; omega)
      obtain ⟨text, rfl⟩ : ∃ t, text = d :: t := List.head?_eq_some_iff.1 hd
      by_contra hhex
      obtain ⟨hd1, hd2⟩ : d.toNat < 0x80 ∧ isHex d.toNat.toUInt8 = true := by simpa [isHexChar] using hhex
      have hd3 : ¬ IsSpecial d.toNat := hplain.ordinary d List.mem_cons_self
      rw [escapedText_cons, escaped_ascii hd1 hd3] at hhead
      exact absurd (hhead _ rfl) (by rw [hd2]; decide)

/-! ## Bytes that are written as they are -/

theorem hexRun_append_stop {x : UInt8} (hx : Stops x) (t b : Bytes) : hexRun (t ++ x :: b) = hexRun t := by
  unfold hexRun
  congr 1
  induction t with
  | nil => simp [hx.noHex]
  | cons a t ih => simp only [List.cons_append, List.takeWhile_cons, ih]

theorem uEscape_append_stop {x : UInt8} (hx : Stops x) (a b : Bytes) : uEscape (a ++ x :: b) = uEscape a := by
  cases a with
  | nil => exact uEscape_of_ne hx.noU.1 hx.noU.2 b
  | cons u t => simp only [List.cons_append, uEscape, hexRun_append_stop hx]

theorem length_of_uEscape {s ds : Bytes} (h : uEscape s = some ds) :
    ds.length + 1 ≤ s.length ∧ 4 ≤ ds.length ∧ ds.length ≤ 8 ∧ hexValue ds < 16 ^ ds.length := by
  obtain ⟨u, t, rfl, -, hfour, rfl⟩ := uEscape_eq_some_iff.1 h
  have hle := length_hexRun_le_length t
  exact ⟨Nat.succ_le_succ hle, hfour, length_hexRun_le t, hexValue_lt fun _ => isHex_of_mem_hexRun⟩

/-- A byte that is no part of an escape sequence keeps what is before it and behind it apart. -/
theorem unescape_append {x : UInt8} (hx : Stops x) (a b : Bytes) :
    unescape (a ++ x :: b) = unescape a ++ x :: unescape b := by
  induction hlen : a.length using Nat.strong_induction_on generalizing a with
  | _ n ih =>
    subst hlen
    cases a with
    | nil => exact unescape_cons hx.noBackslash b
    | cons y a =>
      rw [List.cons_append]
      by_cases hy : y = 0x5c
      · subst hy
        have hsame := uEscape_append_stop hx a b
        cases hu : uEscape a with
        | none =>
          rw [unescape_of_none (hsame.trans hu), unescape_of_none hu, ih a.length (by simp) a rfl, List.cons_append]
        | some ds =>
          have hle := (length_of_uEscape hu).1
          rw [unescape_of_some (hsame.trans hu), unescape_of_some hu, List.drop_append_of_le_length hle,
            ih _ (by rw [List.length_drop, List.length_cons]; omega) _ rfl, List.append_assoc]
      · rw [unescape_cons hy, unescape_cons hy, ih a.length (by simp) a rfl, List.cons_append]

/-- No backslash with `u` or `U` and four hexadecimal digits. -/
def NoSequence (s : Bytes) : Prop := ∀ r, 0x5c :: r <:+ s → uEscape r = none

theorem NoSequence.tail {a : UInt8} {s : Bytes} (h : NoSequence (a :: s)) : NoSequence s :=
  fun r hr => h r (hr.trans (List.suffix_cons a s))

theorem unescape_of_noSequence {s : Bytes} (h : NoSequence s) : unescape s = s := by
  induction s with
  | nil => rfl
  | cons a s ih =>
    by_cases ha : a = 0x5c
    · rw [ha, unescape_of_none (h s (by rw [ha])), ih h.tail]
    · rw [unescape_cons ha, ih h.tail]

theorem length_cpToUtf8_le_digits {v k : Nat} (h4 : 4 ≤ k) (h8 : k ≤ 8) (hv : v < 16 ^ k) :
    (rdfstoreUtf8CpToUtf8 v).length ≤ k := by
  have hk : k = 4 ∨ k = 5 ∨ k = 6 ∨ k = 7 ∨ k = 8 := by omega
  unfold rdfstoreUtf8CpToUtf8
  rcases hk with rfl | rfl | rfl | rfl | rfl <;> split_ifs <;> simp <;> omega

/-- A sequence is longer than the character it stands for. -/
theorem length_unescape_le (s : Bytes) :
    (unescape s).length ≤ s.length ∧ ((unescape s).length = s.length → NoSequence s) := by
  induction hlen : s.length using Nat.strong_induction_on generalizing s with
  | _ n ih =>
    subst hlen
    cases s with
    | nil => exact ⟨le_rfl, fun _ r hr => by simpa using hr.length_le⟩
    | cons a s =>
      have hs := ih s.length (by simp) s rfl
      have hstep : ∀ (_ : a = 0x5c → uEscape s = none), unescape (a :: s) = a :: unescape s →
          (unescape (a :: s)).length ≤ (a :: s).length ∧
            ((unescape (a :: s)).length = (a :: s).length → NoSequence (a :: s)) := by
        intro hnone heq
        rw [heq, List.length_cons, List.length_cons]
        refine ⟨Nat.succ_le_succ hs.1, fun heqlen r hr => ?_⟩
        rcases List.suffix_cons_iff.1 hr with hcons | hr
        · obtain ⟨rfl, rfl⟩ := List.cons.inj hcons
          exact hnone rfl
        · exact hs.2 (Nat.succ.inj heqlen) r hr
      by_cases ha : a = 0x5c
      · subst ha
        cases hu : uEscape s with
        | none => exact hstep (fun _ => hu) (unescape_of_none hu)
        | some ds =>
          obtain ⟨hle, h4, h8, hv⟩ := length_of_uEscape hu
          have hcp := length_cpToUtf8_le_digits h4 h8 hv
          have hrest := (ih (s.drop (ds.length + 1)).length (by rw [List.length_drop, List.length_cons]; omega) _ rfl).1
          rw [List.length_drop] at hrest
          rw [unescape_of_some hu, List.length_append, List.length_cons]
          exact ⟨by omega, by omega⟩
      · exact hstep (fun h => absurd h ha) (unescape_cons ha s)

/-- What has no `x` in it and is found again in front of one, or of a byte `c` that it has not either,
had no sequence. -/
theorem noSequence_of_unescape {x c : UInt8} (hx : Stops x) {s z y : Bytes} (hs : x ∉ s)
    (h : unescape (s ++ x :: z) = s ++ c :: y) : NoSequence s := by
  rw [unescape_append hx] at h
  obtain ⟨hle, hsame⟩ := length_unescape_le s
  rcases Nat.lt_or_eq_of_le hle with hlt | heq
  · have hx' : (s ++ c :: y)[(unescape s).length]? = some x := by
      rw [← h, List.getElem?_append_right le_rfl, Nat.sub_self]
      rfl
    rw [List.getElem?_append_left hlt] at hx'
    exact absurd (List.mem_of_getElem? hx') hs
  · exact hsame heq

end RdfStore.NTriples
