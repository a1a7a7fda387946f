import RdfStore.NTriples.Escapes
import RdfStore.Utf8Text

/-!
# What an escaped string stands for

The escape sequences of N-Triples are read by their rules: `\u` has four digits and
`\U` has eight, and what is no sequence is ASCII and stands for itself.  The writer
spends `\u` on every character of up to four bytes, whatever digits it takes, drops
the bytes that begin no character and copies some of those that only look as if
they did.

    characters of up to three bytes are read back                               (readText_escape_of_short)
    what is read back is too short or too small otherwise                       (readText_escape)
    the code points are those of the repaired string  ↔  there are no others    (escapedFaithfully_iff)
-/

namespace RdfStore.NTriples

open ByteMem

/-! ## The rules -/

/-- `k` hexadecimal digits: their value, and the bytes of the sequence behind the backslash. -/
def readHex (k : Nat) (s : Bytes) : Option (Nat × Nat) :=
  if (s.take k).length = k ∧ (s.take k).all isHex then some (hexValue (s.take k), k + 1) else none

def readEscape : Bytes → Option (Nat × Nat)
  | [] => none
  | e :: s =>
    if e = 0x74 then some (0x09, 1)
    else if e = 0x6e then some (0x0a, 1)
    else if e = 0x72 then some (0x0d, 1)
    else if e = 0x22 then some (0x22, 1)
    else if e = 0x5c then some (0x5c, 1)
    else if e = 0x75 then readHex 4 s
    else if e = 0x55 then readHex 8 s
    else none

/-- The code point that begins here, and how many bytes behind the first it takes.  A NUL is the end
of a C string and stands for nothing. -/
def readCharacter (a : UInt8) (s : Bytes) : Option (Nat × Nat) :=
  if a = 0x5c then readEscape s
  else if 0 < a ∧ a < 0x80 then some (a.toNat, 0)
  else none

/-- The code points of a text, with `skip` bytes of a sequence to pass. -/
def readFrom : Nat → Bytes → Option (List Nat)
  | _, [] => some []
  | skip + 1, _ :: s => readFrom skip s
  | 0, a :: s =>
    match readCharacter a s with
    | none => none
    | some (c, k) => (readFrom k s).map (c :: ·)

def readText (s : Bytes) : Option (List Nat) := readFrom 0 s

theorem readFrom_skip (l s : Bytes) : readFrom l.length (l ++ s) = readText s := by
  induction l with
  | nil => rfl
  | cons a l ih => exact ih

theorem readText_cons {a : UInt8} {l s : Bytes} {c : Nat} (h : readCharacter a (l ++ s) = some (c, l.length)) :
    readText (a :: (l ++ s)) = (readText s).map (c :: ·) := by
  rw [readText, readFrom, h]
  simp only [readFrom_skip]

theorem readText_of_none {a : UInt8} {s : Bytes} (h : readCharacter a s = none) : readText (a :: s) = none := by
  rw [readText, readFrom, h]

theorem readText_ascii {n : Nat} (h0 : 0 < n) (hn : n < 0x80) (s : Bytes) :
    readText (escaped n ++ s) = (readText s).map (n :: ·) := by
  have hcases : ∀ n < 0x80, 0 < n → escaped n = [n.toUInt8] ∧ readCharacter n.toUInt8 s = some (n, 0) ∨
      ∃ e, escaped n = [0x5c, e] ∧ readCharacter 0x5c (e :: s) = some (n, 1) := by
    intro n hn h0
    by_cases hspecial : IsSpecial n
    · right
      rcases hspecial with rfl | rfl | rfl | rfl | rfl
      · exact ⟨0x74, by decide, rfl⟩
      · exact ⟨0x6e, by decide, rfl⟩
      · exact ⟨0x72, by decide, rfl⟩
      · exact ⟨0x5c, by decide, rfl⟩
      · exact ⟨0x22, by decide, rfl⟩
    · left
      refine ⟨escaped_ascii hn hspecial, ?_⟩
      have hnat : n.toUInt8.toNat = n := (toUInt8_eq_iff (by omega) _).1 rfl |>.symm
      have hpos : 0 < n.toUInt8 ∧ n.toUInt8 < 0x80 := by
        rw [UInt8.lt_iff_toNat_lt, UInt8.lt_iff_toNat_lt, hnat]
        exact ⟨h0, hn⟩
      rw [readCharacter, if_neg (toUInt8_ne_backslash hn hspecial), if_pos hpos, hnat]
  rcases hcases n hn h0 with ⟨hesc, hread⟩ | ⟨e, hesc, hread⟩
  · rw [hesc]
    exact readText_cons (l := []) hread
  · rw [hesc]
    exact readText_cons (l := [e]) hread

/-- Four digits are read, however many there are. -/
theorem readText_four {n : Nat} (hn : n < 0x10000) (s : Bytes) :
    readText (0x5c :: 0x75 :: (hexFixed 4 n ++ s)) = (readText s).map (n :: ·) := by
  have htake : (hexFixed 4 n ++ s).take 4 = hexFixed 4 n := List.take_left' (length_hexFixed 4 n)
  have hall : (hexFixed 4 n).all isHex = true := List.all_eq_true.2 fun a ha => isHex_of_mem_hexFixed ha
  refine readText_cons (l := 0x75 :: hexFixed 4 n) ?_
  have hhex : readHex 4 (hexFixed 4 n ++ s) = some (n, 5) := by
    rw [readHex, htake, if_pos ⟨length_hexFixed 4 n, hall⟩, hexValue_hexFixed,
      Nat.mod_eq_of_lt (show n < 16 ^ 4 by omega)]
  rw [List.length_cons, length_hexFixed, ← hhex]
  rfl

theorem readText_wide {n : Nat} (h1 : 0x80 ≤ n) (h2 : n < 0x10000) (s : Bytes) :
    readText (escaped n ++ s) = (readText s).map (n :: ·) := by
  rw [escaped_wide h1, hexWidth, if_pos h2]
  exact readText_four h2 s

/-- Of five digits the last one is a character of its own. -/
theorem readText_five {n : Nat} (h1 : 0x10000 ≤ n) (h2 : n < 0x100000) (s : Bytes) :
    ∃ d < 0x80, readText (escaped n ++ s) = (readText s).map (n / 16 :: d :: ·) := by
  have hdigit : ∀ d < 16, 0 < (hexDigit d).toNat ∧ (hexDigit d).toNat < 0x80 ∧ ¬ IsSpecial (hexDigit d).toNat := by
    decide
  obtain ⟨hpos, hlt, hno⟩ := hdigit (n % 16) (Nat.mod_lt _ (by decide))
  have hlast : escaped (hexDigit (n % 16)).toNat = [hexDigit (n % 16)] := by
    rw [escaped_ascii hlt hno]
    exact congrArg (· :: []) UInt8.ofNat_toNat
  have hsplit : escaped n ++ s =
      0x5c :: 0x75 :: (hexFixed 4 (n / 16) ++ (escaped (hexDigit (n % 16)).toNat ++ s)) := by
    rw [escaped_wide (by omega), hexWidth, if_neg (by omega), if_pos h2, hexFixed, hlast]
    simp
  refine ⟨(hexDigit (n % 16)).toNat, hlt, ?_⟩
  rw [hsplit, readText_four (by omega), readText_ascii hpos hlt, Option.map_map]
  rfl

theorem readText_escaped {n : Nat} (h1 : 0 < n) (h2 : n < 0x10000) (s : Bytes) :
    readText (escaped n ++ s) = (readText s).map (n :: ·) := by
  rcases Nat.lt_or_ge n 0x80 with h | h
  · exact readText_ascii h1 h s
  · exact readText_wide h h2 s

/-! ## What the writer makes of a string -/

theorem escape_cp {c : Nat} (hc : c < 0x100000) (rest : Bytes) :
    escape (rdfstoreUtf8CpToUtf8 c ++ rest) = (escape rest).map (escaped c ++ ·) := by
  rcases Nat.lt_or_ge c 0x80 with h | h
  · rw [cpToUtf8_one h]
    exact escapeFrom_ascii h rest
  · exact (escapeFrom_wide h (hc.trans (by decide)) rest).trans (if_pos hc)

/-- The sequences of further code points do not fit `es`. -/
theorem escape_cp_of_ge {c : Nat} (h1 : 0x100000 ≤ c) (h2 : c < 0x80000000) (rest : Bytes) :
    escape (rdfstoreUtf8CpToUtf8 c ++ rest) = none := by
  refine (escapeFrom_sequence (by omega) h2 rest).trans (if_pos ?_)
  rcases Nat.lt_or_ge c 0x200000 with h | h
  · rw [escapeSequence_of_lt (by omega) h, length_escaped_wide (by omega)]
    omega
  · unfold escapeSequence esSize
    split
    · rw [List.length_cons, List.length_cons, length_hexFixed, hexWidth]
      split_ifs <;> omega
    · simp

/-- A byte that begins no character is dropped, or copied with some of those behind it. -/
theorem escape_invalid {a : UInt8} {rest es : Bytes} (h : rdfstoreUtf8IsUtf8 (a :: rest) = none)
    (hes : escape (a :: rest) = some es) :
    escape rest = some es ∨ ∃ tail, es = a :: tail ∧ 0x80 ≤ a := by
  have ha : 0x80 ≤ a := by
    by_contra hno
    rw [isUtf8_ascii (by simpa using hno)] at h
    cases h
  have hne : ∀ b : UInt8, b < 0x80 → a ≠ b := by
    rintro b hb rfl
    exact absurd ha (UInt8.not_le.2 hb)
  rw [escape, escapeFrom, if_neg (hne _ (by decide)), if_neg (hne _ (by decide)), if_neg (hne _ (by decide)),
    if_neg (hne _ (by decide)), if_neg (hne _ (by decide)), h] at hes
  simp only at hes
  split at hes
  · obtain ⟨es', hes', rfl⟩ := Option.map_eq_some_iff.1 hes
    cases hsize : invalidSize a with
    | zero => exact Or.inl hes'
    | succ size => exact Or.inr ⟨_, rfl, ha⟩
  · cases hes

theorem length_escaped_le {n : Nat} (hn : n < 0x10000) : (escaped n).length ≤ 6 := by
  rcases Nat.lt_or_ge n 0x80 with h | h
  · by_cases hspecial : IsSpecial n
    · rcases hspecial with rfl | rfl | rfl | rfl | rfl <;> decide
    · rw [escaped_ascii h hspecial]
      exact Nat.succ_le_succ (Nat.zero_le _)
  · rw [escaped_wide h, hexWidth, if_pos hn, List.length_cons, List.length_cons, length_hexFixed]

/-- Characters of one to three bytes, none of them NUL, are read back. -/
theorem readText_escape_of_short {cps : List Nat} (h : ∀ c ∈ cps, 0 < c ∧ c < 0x10000) :
    ∃ es, escape (utf8Encode cps) = some es ∧ es.length ≤ (utf8Encode cps).length * escapeRoom ∧
      readText es = some cps := by
  induction cps with
  | nil => exact ⟨[], rfl, Nat.zero_le _, rfl⟩
  | cons c cps ih =>
    obtain ⟨⟨hpos, hlt⟩, hcps⟩ := List.forall_mem_cons.1 h
    obtain ⟨es, hes, hlen, hread⟩ := ih hcps
    have hsize : (escaped c).length ≤ escapeRoom := (length_escaped_le hlt).trans (by decide)
    have hone := List.length_pos_iff.2 (cpToUtf8_ne_nil c)
    refine ⟨escaped c ++ es, ?_, ?_, ?_⟩
    · rw [utf8Encode_cons, escape_cp (by omega), hes]
      rfl
    · rw [utf8Encode_cons, List.length_append, List.length_append, Nat.add_mul]
      have hroom : escapeRoom ≤ (rdfstoreUtf8CpToUtf8 c).length * escapeRoom := Nat.le_mul_of_pos_left _ hone
      omega
    · rw [readText_escaped hpos hlt, hread]
      rfl

/-- What is read back holds nothing beyond U+FFFF; and if the string holds nothing beyond either, a
byte that begins no character is missing. -/
theorem readText_escape {s es : Bytes} {cps : List Nat} (hes : escape s = some es) (hread : readText es = some cps) :
    (∀ c ∈ cps, c < 0x10000) ∧ ((∀ c ∈ codePoints s, c < 0x10000) →
      cps.length ≤ (codePoints s).length ∧
        (cps.length = (codePoints s).length → IsUtf8Text s ∧ ∀ c ∈ codePoints s, 0 < c)) := by
  induction s using Utf8Text.induction generalizing es cps with
  | nil =>
    cases hes
    cases hread
    exact ⟨fun c hc => (by cases hc), fun _ => ⟨le_rfl, fun _ => ⟨.nil, fun c hc => (by cases hc)⟩⟩⟩
  | cp c hc rest ih =>
    rcases Nat.lt_or_ge c 0x100000 with hsmall | hbig
    · rw [escape_cp hsmall] at hes
      obtain ⟨es', hes', rfl⟩ := Option.map_eq_some_iff.1 hes
      rw [codePoints_cp hc]
      rcases Nat.eq_zero_or_pos c with rfl | hpos
      · have hnul : readText (escaped 0 ++ es') = none := @readText_of_none 0 es' rfl
        rw [hnul] at hread
        cases hread
      rcases Nat.lt_or_ge c 0x10000 with hshort | hlong
      · rw [readText_escaped hpos hshort] at hread
        obtain ⟨cps', hread', rfl⟩ := Option.map_eq_some_iff.1 hread
        obtain ⟨hcps, hall⟩ := ih hes' hread'
        refine ⟨List.forall_mem_cons.2 ⟨hshort, hcps⟩, fun h => ?_⟩
        obtain ⟨hle, heq⟩ := hall (List.forall_mem_cons.1 h).2
        refine ⟨Nat.succ_le_succ hle, fun hlen => ?_⟩
        obtain ⟨htext, hnul⟩ := heq (Nat.succ.inj hlen)
        exact ⟨htext.append_cp hc, List.forall_mem_cons.2 ⟨hpos, hnul⟩⟩
      · obtain ⟨d, hd, hfive⟩ := readText_five hlong hsmall es'
        rw [hfive] at hread
        obtain ⟨cps', hread', rfl⟩ := Option.map_eq_some_iff.1 hread
        obtain ⟨hcps, -⟩ := ih hes' hread'
        refine ⟨List.forall_mem_cons.2 ⟨by omega, List.forall_mem_cons.2 ⟨by omega, hcps⟩⟩, fun h => ?_⟩
        exact absurd (List.forall_mem_cons.1 h).1 (not_lt.2 hlong)
    · rw [escape_cp_of_ge hbig hc] at hes
      cases hes
  | invalid a rest h ih =>
    rw [codePoints_invalid h]
    rcases escape_invalid h hes with hes' | ⟨tail, rfl, ha⟩
    · obtain ⟨hcps, hall⟩ := ih hes' hread
      refine ⟨hcps, fun hlt => ?_⟩
      obtain ⟨hle, -⟩ := hall (List.forall_mem_cons.1 hlt).2
      rw [List.length_cons]
      exact ⟨by omega, fun heq => by omega⟩
    · have hnone : readCharacter a tail = none := by
        have hne : a ≠ 0x5c := by
          rintro rfl
          exact absurd ha (by decide)
        rw [readCharacter, if_neg hne, if_neg fun hlt => absurd ha (UInt8.not_le.2 hlt.2)]
      rw [readText_of_none hnone] at hread
      cases hread

/-! ## Nodes -/

/-- What a URI or a string stands between in the text of its node. -/
def delimited : Node → Option (Bytes × Bytes × Bytes)
  | .resource r => if r.bnode then none else r.identifier.map fun id => (ascii "<", id.bytes, ascii ">")
  | .literal l => l.string.map fun string => (ascii "\"", string.bytes, ascii "\"" ++ literalSuffix l)

/-- What is written between the delimiters reads as the code points of the repaired string. -/
def EscapedFaithfully (node : Node) (opening s closing : Bytes) : Prop :=
  ∃ es, rdfstoreNtriplesNode node = some (opening ++ es ++ closing) ∧
    readText es = some (codePoints (rdfstoreUtf8StringToUtf8 s))

theorem codePoints_stringToUtf8 (s : Bytes) : codePoints (rdfstoreUtf8StringToUtf8 s) = codePoints s := by
  rw [stringToUtf8_eq, codePoints_utf8Encode (codePoints_lt s)]

theorem length_typeSuffix (l : Literal) :
    (typeSuffix l).length + (if l.lang.bytes.length > 0 then l.lang.bytes.length + 1 else 0) = suffixRoom l := by
  have hopen : (ascii "^^<").length = 3 := by decide
  have hclose : (ascii ">").length = 1 := by decide
  unfold typeSuffix suffixRoom
  by_cases hp : l.parseType = .literal
  · rw [if_pos hp, if_pos hp, List.length_append, List.length_append, hopen, hclose]
    omega
  · rw [if_neg hp, if_neg hp]
    cases l.dataType with
    | none => simp
    | some dt =>
      simp only [List.length_append, hopen, hclose]
      omega

theorem length_literalSuffix (l : Literal) : (literalSuffix l).length = suffixRoom l := by
  have hat : (ascii "@").length = 1 := by decide
  rw [← length_typeSuffix, literalSuffix, List.length_append]
  split
  · rw [List.length_append, hat]
    omega
  · rw [List.length_nil]
    omega

/-- The text of a node is its delimiters and the escaped string, and takes the room of the node at most
when that is written in ten bytes for each. -/
theorem nodeText_of_delimited {node : Node} {opening s closing : Bytes}
    (h : delimited node = some (opening, s, closing)) :
    nodeText node = (escape s).map (fun es => opening ++ es ++ closing) ∧
      ∀ es : Bytes, es.length ≤ s.length * escapeRoom → (opening ++ es ++ closing).length + 1 ≤ nodeRoom node := by
  cases node with
  | resource r =>
    by_cases hb : r.bnode = true
    · rw [delimited, if_pos hb] at h
      cases h
    · rw [delimited, if_neg hb] at h
      obtain ⟨id, hid, heq⟩ := Option.map_eq_some_iff.1 h
      cases heq
      have hopen : (ascii "<").length = 1 := by decide
      have hclose : (ascii ">").length = 1 := by decide
      refine ⟨by simp only [nodeText, hid, hb, Bool.false_eq_true, if_false], fun es hlen => ?_⟩
      simp only [nodeRoom, Resource.bytes, hid, hb, Bool.false_eq_true, if_false, List.length_append, hopen, hclose,
        Option.map_some, Option.getD_some]
      omega
  | literal l =>
    obtain ⟨string, hstring, heq⟩ := Option.map_eq_some_iff.1 h
    cases heq
    have hquote : (ascii "\"").length = 1 := by decide
    refine ⟨by simp only [nodeText, Literal.bytes, hstring, Option.map_some, Option.getD_some, List.append_assoc],
      fun es hlen => ?_⟩
    simp only [nodeRoom, hstring, List.length_append, hquote, length_literalSuffix]
    omega

/-- The string of a node is written faithfully exactly when it is made of characters of one to three
bytes, none of them NUL, and the buffer is of a size that C's `int` can hold. -/
theorem escapedFaithfully_iff {node : Node} {opening s closing : Bytes}
    (h : delimited node = some (opening, s, closing)) :
    EscapedFaithfully node opening s closing ↔
      IsUtf8Text s ∧ (∀ c ∈ codePoints s, 0 < c ∧ c < 0x10000) ∧ nodeRoom node < 2 ^ 31 := by
  obtain ⟨htext, hroom⟩ := nodeText_of_delimited h
  unfold EscapedFaithfully rdfstoreNtriplesNode
  rw [codePoints_stringToUtf8, htext]
  constructor
  · rintro ⟨es, hwritten, hread⟩
    cases hes : escape s with
    | none =>
      rw [hes] at hwritten
      cases hwritten
    | some es' =>
      rw [hes] at hwritten
      simp only [Option.map_some, written] at hwritten
      split at hwritten
      · next hfits =>
        have hsame := List.append_cancel_right (Option.some.inj hwritten)
        cases List.append_cancel_left hsame
        obtain ⟨hlt, hall⟩ := readText_escape hes hread
        obtain ⟨hutf8, hnul⟩ := (hall hlt).2 rfl
        exact ⟨hutf8, fun c hc => ⟨hnul c hc, hlt c hc⟩, hfits.2⟩
      · cases hwritten
  · rintro ⟨hutf8, hshort, hfits⟩
    obtain ⟨es, hes, hlen, hread⟩ := readText_escape_of_short hshort
    rw [hutf8.utf8Encode_codePoints] at hes hlen
    refine ⟨es, ?_, hread⟩
    rw [hes]
    exact if_pos ⟨hroom es hlen, hfits⟩

/-- A literal with nothing but a string. -/
def plainString (string : CBuf) : Node := .literal ⟨some string, .normal, .empty, none, 0⟩

/-- An e with an acute accent is written as `\u00E9`. -/
theorem escapedFaithfully_acute :
    EscapedFaithfully (plainString ⟨[0xc3, 0xa9], by decide⟩) (ascii "\"") [0xc3, 0xa9] (ascii "\"") := by
  have htext : IsUtf8Text [0xc3, 0xa9] := .cons (n := 2) (by decide) .nil
  exact (@escapedFaithfully_iff (plainString ⟨[0xc3, 0xa9], by decide⟩) _ _ _ rfl).2
    ⟨htext, by decide, by decide⟩

/-- U+1F600 is written as `\u1F600`, which is U+1F60 and a digit. -/
theorem not_escapedFaithfully_emoji :
    rdfstoreNtriplesNode (plainString ⟨[0xf0, 0x9f, 0x98, 0x80], by decide⟩) = some (ascii "\"\\u1F600\"") ∧
      codePoints (rdfstoreUtf8StringToUtf8 [0xf0, 0x9f, 0x98, 0x80]) = [0x1F600] ∧
      readText (ascii "\\u1F600") = some [0x1F60, 0x30] ∧
      ¬ EscapedFaithfully (plainString ⟨[0xf0, 0x9f, 0x98, 0x80], by decide⟩) (ascii "\"") [0xf0, 0x9f, 0x98, 0x80]
        (ascii "\"") := by
  have hwritten : rdfstoreNtriplesNode (plainString ⟨[0xf0, 0x9f, 0x98, 0x80], by decide⟩) =
      some (ascii "\"" ++ ascii "\\u1F600" ++ ascii "\"") := by decide
  have hcps : codePoints (rdfstoreUtf8StringToUtf8 [0xf0, 0x9f, 0x98, 0x80]) = [0x1F600] := by decide
  have hread : readText (ascii "\\u1F600") = some [0x1F60, 0x30] := by decide
  refine ⟨hwritten, hcps, hread, ?_⟩
  rintro ⟨es, hes, hsame⟩
  rw [hwritten, Option.some_inj] at hes
  rw [← List.append_cancel_left (List.append_cancel_right hes), hread, hcps] at hsame
  cases hsame

end RdfStore.NTriples
