import RdfStore.NTriples.Literals
import RdfStore.Concrete

/-!
# Writing a statement and reading it

    a statement is read back if and only if its terms have nothing that only one
      of writer and reader escapes, and its line fits the buffer     (readsBack_iff)
-/

namespace RdfStore.NTriples

open ByteMem Scan

/-- The line that is written is read as a statement that says the same. -/
def ReadsBack (sSource : Option Bytes) (st : Statement) (givenContext : Option Resource) : Prop :=
  ∃ line st', rdfstoreNtriplesStatement st givenContext = some line ∧
    ppNTriple sSource line = .asserted (some st') ∧
    statementContents st' st'.context = statementContents st (givenContext <|> st.context)

/-! ## One term after the other -/

/-- Neither a blank nor the beginning of a sequence. -/
def Solid (s : Bytes) : Prop := ∃ a t, s = a :: t ∧ isBlank a = false ∧ a ≠ 0x5c

theorem Solid.unescape {s : Bytes} (h : Solid s) : Solid (unescape s) := by
  obtain ⟨a, t, rfl, ha, hne⟩ := h
  exact ⟨a, _, unescape_cons hne t, ha, hne⟩

theorem Solid.skipBlanks {s : Bytes} (h : Solid s) : skipBlanks (0x20 :: s) = s := by
  obtain ⟨a, t, rfl, ha, -⟩ := h
  have hblank : isBlank 0x20 = true := by decide
  simp [NTriples.skipBlanks, hblank, ha]

theorem Solid.blanks {s : Bytes} (h : Solid s) : blanks (0x20 :: s) = some s := by
  have hskip := h.skipBlanks
  have hblank : isBlank 0x20 = true := by decide
  unfold NTriples.skipBlanks at hskip
  simp only [NTriples.blanks, List.head?_cons, Option.any_some, hblank, if_true, hskip]

theorem Name.text_cons (n : Name) : ∃ a t, n.text = a :: t ∧ (a = 0x3c ∨ a = 0x5f) := by
  cases n with
  | uri text => exact ⟨0x3c, _, rfl, .inl rfl⟩
  | bnode label => exact ⟨0x5f, _, rfl, .inr rfl⟩

theorem Name.solid (n : Name) (s : Bytes) : Solid (n.text ++ s) := by
  obtain ⟨a, t, ht, ha⟩ := n.text_cons
  refine ⟨a, t ++ s, by rw [ht]; rfl, ?_⟩
  rcases ha with rfl | rfl <;> decide

theorem Term.solid (t : Term) (s : Bytes) : Solid (t.text ++ s) := by
  cases t with
  | name n => exact n.solid s
  | literal text lang dataType parseType => exact ⟨0x22, _, rfl, by decide⟩

/-- A name is always read as some name. -/
theorem scanName_isSome {n : Name} (hn : n.WellFormed) (s : Bytes) :
    ∃ o rest, scanName (unescape (n.text ++ 0x20 :: s)) = some (o, rest) := by
  cases n with
  | uri text =>
    obtain ⟨x, y, h, -⟩ := scanName_uri text (0x20 :: s)
    exact ⟨_, _, h⟩
  | bnode label => exact ⟨_, _, scanName_bnode hn s⟩

theorem Name.length_bytes_lt {n : Name} (hroom : n.room ≤ 2 ^ 31) : n.bytes.length < 2 ^ 31 := by
  cases n with
  | uri text =>
    have hle : (utf8 text).length ≤ (utf8 text).length * escapeRoom := Nat.le_mul_of_pos_right _ (by decide)
    simp only [Name.room] at hroom
    simp only [Name.bytes]
    omega
  | bnode label =>
    simp only [Name.room] at hroom
    simp only [Name.bytes]
    omega

theorem scanSubject_of_plain {n : Name} (hn : n.WellFormed) (hplain : n.Plain) (hroom : n.room ≤ 2 ^ 31) {s : Bytes}
    (hs : Solid s) :
    ∃ r, scanSubject (unescape (n.text ++ 0x20 :: s)) = some (some r, unescape s) ∧
      resourceContents r = n.contents := by
  obtain ⟨r, hscan, hr⟩ := scanName_of_plain hn hplain (Name.length_bytes_lt hroom) s
  refine ⟨r, ?_, hr⟩
  rw [scanSubject_eq, hscan]
  simp only [Option.bind_some, hs.unescape.blanks, Option.map_some]

theorem scanSubject_eq_some {s rest : Bytes} {o : Option Resource} (h : scanSubject s = some (o, rest)) :
    ∃ rest', scanName s = some (o, rest') ∧ blanks rest' = some rest := by
  rw [scanSubject_eq] at h
  obtain ⟨⟨o', rest'⟩, hscan, hmap⟩ := Option.bind_eq_some_iff.1 h
  obtain ⟨rest'', hblanks, heq⟩ := Option.map_eq_some_iff.1 hmap
  cases heq
  exact ⟨rest', hscan, hblanks⟩

/-! ## Objects -/

/-- What may stand behind an object: nothing, or something that is no blank. -/
def Follows (s : Bytes) : Prop := s = [] ∨ Solid s

theorem Follows.skipBlanks {s : Bytes} (h : Follows s) : skipBlanks (0x20 :: unescape s) = unescape s := by
  rcases h with rfl | h
  · rfl
  · exact h.unescape.skipBlanks

theorem scanName_of_quote (s : Bytes) : scanName (0x22 :: s) = none := by
  have hnode : scanNodeId (0x22 :: s) = none := by
    match s with
    | [] => rfl
    | [b] => rfl
    | b :: c :: s =>
      rw [scanNodeId, if_neg]
      exact fun h => absurd h.1 (by decide)
  unfold scanName
  rw [scanUriref_of_ne (by decide), hnode]
  rfl

theorem scanObject_of_plain {t : Term} (ht : t.WellFormed) (hnul : t.NoNul) (hplain : t.Plain)
    (hroom : t.room ≤ 2 ^ 31) {s : Bytes} (hs : Follows s) (hquote : t.IsName ∨ 0x22 ∉ unescape s) :
    ∃ node, scanObject (unescape (t.text ++ 0x20 :: s)) = some (some node, unescape s) ∧
      nodeContents node = t.contents := by
  cases t with
  | name n =>
    obtain ⟨r, hscan, hr⟩ := scanName_of_plain ht hplain (Name.length_bytes_lt hroom) s
    refine ⟨.resource r, ?_, hr⟩
    rw [scanObject_eq, Term.text, hscan]
    simp only [Option.map_some, hs.skipBlanks]
  | literal text lang dataType parseType =>
    obtain ⟨found, node, hscan, hnode, hcontents⟩ :=
      scanLiteral_of_plain ht hnul hplain hroom (hquote.resolve_left id)
    refine ⟨node, ?_, hcontents⟩
    rw [scanObject_eq, hscan]
    rw [unescape_literal, scanName_of_quote]
    simp only [Option.map_some, hnode, hs.skipBlanks]

/-- What is read back as an object was plain, and did not stand there twice as a literal. -/
theorem plain_of_scanObject {t : Term} (ht : t.WellFormed) (hsmall : t.Small) (hroom : t.room ≤ 2 ^ 31)
    {s rest : Bytes} (hs : Follows s) {node : Node}
    (h : scanObject (unescape (t.text ++ 0x20 :: s)) = some (some node, rest))
    (hcontents : nodeContents node = t.contents) :
    t.Plain ∧ rest = unescape s ∧ (t.IsName ∨ ∀ a b, s ≠ a ++ 0x20 :: (t.text ++ 0x20 :: b)) := by
  rw [scanObject_eq] at h
  cases t with
  | name n =>
    obtain ⟨o, rest', hscan⟩ := scanName_isSome ht s
    rw [Term.text, hscan] at h
    simp only [Option.some_inj, Prod.mk.injEq] at h
    obtain ⟨r, rfl, rfl⟩ := Option.map_eq_some_iff.1 h.1
    have hplain := plain_of_scanName ht hsmall hscan hcontents
    obtain ⟨_, hscan', -⟩ := scanName_of_plain ht hplain (Name.length_bytes_lt hroom) s
    rw [hscan] at hscan'
    obtain rfl : rest' = _ := (Prod.mk.inj (Option.some_inj.1 hscan')).2
    exact ⟨hplain, h.2.symm.trans hs.skipBlanks, .inl trivial⟩
  | literal text lang dataType parseType =>
    have hname : scanName (unescape (Term.text (.literal text lang dataType parseType) ++ 0x20 :: s)) = none := by
      rw [unescape_literal]
      exact scanName_of_quote _
    rw [hname] at h
    obtain ⟨⟨found, rest'⟩, hscan, heq⟩ := Option.map_eq_some_iff.1 h
    simp only [Prod.mk.injEq] at heq
    obtain ⟨hplain, p, hp, hlast, hfound, hrest, hmatch⟩ := plain_of_scanLiteral ht hsmall hscan heq.1 hcontents
    obtain ⟨x, c⟩ := found
    obtain rfl : x = utf8 text := hfound
    rw [hrest, hs.skipBlanks] at heq
    refine ⟨hplain, heq.2.symm, .inr ?_⟩
    rintro a b rfl
    -- the quotation mark of the second one matches as well, and is the later one
    obtain ⟨hunharmed, ⟨hlen, -⟩, hwritten, hseq⟩ := hplain
    have hlang := langWellFormed ht
    have hfacts := @writtenType_facts dataType parseType ht.2
    have hseq' : ∀ dt ∈ writtenType dataType parseType, NoSequence dt := by
      rw [hwritten]
      intro dt hdt
      obtain ⟨d, hd, rfl⟩ := Option.map_eq_some_iff.1 hdt
      exact hseq d hd
    have hagain := suffix_again hlang hlen (fun dt hdt => (hfacts dt hdt).1) hp hmatch (unescape b)
    have hsecond : unescape (a ++ 0x20 :: (Term.text (.literal text lang dataType parseType) ++ 0x20 :: b)) =
        unescape a ++ 0x20 :: 0x22 :: (utf8 text ++ 0x22 ::
          (suffixText lang (writtenType dataType parseType) ++ 0x20 :: unescape b)) := by
      rw [unescape_append stops_blank, unescape_literal, unescape_escaped hunharmed (stops_quote.noHexHead _),
        unescape_cons (by decide), unescape_suffixText hlang hseq']
    rw [hsecond] at hlast
    have hsplit : utf8 text ++ 0x22 :: (suffixText lang (writtenType dataType parseType) ++ 0x20 ::
          (unescape a ++ 0x20 :: 0x22 :: (utf8 text ++ 0x22 ::
            (suffixText lang (writtenType dataType parseType) ++ 0x20 :: unescape b)))) =
        (utf8 text ++ 0x22 :: (suffixText lang (writtenType dataType parseType) ++ 0x20 ::
          (unescape a ++ 0x20 :: 0x22 :: utf8 text))) ++ 0x22 ::
            (suffixText lang (writtenType dataType parseType) ++ 0x20 :: unescape b) := by simp
    have hle := lastSplit_longest hlast hsplit hagain
    simp only [List.length_append, List.length_cons] at hle
    omega

/-! ## Contexts -/

theorem scanContext_name {n : Name} (hn : n.WellFormed) {s : Bytes} {o : Option Resource} :
    scanContext (unescape (n.text ++ 0x20 :: s)) = some o ↔
      ∃ rest, scanName (unescape (n.text ++ 0x20 :: s)) = some (o, rest) := by
  obtain ⟨o', rest', hscan⟩ := scanName_isSome hn s
  have hne : unescape (n.text ++ 0x20 :: s) ≠ [] := by
    obtain ⟨a, t, h, -⟩ := (n.solid (0x20 :: s)).unescape
    rw [h]
    simp
  rw [scanContext_eq, if_neg hne, hscan]
  simp

theorem scanContext_stop (s : Bytes) : scanContext (0x2e :: s) = some none := by
  have hnode : scanNodeId (0x2e :: s) = none := by
    match s with
    | [] => rfl
    | [b] => rfl
    | b :: c :: s =>
      rw [scanNodeId, if_neg]
      exact fun h => absurd h.1 (by decide)
  have hname : scanName (0x2e :: s) = none := by
    unfold scanName
    rw [scanUriref_of_ne (by decide), hnode]
    rfl
  have hwhite : isWhite 0x2e = false := by decide
  have hstop : startsWithFullStop (0x2e :: s) = true := by
    simp [startsWithFullStop, hwhite]
  rw [scanContext_eq, if_neg (by simp), hname, hstop]
  rfl

/-! ## Characters that may stand in a line -/

theorem allowed_ascii : ∀ n < 0x80, (isAllowed n.toUInt8 = true ↔
    (0x20 ≤ n ∧ n ≠ 0x7f) ∨ n = 0x09 ∨ n = 0x0a ∨ n = 0x0d) := by
  decide

theorem allowed_iff {n : Nat} (hn : n < 0x80) (h : ¬ IsSpecial n) :
    isAllowed n.toUInt8 = true ↔ 0x20 ≤ n ∧ n ≠ 0x7f := by
  rw [allowed_ascii n hn]
  unfold IsSpecial at h
  omega

theorem isAllowed_of_isHex {a : UInt8} (h : isHex a = true) : isAllowed a = true := by
  unfold isHex isDigit at h
  unfold isAllowed
  simp only [Bool.or_eq_true, Bool.and_eq_true, decide_eq_true_eq, UInt8.le_iff_toNat_le, UInt8.reduceToNat] at h ⊢
  omega

theorem escaped_allowed {n : Nat} (h : n < 0x80 → 0x20 ≤ n ∧ n ≠ 0x7f) : ∀ b ∈ escaped n, isAllowed b = true := by
  by_cases hs : IsSpecial n
  · rcases hs with rfl | rfl | rfl | rfl | rfl <;> decide +kernel
  by_cases ha : n < 0x80
  · rw [escaped_ascii ha hs]
    simpa using (allowed_iff ha hs).2 (h ha)
  · rw [escaped_wide (not_lt.1 ha), List.forall_mem_cons, List.forall_mem_cons]
    exact ⟨by decide, by decide, fun b hb => isAllowed_of_isHex (isHex_of_mem_hexFixed hb)⟩

theorem escapedText_allowed {text : List Char} (h : ∀ c ∈ text, IsPrintable c) :
    ∀ b ∈ escapedText text, isAllowed b = true := by
  intro b hb
  obtain ⟨c, hc, hb⟩ := List.mem_flatMap.1 hb
  exact escaped_allowed (h c hc) b hb

theorem printable_of_allowed {text : List Char} (h : ∀ b ∈ escapedText text, isAllowed b = true) {c : Char}
    (hc : c ∈ text) (hs : ¬ IsSpecial c.toNat) : IsPrintable c := by
  intro ha
  have hb : c.toNat.toUInt8 ∈ escapedText text := by
    refine List.mem_flatMap.2 ⟨c, hc, ?_⟩
    rw [escaped_ascii ha hs]
    exact List.mem_cons_self
  exact (allowed_iff ha hs).1 (h _ hb)

def Name.Printable : Name → Prop
  | .uri text => ∀ c ∈ text, IsPrintable c
  | .bnode _ => True

/-- A control character of a URI is not allowed; what has an escape sequence is no control character. -/
theorem name_allowed {n : Name} (hn : n.WellFormed) : (∀ b ∈ n.text, isAllowed b = true) ↔ n.Printable := by
  cases n with
  | uri text =>
    simp only [Name.text, List.forall_mem_cons, List.forall_mem_append]
    constructor
    · rintro ⟨-, h, -⟩ c hc
      by_cases hs : IsSpecial c.toNat
      · have hc' := hn.2 c hc
        intro ha
        unfold IsUriChar at hc'
        unfold IsSpecial at hs
        omega
      · exact printable_of_allowed h hc hs
    · exact fun h => ⟨by decide, escapedText_allowed h, by decide, List.forall_mem_nil _⟩
  | bnode label =>
    obtain ⟨a, l, rfl, ha, hl⟩ := hn
    have hlabel : ∀ a, isLabelChar a = true → isAllowed a = true := by
      intro a h
      unfold isLabelChar isLetter isDigit at h
      unfold isAllowed
      simp only [Bool.or_eq_true, Bool.and_eq_true, decide_eq_true_eq, UInt8.le_iff_toNat_le, UInt8.reduceToNat] at h ⊢
      omega
    simp only [Name.text, List.forall_mem_cons]
    exact ⟨fun _ => trivial, fun _ => ⟨by decide, by decide, hlabel a (by simp [isLabelChar, ha]),
      fun b hb => hlabel b (hl b hb)⟩⟩

theorem not_allowed_wide {c : Nat} (h1 : 0x80 ≤ c) (hc : c < 0x200000) :
    ∃ b ∈ rdfstoreUtf8CpToUtf8 c, isAllowed b = false := by
  obtain ⟨bytes, hbytes, hwide⟩ := cpToUtf8_bytes h1 (by omega)
  cases bytes with
  | nil => exact absurd hbytes (cpToUtf8_ne_nil c)
  | cons b bytes =>
    obtain ⟨hlo, hhi⟩ := hwide b List.mem_cons_self
    have hfalse : ∀ b, 0x80 ≤ b → b < 256 → isAllowed b.toUInt8 = false := by decide
    exact ⟨b.toUInt8, by rw [hbytes]; exact List.mem_cons_self, hfalse b hlo hhi⟩

/-- What is not escaped has to be printable ASCII. -/
theorem utf8_allowed {text : List Char} (h : ∀ c ∈ text, IsUriChar c) :
    (∀ b ∈ utf8 text, isAllowed b = true) ↔ ∀ c ∈ text, c.toNat < 0x80 ∧ IsPrintable c := by
  constructor
  · intro hall c hc
    have hbytes : ∀ b ∈ rdfstoreUtf8CpToUtf8 c.toNat, isAllowed b = true := fun b hb =>
      hall b (List.mem_flatMap.2 ⟨c, hc, hb⟩)
    have hascii : c.toNat < 0x80 := by
      by_contra hwide
      have hlt := char_lt c
      obtain ⟨b, hb, hfalse⟩ := not_allowed_wide (not_lt.1 hwide) (show c.toNat < 0x200000 by omega)
      rw [hbytes b hb] at hfalse
      cases hfalse
    refine ⟨hascii, fun _ => ?_⟩
    have hone := hbytes c.toNat.toUInt8 (by rw [cpToUtf8_one hascii]; exact List.mem_cons_self)
    have huri := h c hc
    rw [allowed_ascii _ hascii] at hone
    unfold IsUriChar at huri
    omega
  · intro hall b hb
    obtain ⟨c, hc, hb⟩ := List.mem_flatMap.1 hb
    obtain ⟨hascii, hprint⟩ := hall c hc
    rw [cpToUtf8_one hascii, List.mem_singleton] at hb
    rw [hb, allowed_ascii _ hascii]
    exact .inl (hprint hascii)

def Term.Printable : Term → Prop
  | .name n => n.Printable
  | .literal text _ dataType _ =>
    (∀ c ∈ text, IsPrintable c) ∧ ∀ text ∈ dataType, ∀ c ∈ text, c.toNat < 0x80 ∧ IsPrintable c

theorem langTag_allowed {lang : List Bytes} (hlang : LangWellFormed lang) : ∀ b ∈ langText lang, isAllowed b = true := by
  intro b hb
  by_contra hnot
  by_cases hchar : isLangChar b = true
  · unfold isLangChar isDigit at hchar
    unfold isAllowed at hnot
    simp only [Bool.or_eq_true, Bool.and_eq_true, decide_eq_true_eq, UInt8.le_iff_toNat_le,
      UInt8.reduceToNat] at hchar hnot
    omega
  · refine not_mem_langText hlang (Bool.eq_false_iff.2 hchar) ?_ ?_ hb
    · rintro rfl
      exact hnot (by decide)
    · rintro rfl
      exact hnot (by decide)

theorem typeText_allowed {dataType : Option (List Char)} (h : ∀ text ∈ dataType, ∀ c ∈ text, IsUriChar c) :
    (∀ b ∈ typeText (dataType.map utf8), isAllowed b = true) ↔
      ∀ text ∈ dataType, ∀ c ∈ text, c.toNat < 0x80 ∧ IsPrintable c := by
  cases dataType with
  | none => simp [typeText]
  | some text =>
    have htext := utf8_allowed (h text rfl)
    simp only [Option.map_some, typeText, List.forall_mem_cons, List.forall_mem_append]
    constructor
    · rintro ⟨-, -, -, hall, -⟩ _ ⟨⟩
      exact htext.1 hall
    · exact fun hall => ⟨by decide, by decide, by decide, htext.2 (hall text rfl), by decide, List.forall_mem_nil _⟩

theorem term_allowed {t : Term} (ht : t.WellFormed) (hplain : t.Plain) :
    (∀ b ∈ t.text, isAllowed b = true) ↔ t.Printable := by
  cases t with
  | name n => exact name_allowed ht
  | literal text lang dataType parseType =>
    obtain ⟨hunharmed, -, hwritten, -⟩ := hplain
    have htype := typeText_allowed ht.2
    have hlang := langTag_allowed (langWellFormed ht)
    simp only [Term.text, suffixText_eq, hwritten, List.forall_mem_cons, List.forall_mem_append, htype]
    constructor
    · rintro ⟨-, htext, -, -, hdt⟩
      exact ⟨fun c hc => printable_of_allowed htext hc (hunharmed.ordinary c hc), hdt⟩
    · rintro ⟨htext, hdt⟩
      exact ⟨by decide, escapedText_allowed htext, by decide, hlang, hdt⟩

/-! ## The line -/

/-- What follows the object: the context, and the lines about a reified statement. -/
def Quad.rest (q : Quad) : Bytes :=
  ((q.context.map fun n => n.text ++ [0x20]).getD []) ++ (q.reified.map fun n =>
    aboutLines (n.text ++ [0x20]) (q.subject.text ++ [0x20]) (q.predicate.text ++ [0x20])
      (q.object.text ++ [0x20])).getD []

theorem Quad.body_eq (q : Quad) :
    q.body = q.subject.text ++ 0x20 :: (q.predicate.text ++ 0x20 :: (q.object.text ++ 0x20 :: q.rest)) := by
  simp [Quad.body, Quad.terms, Quad.rest]

theorem aboutLines_cons (node s p o : Bytes) : ∃ t, aboutLines node s p o = 0x2e :: t := by
  have hstop : ascii ". \n" = [0x2e, 0x20, 0x0a] := rfl
  delta aboutLines
  simp only [List.append_assoc, hstop, List.cons_append]
  exact ⟨_, rfl⟩

theorem Quad.follows (q : Quad) : Follows q.rest := by
  unfold Quad.rest
  cases q.context with
  | some n => exact .inr (by simpa using n.solid _)
  | none =>
    cases q.reified with
    | none => exact .inl rfl
    | some n =>
      obtain ⟨t, ht⟩ := aboutLines_cons (n.text ++ [0x20]) (q.subject.text ++ [0x20]) (q.predicate.text ++ [0x20])
        (q.object.text ++ [0x20])
      simp only [Option.map_none, Option.getD_none, Option.map_some, Option.getD_some, List.nil_append, ht]
      exact .inr ⟨0x2e, t, rfl, by decide, by decide⟩

/-- A plain context is read back. -/
theorem scanContext_of_plain {q : Quad} (hq : q.WellFormed) (hplain : ∀ n ∈ q.context, n.Plain)
    (hroom : ∀ n ∈ q.context, n.room ≤ 2 ^ 31) :
    ∃ o, scanContext (unescape q.rest) = some o ∧ o.map resourceContents = q.context.map Name.contents := by
  unfold Quad.rest
  have hwf := hq.context
  cases hc : q.context with
  | some n =>
    rw [hc] at hwf hplain hroom
    obtain ⟨r, hscan, hr⟩ := scanName_of_plain (hwf n rfl) (hplain n rfl) (Name.length_bytes_lt (hroom n rfl))
      ((q.reified.map fun n => aboutLines (n.text ++ [0x20]) (q.subject.text ++ [0x20]) (q.predicate.text ++ [0x20])
        (q.object.text ++ [0x20])).getD [])
    refine ⟨some r, ?_, congrArg some hr⟩
    rw [Option.map_some, Option.getD_some, List.append_assoc, List.singleton_append]
    exact (scanContext_name (hwf n rfl)).2 ⟨_, hscan⟩
  | none =>
    refine ⟨none, ?_, rfl⟩
    cases q.reified with
    | none => rfl
    | some n =>
      obtain ⟨t, ht⟩ := aboutLines_cons (n.text ++ [0x20]) (q.subject.text ++ [0x20]) (q.predicate.text ++ [0x20])
        (q.object.text ++ [0x20])
      simp only [Option.map_none, Option.getD_none, List.nil_append, Option.map_some, Option.getD_some]
      rw [ht, unescape_cons (by decide)]
      exact scanContext_stop _

/-- A context that is read back was plain. -/
theorem plain_of_scanContext {q : Quad} (hq : q.WellFormed) (hsmall : ∀ n ∈ q.context, n.Small) {o : Option Resource}
    (h : scanContext (unescape q.rest) = some o) (ho : o.map resourceContents = q.context.map Name.contents) :
    ∀ n ∈ q.context, n.Plain := by
  intro n hn
  have hc : q.context = some n := hn
  unfold Quad.rest at h
  rw [hc, Option.map_some, Option.getD_some, List.append_assoc, List.singleton_append] at h
  obtain ⟨rest, hscan⟩ := (scanContext_name (hq.context n hn)).1 h
  rw [hc] at ho
  obtain ⟨r, rfl, hr⟩ := Option.map_eq_some_iff.1 ho
  exact plain_of_scanName (hq.context n hn) (hsmall n hn) hscan hr

/-- A plain context has no quotation mark. -/
theorem quote_not_mem_context {q : Quad} (hq : q.WellFormed) (hplain : ∀ n ∈ q.context, n.Plain)
    (hreified : q.reified = none) : 0x22 ∉ unescape q.rest := by
  have hwf := hq.context
  unfold Quad.rest
  rw [hreified]
  cases hc : q.context with
  | none => exact List.not_mem_nil
  | some n =>
    rw [hc] at hwf hplain
    simp only [Option.map_some, Option.getD_some, Option.map_none, Option.getD_none, List.append_nil]
    cases n with
    | uri text =>
      obtain ⟨hunharmed, -⟩ := hplain _ rfl
      have hquote : 0x22 ∉ utf8 text := not_mem_utf8 (by decide) fun c hc h =>
        hunharmed.ordinary c hc (by rw [h]; decide)
      have hend : unescape [0x20] = [0x20] := rfl
      rw [unescape_uri, unescape_escaped hunharmed (stops_rangle.noHexHead _), unescape_cons (by decide), hend]
      simpa using hquote
    | bnode label =>
      obtain ⟨a, l, rfl, ha, hl⟩ := hwf _ rfl
      have hlabel : ∀ b ∈ a :: l, isLabelChar b = true :=
        List.forall_mem_cons.2 ⟨by simp [isLabelChar, ha], hl⟩
      have hplain' : ∀ b ∈ 0x5f :: 0x3a :: a :: l, b ≠ 0x5c := by
        rw [List.forall_mem_cons, List.forall_mem_cons]
        exact ⟨by decide, by decide, fun b hb => isLabelChar_ne_backslash (hlabel b hb)⟩
      have hquote : ∀ b ∈ 0x5f :: 0x3a :: a :: l, b ≠ 0x22 := by
        rw [List.forall_mem_cons, List.forall_mem_cons]
        refine ⟨by decide, by decide, fun b hb => ?_⟩
        rintro rfl
        exact absurd (hlabel _ hb) (by decide)
      rw [Name.text, unescape_of_ne hplain', List.mem_append]
      rintro (hmem | hmem)
      · exact hquote _ hmem rfl
      · exact absurd hmem (by decide)

/-- Every byte may stand in a line. -/
def Allowed (s : Bytes) : Prop := ∀ b ∈ s, isAllowed b = true

theorem allowed_append {l r : Bytes} : Allowed (l ++ r) ↔ Allowed l ∧ Allowed r := List.forall_mem_append

theorem allowed_uriFields : Allowed (ascii ". \n") ∧ Allowed (uriField rdfmsType) ∧ Allowed (uriField rdfmsStatement) ∧
    Allowed (uriField rdfmsSubject) ∧ Allowed (uriField rdfmsPredicate) ∧ Allowed (uriField rdfmsObject) := by
  refine ⟨?_, ?_, ?_, ?_, ?_, ?_⟩ <;> exact forall_mem_of_all (by decide)

theorem allowed_aboutLines {node s p o : Bytes} :
    Allowed (aboutLines node s p o) ↔ Allowed node ∧ Allowed s ∧ Allowed p ∧ Allowed o := by
  have h := allowed_uriFields
  simp only [aboutLines, allowed_append, h.1, h.2.1, h.2.2.1, h.2.2.2.1, h.2.2.2.2.1, h.2.2.2.2.2, true_and, and_true]
  tauto

theorem allowed_blank : Allowed [0x20] :=
  forall_mem_of_all (by decide)

theorem body_allowed {q : Quad} :
    Allowed q.body ↔ (Allowed q.subject.text ∧ Allowed q.predicate.text ∧ Allowed q.object.text) ∧
      (∀ n ∈ q.context, Allowed n.text) ∧ ∀ n ∈ q.reified, Allowed n.text := by
  have hfields : q.body = (q.subject.text ++ [0x20]) ++ ((q.predicate.text ++ [0x20]) ++ ((q.object.text ++ [0x20]) ++
      q.rest)) := by
    rw [Quad.body_eq]
    simp
  have hnil : Allowed [] := List.forall_mem_nil _
  rw [hfields]
  unfold Quad.rest
  cases q.context <;> cases q.reified <;>
    simp only [Option.map_none, Option.getD_none, Option.map_some, Option.getD_some, allowed_append, allowed_blank,
      allowed_aboutLines, hnil, Option.mem_def, Option.some_inj, forall_eq', reduceCtorEq, false_implies,
      implies_true, and_true] <;>
    tauto

theorem Quad.body_cons (q : Quad) : ∃ a t, q.body = a :: t ∧ isWhite a = false ∧ a ≠ 0x23 := by
  obtain ⟨a, t, ht, ha⟩ := q.subject.text_cons
  refine ⟨a, _, by rw [Quad.body_eq, ht]; rfl, ?_⟩
  rcases ha with rfl | rfl <;> decide

/-- What is made of the line of a quad. -/
theorem ppNTriple_line {q : Quad} {sSource : Option Bytes} {st : Option Statement} :
    ppNTriple sSource q.line = .asserted st ↔ Allowed q.body ∧ parseTriple sSource (unescape q.body) = some st := by
  obtain ⟨a, t, hbody, ha, hcomment⟩ := q.body_cons
  rw [Quad.line, hbody]
  exact ppNTriple_eq_asserted ha hcomment

/-! ## Statements -/

/-- The subject in a new statement. -/
def subjectOf (sSource : Option Bytes) (o : Option Resource) : Option Resource :=
  (o.filter fun r => r.bytes ≠ [] ∧ r.bytes ≠ ascii "0") <|> sSource.bind createResource

theorem addTriple_eq_some {sSource : Option Bytes} {s p c : Option Resource} {o : Option Node} {st : Statement} :
    addTriple sSource s p o c = some st ↔ ∃ s' p' o', subjectOf sSource s = some s' ∧ p = some p' ∧ o = some o' ∧
      st = ⟨some s', some p', some o', c, none, 0, false⟩ := by
  have heq : addTriple sSource s p o c = (subjectOf sSource s).bind fun s' => p.bind fun p' => o.bind fun o' =>
      some ⟨some s', some p', some o', c, none, 0, false⟩ := by
    cases hsubject : subjectOf sSource s with
    | none =>
      unfold subjectOf at hsubject
      simp only [addTriple, hsubject, Option.bind_none]
    | some s' =>
      unfold subjectOf at hsubject
      cases p <;> cases o <;> simp only [addTriple, hsubject, Option.bind_none, Option.bind_some]
  simp only [heq, Option.bind_eq_some_iff, Option.some_inj]
  constructor
  · rintro ⟨s', hs, p', hp, o', ho, rfl⟩
    exact ⟨s', p', o', hs, hp, ho, rfl⟩
  · rintro ⟨s', p', o', hs, hp, ho, rfl⟩
    exact ⟨s', hs, p', hp, o', ho, rfl⟩

theorem parseTriple_eq_some {sSource : Option Bytes} {s : Bytes} {st : Option Statement} :
    parseTriple sSource s = some st ↔ ∃ os op oo oc s₁ s₂ s₃, scanSubject s = some (os, s₁) ∧
      scanSubject s₁ = some (op, s₂) ∧ scanObject s₂ = some (oo, s₃) ∧ scanContext s₃ = some oc ∧
      st = addTriple sSource os op oo oc := by
  unfold parseTriple
  simp only [Option.bind_eq_bind, Option.bind_eq_some_iff, Option.some_inj, Prod.exists]
  constructor
  · rintro ⟨os, s₁, hs, op, s₂, hp, oo, s₃, ho, oc, hc, rfl⟩
    exact ⟨os, op, oo, oc, s₁, s₂, s₃, hs, hp, ho, hc, rfl⟩
  · rintro ⟨os, op, oo, oc, s₁, s₂, s₃, hs, hp, ho, hc, rfl⟩
    exact ⟨os, s₁, hs, op, s₂, hp, oo, s₃, ho, oc, hc, rfl⟩

/-- A subject that is read back stays. -/
theorem subjectOf_of_plain {n : Name} (hn : n.WellFormed) (hplain : n.Plain) {sSource : Option Bytes} {r : Resource}
    (hr : resourceContents r = n.contents) : subjectOf sSource (some r) = some r := by
  have hbytes : r.bytes = n.bytes := by injection hr
  have hzero : n.bytes ≠ ascii "0" := by
    cases n with
    | uri text => exact hplain.2
    | bnode label =>
      obtain ⟨a, l, rfl, ha, -⟩ := hn
      intro h
      obtain ⟨rfl, -⟩ := List.cons.inj (show a :: l = 0x30 :: [] from h)
      exact absurd ha (by decide)
  have hfilter : (some r).filter (fun r => r.bytes ≠ [] ∧ r.bytes ≠ ascii "0") = some r := by
    rw [Option.filter_some, if_pos]
    simpa [hbytes] using ⟨Name.bytes_ne_nil hn, hzero⟩
  unfold subjectOf
  rw [hfilter]
  rfl

/-! ## The conditions, taken together -/

/-- What the reader needs: that nothing is changed, and that nothing is refused. -/
theorem name_readable_iff {n : Name} : n.Readable ↔ n.Plain ∧ n.Printable := by
  cases n with
  | uri text => exact ⟨fun ⟨h1, h2, h3⟩ => ⟨⟨h1, h3⟩, h2⟩, fun ⟨⟨h1, h3⟩, h2⟩ => ⟨h1, h2, h3⟩⟩
  | bnode label => exact ⟨fun _ => ⟨trivial, trivial⟩, fun _ => trivial⟩

theorem name_writable_iff {n : Name} : n.Writable ↔ n.Small ∧ n.Printable := by
  cases n with
  | uri text => exact Iff.rfl
  | bnode label => exact ⟨fun _ => ⟨trivial, trivial⟩, fun _ => trivial⟩

theorem Name.Plain.small {n : Name} (h : n.Plain) : n.Small := by
  cases n with
  | uri text => exact h.1.small
  | bnode label => trivial

theorem term_readable_iff {t : Term} : t.Readable ↔ t.Small ∧ t.Plain ∧ t.Printable := by
  cases t with
  | name n =>
    constructor
    · intro h
      obtain ⟨hplain, hprint⟩ := name_readable_iff.1 h
      exact ⟨hplain.small, hplain, hprint⟩
    · exact fun ⟨_, hplain, hprint⟩ => name_readable_iff.2 ⟨hplain, hprint⟩
  | literal text lang dataType parseType =>
    constructor
    · rintro ⟨⟨hne, hunharmed, hprint⟩, hlang, hwritten, htype⟩
      exact ⟨⟨hne, hunharmed.small⟩, ⟨hunharmed, hlang, hwritten, fun d hd => (htype d hd).2⟩,
        hprint, fun d hd => (htype d hd).1⟩
    · rintro ⟨⟨hne, -⟩, ⟨hunharmed, hlang, hwritten, hseq⟩, hprint, htype⟩
      exact ⟨⟨hne, hunharmed, hprint⟩, hlang, hwritten, fun d hd => ⟨htype d hd, hseq d hd⟩⟩

/-- A literal that is read never has a NUL. -/
theorem noNul_of_printable {t : Term} (h : t.Printable) : t.NoNul := by
  cases t with
  | name n => trivial
  | literal text lang dataType parseType =>
    intro c hc h0
    obtain ⟨hlo, -⟩ := h.1 c hc (by rw [h0]; decide)
    rw [h0] at hlo
    exact absurd hlo (by decide)

theorem readsBack_of_readable {q : Quad} (hq : q.WellFormed) (h : q.Readable) (sSource : Option Bytes) {st : Statement}
    {givenContext : Option Resource} (hst : q.IsOf st givenContext) : ReadsBack sSource st givenContext := by
  obtain ⟨hs, hs'⟩ := name_readable_iff.1 h.subject
  obtain ⟨hp, hp'⟩ := name_readable_iff.1 h.predicate
  obtain ⟨ho, ho', ho''⟩ := term_readable_iff.1 h.object
  have hc : ∀ n ∈ q.context, n.Plain ∧ n.Printable := fun n hn => name_readable_iff.1 (h.context n hn)
  have hn : ∀ n ∈ q.reified, n.Small ∧ n.Printable := fun n hn => name_writable_iff.1 (h.reified n hn).1
  have hnul := noNul_of_printable ho''
  have hsmall : q.Small := ⟨hs.small, hp.small, ho, fun n hn => (hc n hn).1.small, fun n hn' => (hn n hn').1⟩
  obtain ⟨hsr, hpr, hor⟩ := q.room_le
  have hint := h.fits.room
  -- the terms, one behind the other
  obtain ⟨s, hsscan, hscon⟩ := scanSubject_of_plain hq.subject hs (by omega) (q.predicate.solid (0x20 :: (q.object.text ++ 0x20 :: q.rest)))
  obtain ⟨p, hpscan, hpcon⟩ := scanSubject_of_plain hq.predicate hp (by omega) (q.object.solid (0x20 :: q.rest))
  have hquote : q.object.IsName ∨ 0x22 ∉ unescape q.rest := by
    cases hr : q.reified with
    | none => exact .inr (quote_not_mem_context hq (fun n hn => (hc n hn).1) hr)
    | some n => exact .inl (h.reified n hr).2
  obtain ⟨o, hoscan, hocon⟩ := scanObject_of_plain hq.object hnul ho' (by omega) q.follows hquote
  obtain ⟨c, hcscan, hccon⟩ := scanContext_of_plain hq (fun n hn => (hc n hn).1) h.fits.context
  refine ⟨q.line, ⟨some s, some p, some o, c, none, 0, false⟩,
    (statement_eq_some_iff hq hst hnul).2 ⟨hsmall, h.fits, rfl⟩, ppNTriple_line.2 ⟨?_, ?_⟩, ?_⟩
  · exact body_allowed.2 ⟨⟨(name_allowed hq.subject).2 hs', (name_allowed hq.predicate).2 hp',
      (term_allowed hq.object ho').2 ho''⟩, fun n hn => (name_allowed (hq.context n hn)).2 (hc n hn).2,
      fun n hn' => (name_allowed (hq.reified n hn')).2 (hn n hn').2⟩
  · rw [q.body_eq]
    exact parseTriple_eq_some.2 ⟨some s, some p, some o, c, _, _, _, hsscan, hpscan, hoscan, hcscan,
      (addTriple_eq_some.2 ⟨s, p, o, subjectOf_of_plain hq.subject hs hscon, rfl, rfl, rfl⟩).symm⟩
  · rw [hst.contents]
    simp only [statementContents, Option.map_some, hscon, hpcon, hocon, hccon, Quad.contents]

/-! ## What is read back was readable -/

theorem parsed_of_asserted {sSource : Option Bytes} {line : Bytes} {st : Option Statement}
    (h : ppNTriple sSource line = .asserted st) : ∃ s, parseTriple sSource s = some st := by
  unfold ppNTriple at h
  simp only at h
  split at h
  · cases h
  split at h
  · cases h
  split at h
  · cases h
  split at h
  · cases h
  · next hparse =>
    cases h
    obtain ⟨s, -, hs⟩ := Option.bind_eq_some_iff.1 hparse
    exact ⟨_, hs⟩

/-- The string of a literal that is read is a C string. -/
theorem noNul_of_scanObject {t : Term} {s rest : Bytes} {node : Node} (h : scanObject s = some (some node, rest))
    (hcontents : nodeContents node = t.contents) : t.NoNul := by
  cases t with
  | name n => trivial
  | literal text lang dataType parseType =>
    rw [scanObject_eq] at h
    split at h
    · simp only [Option.some_inj, Prod.mk.injEq] at h
      obtain ⟨r, -, rfl⟩ := Option.map_eq_some_iff.1 h.1
      cases hcontents
    · obtain ⟨⟨⟨x, l, dt⟩, rest'⟩, -, heq⟩ := Option.map_eq_some_iff.1 h
      simp only [Prod.mk.injEq] at heq
      obtain ⟨ls, ds, hfound, -⟩ := contents_literalNode heq.1
      rw [hcontents, Term.contents, NodeContents.literal.injEq] at hfound
      intro c hc h0
      have hmem : (0 : UInt8) ∈ utf8 text := by
        refine List.mem_flatMap.2 ⟨c, hc, ?_⟩
        rw [h0]
        decide
      rw [hfound.1] at hmem
      split at hmem
      · exact not_mem_cstr x hmem
      · cases hmem

/-- The lines about a reified statement end with its object. -/
theorem rest_of_reified {q : Quad} {n : Name} (hn : q.reified = some n) :
    ∃ a, q.rest = a ++ 0x20 :: (q.object.text ++ 0x20 :: []) := by
  have hend : ∀ uri, uriField uri = ascii "<" ++ uri ++ [0x3e] ++ [0x20] := by
    intro uri
    simp [uriField, ascii]
  refine ⟨((q.context.map fun n => n.text ++ [0x20]).getD []) ++ (ascii ". \n" ++ (n.text ++ [0x20]) ++ uriField rdfmsType ++ uriField rdfmsStatement ++ ascii ". \n" ++
    (n.text ++ [0x20]) ++ uriField rdfmsSubject ++ (q.subject.text ++ [0x20]) ++ ascii ". \n" ++
    (n.text ++ [0x20]) ++ uriField rdfmsPredicate ++ (q.predicate.text ++ [0x20]) ++ ascii ". \n" ++
    (n.text ++ [0x20]) ++ (ascii "<" ++ rdfmsObject ++ [0x3e])), ?_⟩
  unfold Quad.rest aboutLines
  rw [hn, Option.map_some, Option.getD_some, hend rdfmsObject]
  simp only [List.append_assoc, List.cons_append, List.nil_append]

theorem readable_of_readsBack {q : Quad} (hq : q.WellFormed) {sSource : Option Bytes}
    (hsource : ∀ source ∈ sSource, 0 ∉ source) {st : Statement} {givenContext : Option Resource}
    (hst : q.IsOf st givenContext) (h : ReadsBack sSource st givenContext) : q.Readable := by
  obtain ⟨line, st', hline, hread, hcontents⟩ := h
  rw [hst.contents] at hcontents
  have hnul : q.object.NoNul := by
    obtain ⟨s, hs⟩ := parsed_of_asserted hread
    obtain ⟨os, op, oo, oc, s₁, s₂, s₃, -, -, ho, -, hst'⟩ := parseTriple_eq_some.1 hs
    obtain ⟨s', p', o', -, -, rfl, rfl⟩ := addTriple_eq_some.1 hst'.symm
    refine noNul_of_scanObject ho ?_
    simpa [statementContents, Quad.contents] using congrArg Contents.object hcontents
  obtain ⟨hsmall, hfits, rfl⟩ := (statement_eq_some_iff hq hst hnul).1 hline
  obtain ⟨hallowed, hparse⟩ := ppNTriple_line.1 hread
  obtain ⟨os, op, oo, oc, s₁, s₂, s₃, hsscan, hpscan, hoscan, hcscan, hst'⟩ := parseTriple_eq_some.1 hparse
  obtain ⟨s, p, o, hsubject, rfl, rfl, rfl⟩ := addTriple_eq_some.1 hst'.symm
  obtain ⟨hscon, hpcon, hocon, hccon⟩ : resourceContents s = q.subject.contents ∧
      resourceContents p = q.predicate.contents ∧ nodeContents o = q.object.contents ∧
      oc.map resourceContents = q.context.map Name.contents := by
    simpa [statementContents, Quad.contents] using hcontents
  obtain ⟨hsr, hpr, hor⟩ := q.room_le
  have hint := hfits.room
  rw [q.body_eq] at hsscan
  -- the subject
  obtain ⟨rest, hsname, hsblanks⟩ := scanSubject_eq_some hsscan
  have hs : q.subject.Plain := plain_of_subject hq.subject hsmall.subject (by omega) hsource hsname hsubject hscon
  obtain ⟨_, hsscan', -⟩ := scanSubject_of_plain hq.subject hs (by omega) (q.predicate.solid (0x20 :: (q.object.text ++ 0x20 :: q.rest)))
  rw [hsscan] at hsscan'
  obtain rfl : s₁ = _ := (Prod.mk.inj (Option.some_inj.1 hsscan')).2
  -- the predicate
  obtain ⟨rest', hpname, hpblanks⟩ := scanSubject_eq_some hpscan
  have hp : q.predicate.Plain := plain_of_scanName hq.predicate hsmall.predicate hpname hpcon
  obtain ⟨_, hpscan', -⟩ := scanSubject_of_plain hq.predicate hp (by omega) (q.object.solid (0x20 :: q.rest))
  rw [hpscan] at hpscan'
  obtain rfl : s₂ = _ := (Prod.mk.inj (Option.some_inj.1 hpscan')).2
  -- the object, and what is left
  obtain ⟨ho, rfl, honce⟩ := plain_of_scanObject hq.object hsmall.object (by omega) q.follows hoscan hocon
  have hc := plain_of_scanContext hq hsmall.context hcscan hccon
  obtain ⟨⟨hs', hp', ho'⟩, hc', hn'⟩ := body_allowed.1 hallowed
  refine ⟨name_readable_iff.2 ⟨hs, (name_allowed hq.subject).1 hs'⟩,
    name_readable_iff.2 ⟨hp, (name_allowed hq.predicate).1 hp'⟩,
    term_readable_iff.2 ⟨hsmall.object, ho, (term_allowed hq.object ho).1 ho'⟩,
    fun n hn => name_readable_iff.2 ⟨hc n hn, (name_allowed (hq.context n hn)).1 (hc' n hn)⟩, fun n hn => ⟨?_, ?_⟩,
    hfits⟩
  · exact name_writable_iff.2 ⟨hsmall.reified n hn, (name_allowed (hq.reified n hn)).1 (hn' n hn)⟩
  · obtain ⟨a, ha⟩ := rest_of_reified (show q.reified = some n from hn)
    exact honce.resolve_right fun h => h a [] ha

/-- A statement is read back if and only if it is readable, whatever source the reader was given. -/
theorem readsBack_iff (q : Quad) (hq : q.WellFormed) (sSource : Option Bytes)
    (hsource : ∀ source ∈ sSource, 0 ∉ source) (st : Statement) (givenContext : Option Resource)
    (hst : q.IsOf st givenContext) : ReadsBack sSource st givenContext ↔ q.Readable :=
  ⟨readable_of_readsBack hq hsource hst, fun h => readsBack_of_readable hq h sSource hst⟩

/-- A statement about a one byte literal. -/
def smallQuad (c : Char) : Quad := ⟨.uri ['a'], .uri ['b'], .literal [c] [] none .normal, none, none⟩

theorem smallQuad_wellFormed (c : Char) : (smallQuad c).WellFormed where
  subject := ⟨by decide, by simp [IsUriChar]⟩
  predicate := ⟨by decide, by simp [IsUriChar]⟩
  object := ⟨List.forall_mem_nil _, fun _ h => by cases h⟩
  context := fun _ h => by cases h
  reified := fun _ h => by cases h

theorem smallQuad_isOf {c : Char} (hc : utf8 [c] = [c.toNat.toUInt8]) :
    (smallQuad c).IsOf (triple (uri 97) (uri 98) (.literal (plainLiteral c.toNat.toUInt8))) none where
  subject := ⟨_, rfl, rfl, rfl⟩
  predicate := ⟨_, rfl, rfl, rfl⟩
  object := ⟨_, rfl, by rw [hc]; rfl, rfl, rfl, rfl⟩
  context := .none
  reified := .none
  node := fun _ h => by cases h

theorem readsBack_iff_smallQuad :
    ReadsBack none (triple (uri 97) (uri 98) (.literal (plainLiteral 120))) none ↔ (smallQuad 'x').Readable :=
  readsBack_iff (smallQuad 'x') (smallQuad_wellFormed 'x') none (fun _ h => by cases h) _ none
    (smallQuad_isOf (by decide))

/-- A line feed is escaped by the writer, and the reader leaves the escape sequence as it is. -/
theorem readsBack_fails : ¬ ∀ (q : Quad) (_ : q.WellFormed) (st : Statement) (_ : q.IsOf st none),
    ReadsBack none st none := by
  intro h
  obtain ⟨line, st', hline, hread, hcontents⟩ :=
    h (smallQuad '\n') (smallQuad_wellFormed '\n') _ (smallQuad_isOf (by decide))
  have hwritten : rdfstoreNtriplesStatement (triple (uri 97) (uri 98) (.literal (plainLiteral 10))) none =
      some (ascii "<a> <b> \"\\n\" . ") := by decide
  have hfound : ∃ st', ppNTriple none (ascii "<a> <b> \"\\n\" . ") = .asserted (some st') ∧
      (statementContents st' st'.context).object = some (.literal (ascii "\\n") [] []) := by
    refine ⟨⟨some (uri 97), some (uri 98),
      some (.literal ⟨some ⟨ascii "\\n", by decide⟩, .normal, CString.empty, none, 0⟩), none, none, 0, false⟩, ?_, ?_⟩
    · decide
    · decide
  obtain ⟨st'', hst'', hobject⟩ := hfound
  obtain rfl : line = _ := Option.some_inj.1 (hline.symm.trans hwritten)
  obtain rfl : st' = st'' := by
    rw [hst''] at hread
    injection hread with heq
    exact (Option.some_inj.1 heq).symm
  rw [hcontents] at hobject
  exact absurd hobject (by decide)

end RdfStore.NTriples
