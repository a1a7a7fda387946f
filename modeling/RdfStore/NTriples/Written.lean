import RdfStore.NTriples.Terms

/-!
# The line of a statement

    the line is written when every escape sequence fits `es`, the string of a
    literal is not NULL and the whole fits its buffer       (statement_eq_some_iff)
-/

namespace RdfStore.NTriples

open ByteMem

/-! ## Sizes -/

theorem length_escaped (n : Nat) : (escaped n).length = characterSize n := by
  unfold characterSize
  by_cases hs : IsSpecial n
  · obtain ⟨z, hz, -⟩ := special_cons hs
    rw [hz, if_pos hs]
    rfl
  · rw [if_neg hs]
    by_cases ha : n < 0x80
    · rw [escaped_ascii ha hs, if_pos ha]
      rfl
    · rw [escaped_wide (not_lt.1 ha), if_neg ha, List.length_cons, List.length_cons, length_hexFixed]

theorem length_escapedText (text : List Char) : (escapedText text).length = writtenSize text := by
  induction text with
  | nil => rfl
  | cons c text ih =>
    rw [escapedText_cons, List.length_append, length_escaped, ih]
    rfl

theorem characterSize_le (n : Nat) : characterSize n ≤ escapeRoom := by
  unfold characterSize hexWidth escapeRoom
  split_ifs <;> omega

/-- There is room for every escape sequence of a text. -/
theorem writtenSize_le (text : List Char) : writtenSize text ≤ (utf8 text).length * escapeRoom := by
  induction text with
  | nil => exact Nat.zero_le _
  | cons c text ih =>
    have hpos : 1 ≤ (rdfstoreUtf8CpToUtf8 c.toNat).length := List.length_pos_iff.2 (cpToUtf8_ne_nil _)
    have hc := characterSize_le c.toNat
    have hsize : writtenSize (c :: text) = characterSize c.toNat + writtenSize text := rfl
    rw [utf8_cons, List.length_append, Nat.add_mul, hsize]
    exact Nat.add_le_add (hc.trans (Nat.le_mul_of_pos_left _ hpos)) ih

/-! ## Texts without a NUL -/

theorem zero_not_mem_escaped {n : Nat} (h : n ≠ 0) : 0 ∉ escaped n := by
  have hhex : isHex 0 = false := by decide
  intro h0
  by_cases hs : IsSpecial n
  · rcases hs with rfl | rfl | rfl | rfl | rfl <;> exact absurd h0 (by decide)
  by_cases ha : n < 0x80
  · rw [escaped_ascii ha hs, List.mem_singleton] at h0
    exact h ((toUInt8_eq_iff (by omega) 0).1 h0.symm)
  · rw [escaped_wide (not_lt.1 ha), List.mem_cons, List.mem_cons] at h0
    rcases h0 with h0 | h0 | h0
    · cases h0
    · cases h0
    · rw [isHex_of_mem_hexFixed h0] at hhex
      cases hhex

theorem zero_not_mem_escapedText {text : List Char} (h : ∀ c ∈ text, c.toNat ≠ 0) : 0 ∉ escapedText text := by
  rw [escapedText, List.mem_flatMap]
  rintro ⟨c, hc, h0⟩
  exact zero_not_mem_escaped (h c hc) h0

/-! ## Names -/

/-- What is written for a name. -/
def Name.text : Name → Bytes
  | .uri text => 0x3c :: (escapedText text ++ [0x3e])
  | .bnode label => 0x5f :: 0x3a :: label

/-- Without a code point whose escape sequence is too long. -/
def Name.Small : Name → Prop
  | .uri text => ∀ c ∈ text, c.toNat < 0x100000
  | .bnode _ => True

theorem Name.length_text (n : Name) : n.text.length + 1 = n.size := by
  cases n with
  | uri text => simp [Name.text, Name.size, length_escapedText]
  | bnode label => rfl

theorem isLabelChar_ne_zero {a : UInt8} (h : isLabelChar a = true) : a ≠ 0 := by
  rintro rfl
  exact absurd h (by decide)

theorem Name.zero_not_mem_text {n : Name} (hn : n.WellFormed) : 0 ∉ n.text := by
  cases n with
  | uri text =>
    have h := zero_not_mem_escapedText fun c hc => (hn.2 c hc).2.2.2.2
    simpa [Name.text] using h
  | bnode label =>
    obtain ⟨a, s, rfl, ha, hs⟩ := hn
    have hlabel : isLabelChar a = true := by simp [isLabelChar, ha]
    simp only [Name.text, List.mem_cons, not_or]
    exact ⟨by decide, by decide, (isLabelChar_ne_zero hlabel).symm, fun h => isLabelChar_ne_zero (hs 0 h) rfl⟩

theorem bytes_of_isOf {n : Name} {r : Resource} (h : n.IsOf r) :
    ∃ identifier, r.identifier = some identifier ∧ identifier.bytes = n.bytes ∧ r.bytes = n.bytes := by
  obtain ⟨identifier, hid, hbytes⟩ := Option.map_eq_some_iff.1 h.1
  refine ⟨identifier, hid, hbytes, ?_⟩
  unfold Resource.bytes
  rw [h.1]
  rfl

theorem nodeText_name {n : Name} {r : Resource} (h : n.IsOf r) {text : Bytes} :
    nodeText (.resource r) = some text ↔ n.Small ∧ text = n.text := by
  obtain ⟨identifier, hid, hbytes, -⟩ := bytes_of_isOf h
  unfold nodeText
  simp only [hid, hbytes, h.2]
  cases n with
  | uri chars =>
    constructor
    · intro heq
      obtain ⟨es, hes, rfl⟩ := Option.map_eq_some_iff.1 heq
      have hsmall := small_of_escape hes
      rw [Name.bytes, escape_utf8 hsmall] at hes
      obtain rfl := Option.some_inj.1 hes
      exact ⟨hsmall, rfl⟩
    · rintro ⟨hsmall, rfl⟩
      rw [Name.bytes, escape_utf8 hsmall]
      rfl
  | bnode label =>
    constructor
    · intro heq
      exact ⟨trivial, (Option.some_inj.1 heq).symm⟩
    · rintro ⟨-, rfl⟩
      rfl

theorem Name.room_eq {n : Name} {r : Resource} (h : n.IsOf r) :
    nodeRoom (.resource r) + 1 = n.room ∧ resourceRoom r = n.room ∧ r.bytes.length + 4 = n.plainRoom := by
  obtain ⟨identifier, -, -, hbytes⟩ := bytes_of_isOf h
  unfold nodeRoom resourceRoom Name.plainRoom
  simp only [hbytes, h.2]
  cases n with
  | uri text => exact ⟨rfl, rfl, trivial⟩
  | bnode label => exact ⟨rfl, rfl, trivial⟩

theorem Name.size_le (n : Name) : n.size + 1 ≤ n.room := by
  cases n with
  | uri text => exact Nat.add_le_add_right (writtenSize_le text) 4
  | bnode label => exact le_rfl

theorem written_eq_some_iff {text out : Bytes} {room : Nat} :
    written text room = some out ↔ (text.length + 1 ≤ room ∧ room < 2 ^ 31) ∧ out = text := by
  unfold written
  split
  · next h => exact ⟨fun heq => ⟨h, (Option.some_inj.1 heq).symm⟩, fun heq => by rw [heq.2]⟩
  · next h => exact ⟨fun heq => (by cases heq), fun heq => absurd heq.1 h⟩

theorem field_eq_some_iff {node : Node} {f : Bytes} :
    field node = some f ↔
      ∃ text, nodeText node = some text ∧ (text.length + 1 ≤ nodeRoom node ∧ nodeRoom node < 2 ^ 31) ∧
        f = cstr text ++ [0x20] := by
  unfold field rdfstoreNtriplesNode
  constructor
  · intro h
    obtain ⟨text', htext, rfl⟩ := Option.map_eq_some_iff.1 h
    split at htext
    · cases htext
    · next text hnode =>
      obtain ⟨hfits, rfl⟩ := written_eq_some_iff.1 htext
      exact ⟨_, hnode, hfits, rfl⟩
  · rintro ⟨text, hnode, hfits, rfl⟩
    simp only [hnode, written_eq_some_iff.2 ⟨hfits, rfl⟩, Option.map_some]
    rfl

/-- A name always fits its own buffer. -/
theorem field_name {n : Name} {r : Resource} (hn : n.WellFormed) (h : n.IsOf r) {f : Bytes} :
    field (.resource r) = some f ↔ n.Small ∧ n.room ≤ 2 ^ 31 ∧ f = n.text ++ [0x20] := by
  have hroom := (Name.room_eq h).1
  have hfits : n.text.length + 1 ≤ nodeRoom (.resource r) := by
    have h1 := n.length_text
    have h2 := n.size_le
    omega
  have hcstr : cstr n.text = n.text := cstr_of_not_mem (Name.zero_not_mem_text hn)
  rw [field_eq_some_iff]
  constructor
  · rintro ⟨text, hnode, hint, rfl⟩
    obtain ⟨hsmall, rfl⟩ := (nodeText_name h).1 hnode
    exact ⟨hsmall, by omega, by rw [hcstr]⟩
  · rintro ⟨hsmall, hint, rfl⟩
    exact ⟨n.text, (nodeText_name h).2 ⟨hsmall, rfl⟩, ⟨hfits, by omega⟩, by rw [hcstr]⟩

/-! ## Objects -/

/-- The language and the datatype as they are written. -/
def suffixText (lang : List Bytes) (dataType : Option Bytes) : Bytes :=
  (if lang = [] then [] else 0x40 :: langTag lang) ++
    (match dataType with
      | some dt => 0x5e :: 0x5e :: 0x3c :: (dt ++ [0x3e])
      | none => [])

/-- What is written for an object. -/
def Term.text : Term → Bytes
  | .name n => n.text
  | .literal text lang dataType parseType =>
    0x22 :: (escapedText text ++ 0x22 :: suffixText lang (writtenType dataType parseType))

/-- The string of a literal is not NULL, and its escape sequences are not too long. -/
def Term.Small : Term → Prop
  | .name n => n.Small
  | .literal text _ _ _ => text ≠ [] ∧ ∀ c ∈ text, c.toNat < 0x100000

/-- A literal is written up to its first NUL. -/
def Term.NoNul : Term → Prop
  | .name _ => True
  | .literal text _ _ _ => ∀ c ∈ text, c.toNat ≠ 0

theorem length_suffixText (lang : List Bytes) (dataType : Option Bytes) :
    (suffixText lang dataType).length = suffixSize lang dataType := by
  unfold suffixText suffixSize
  rw [List.length_append]
  congr 1
  · split <;> rfl
  · cases dataType <;> simp

theorem Term.length_text (t : Term) : t.text.length + 1 = t.size := by
  cases t with
  | name n => exact n.length_text
  | literal text lang dataType parseType =>
    simp only [Term.text, Term.size, List.length_cons, List.length_append, length_escapedText, length_suffixText]
    omega

theorem Term.size_le (t : Term) : t.size + 1 ≤ t.room := by
  cases t with
  | name n => exact n.size_le
  | literal text lang dataType parseType =>
    have h := writtenSize_le text
    simp only [Term.size, Term.room]
    omega

theorem langTag_eq_nil {lang : List Bytes} (h : ∀ part ∈ lang, part ≠ []) : langTag lang = [] ↔ lang = [] := by
  match lang with
  | [] => simp [langTag]
  | [part] => simpa [langTag] using h part
  | part :: part' :: parts => simp [langTag]

/-- The suffix that the writer makes. -/
theorem literalSuffix_eq {lang : List Bytes} {dataType : Option (List Char)} {l : Literal}
    (hparts : ∀ part ∈ lang, part ≠ []) (hlang : l.lang.bytes = langTag lang)
    (htype : l.dataType.map (·.bytes) = dataType.map utf8) :
    literalSuffix l = suffixText lang (writtenType dataType l.parseType) ∧
      suffixRoom l = suffixSize lang (writtenType dataType l.parseType) := by
  have htag := langTag_eq_nil hparts
  have hpos : 0 < l.lang.bytes.length ↔ ¬ lang = [] := by
    rw [List.length_pos_iff, hlang, Ne, htag]
  have htypes : typeSuffix l = (match writtenType dataType l.parseType with
      | some dt => 0x5e :: 0x5e :: 0x3c :: (dt ++ [0x3e])
      | none => []) := by
    unfold typeSuffix writtenType
    cases hpt : l.parseType with
    | literal => rfl
    | normal =>
      rw [← htype]
      cases l.dataType with
      | none => rfl
      | some dt => rfl
  constructor
  · unfold literalSuffix suffixText
    rw [htypes]
    congr 1
    by_cases hnil : lang = []
    · rw [if_neg (fun h => hpos.1 h hnil), if_pos hnil]
    · rw [if_pos (hpos.2 hnil), if_neg hnil, hlang]
      rfl
  · unfold suffixRoom suffixSize
    congr 1
    · by_cases hnil : lang = []
      · rw [if_neg (fun h => hpos.1 h hnil), if_pos hnil]
      · rw [if_pos (hpos.2 hnil), if_neg hnil, hlang]
    · unfold writtenType
      cases hpt : l.parseType with
      | literal => rfl
      | normal =>
        rw [← htype]
        cases l.dataType with
        | none => rfl
        | some dt => rfl

theorem zero_not_mem_suffix (l : Literal) : 0 ∉ literalSuffix l := by
  have hlang : 0 ∉ (if l.lang.bytes.length > 0 then ascii "@" ++ l.lang.bytes else []) := by
    split
    · simpa [ascii] using l.lang.noNul
    · exact List.not_mem_nil
  have htype : 0 ∉ typeSuffix l := by
    unfold typeSuffix
    split
    · decide
    · cases l.dataType with
      | none => exact List.not_mem_nil
      | some dt => simpa [ascii] using dt.noNul
  unfold literalSuffix
  rw [List.mem_append]
  exact fun h => h.elim hlang htype

theorem nodeText_literal {text : List Char} {l : Literal} (hbytes : l.bytes = utf8 text) {out : Bytes} :
    nodeText (.literal l) = some out ↔
      (∀ c ∈ text, c.toNat < 0x100000) ∧ out = 0x22 :: (escapedText text ++ 0x22 :: literalSuffix l) := by
  have hquote : ∀ es suffix, ascii "\"" ++ es ++ ascii "\"" ++ suffix = 0x22 :: (es ++ 0x22 :: suffix) := by
    intro es suffix
    simp [ascii]
  unfold nodeText
  simp only [hbytes]
  constructor
  · intro h
    obtain ⟨es, hes, rfl⟩ := Option.map_eq_some_iff.1 h
    have hsmall := small_of_escape hes
    rw [escape_utf8 hsmall] at hes
    obtain rfl := Option.some_inj.1 hes
    exact ⟨hsmall, hquote _ _⟩
  · rintro ⟨hsmall, rfl⟩
    rw [escape_utf8 hsmall, Option.map_some, hquote]

/-- What the fields of a literal are. -/
theorem literal_of_isOf {text : List Char} {lang : List Bytes} {dataType : Option (List Char)}
    {parseType : ParseType} {node : Node} (ht : (Term.literal text lang dataType parseType).WellFormed)
    (h : (Term.literal text lang dataType parseType).IsOf node) :
    ∃ l, node = .literal l ∧ l.bytes = utf8 text ∧ (text = [] → l.string = none) ∧
      (text ≠ [] → ∃ string, l.string = some string ∧ string.bytes = utf8 text) ∧
      literalSuffix l = suffixText lang (writtenType dataType parseType) ∧
      suffixRoom l = suffixSize lang (writtenType dataType parseType) := by
  cases node with
  | resource r => cases h
  | literal l =>
    have hbytes : nodeContents (.literal l) = _ := h.contents
    obtain ⟨hstring, hlang, htype, rfl⟩ := h
    obtain ⟨hsuffix, hroom⟩ := literalSuffix_eq (fun part hpart => (ht.1 part hpart).1) hlang htype
    refine ⟨l, rfl, ?_, ?_, ?_, hsuffix, hroom⟩
    · injection hbytes
    · intro hnil
      rwa [if_pos hnil, Option.map_eq_none_iff] at hstring
    · intro hne
      rw [if_neg hne] at hstring
      exact Option.map_eq_some_iff.1 hstring

/-- An empty string has no buffer, and not even the quotation marks fit. -/
theorem field_term {t : Term} {node : Node} (ht : t.WellFormed) (h : t.IsOf node) (hnul : t.NoNul) {f : Bytes} :
    field node = some f ↔ t.Small ∧ t.room ≤ 2 ^ 31 ∧ f = t.text ++ [0x20] := by
  cases t with
  | name n =>
    cases node with
    | resource r => exact field_name ht h
    | literal l => cases h
  | literal text lang dataType parseType =>
    obtain ⟨l, rfl, hbytes, hnone, hsome, hsuffix, hroom⟩ := literal_of_isOf ht h
    have htext : Term.text (.literal text lang dataType parseType) =
        0x22 :: (escapedText text ++ 0x22 :: literalSuffix l) := by
      rw [hsuffix]
      rfl
    have hcstr : cstr (Term.text (.literal text lang dataType parseType)) =
        Term.text (.literal text lang dataType parseType) := by
      rw [htext]
      refine cstr_of_not_mem ?_
      simp only [List.mem_cons, List.mem_append, not_or]
      exact ⟨by decide, zero_not_mem_escapedText hnul, by decide, zero_not_mem_suffix l⟩
    have hlen := Term.length_text (.literal text lang dataType parseType)
    have hsize := Term.size_le (.literal text lang dataType parseType)
    have hnode : text ≠ [] → nodeRoom (.literal l) + 1 = Term.room (.literal text lang dataType parseType) := by
      intro hne
      obtain ⟨string, hstring, hsbytes⟩ := hsome hne
      simp only [Term.room, nodeRoom, hstring, hsbytes, hroom]
      omega
    rw [field_eq_some_iff]
    constructor
    · rintro ⟨out, hout, ⟨hfit, hint⟩, rfl⟩
      obtain ⟨hsmall, rfl⟩ := (nodeText_literal hbytes).1 hout
      have hne : text ≠ [] := by
        intro hnil
        rw [← htext, hlen] at hfit
        simp only [Term.size, nodeRoom, hnone hnil, hroom] at hfit
        omega
      have := hnode hne
      exact ⟨⟨hne, hsmall⟩, by omega, by rw [← htext, hcstr]⟩
    · rintro ⟨⟨hne, hsmall⟩, hint, rfl⟩
      have := hnode hne
      exact ⟨_, (nodeText_literal hbytes).2 ⟨hsmall, htext⟩, ⟨by omega, by omega⟩, by rw [hcstr]⟩

theorem objectRoom_eq {t : Term} {node : Node} (ht : t.WellFormed) (h : t.IsOf node) (hsmall : t.Small) :
    objectRoom node = t.room := by
  cases t with
  | name n =>
    cases node with
    | resource r => exact (Name.room_eq h).2.1
    | literal l => cases h
  | literal text lang dataType parseType =>
    obtain ⟨l, rfl, hbytes, -, hsome, -, hroom⟩ := literal_of_isOf ht h
    obtain ⟨string, hstring, hsbytes⟩ := hsome hsmall.1
    simp only [objectRoom, hstring, hsbytes, hroom, Term.room]
    omega

/-! ## Statements -/

/-- The terms with a blank behind each. -/
def Quad.terms (q : Quad) : Bytes :=
  q.subject.text ++ 0x20 :: (q.predicate.text ++ 0x20 :: (q.object.text ++ 0x20 ::
    ((q.context.map fun n => n.text ++ [0x20]).getD [])))

/-- The lines about a reified statement, without the last full stop. -/
def aboutLines (node s p o : Bytes) : Bytes :=
  ascii ". \n" ++ node ++ uriField rdfmsType ++ uriField rdfmsStatement ++ ascii ". \n" ++
    node ++ uriField rdfmsSubject ++ s ++ ascii ". \n" ++
    node ++ uriField rdfmsPredicate ++ p ++ ascii ". \n" ++
    node ++ uriField rdfmsObject ++ o

/-- What is before the last full stop. -/
def Quad.body (q : Quad) : Bytes :=
  q.terms ++ (q.reified.map fun n =>
    aboutLines (n.text ++ [0x20]) (q.subject.text ++ [0x20]) (q.predicate.text ++ [0x20])
      (q.object.text ++ [0x20])).getD []

def Quad.line (q : Quad) : Bytes := q.body ++ [0x2e, 0x20]

structure Quad.Small (q : Quad) : Prop where
  subject : q.subject.Small
  predicate : q.predicate.Small
  object : q.object.Small
  context : ∀ n ∈ q.context, n.Small
  reified : ∀ n ∈ q.reified, n.Small

theorem length_uriField (uri : Bytes) : (uriField uri).length = uri.length + 3 := by
  have h1 : (ascii "<").length = 1 := rfl
  have h2 : (ascii "> ").length = 2 := rfl
  simp only [uriField, List.length_append, h1, h2]
  omega

theorem length_aboutLines (node s p o : Bytes) :
    (aboutLines node s p o).length =
      4 * node.length + vocabularySize + 24 + s.length + p.length + o.length + 3 := by
  have hstop : (ascii ". \n").length = 3 := rfl
  rw [vocabularySize]
  delta aboutLines
  simp only [List.length_append, length_uriField, hstop]
  generalize rdfmsType.length = type, rdfmsStatement.length = statement, rdfmsSubject.length = subject,
    rdfmsPredicate.length = predicate, rdfmsObject.length = object
  omega

theorem length_line (q : Quad) : q.line.length + 1 = q.size := by
  have hs := q.subject.length_text
  have hp := q.predicate.length_text
  have ho := q.object.length_text
  have hc : ((q.context.map fun n => n.text ++ [0x20]).getD []).length = (q.context.map Name.size).getD 0 := by
    cases q.context with
    | none => rfl
    | some n => simpa using n.length_text
  unfold Quad.line Quad.body Quad.terms Quad.size
  simp only [List.length_append, List.length_cons, List.length_nil, hc]
  cases q.reified with
  | none =>
    simp only [Option.map_none, Option.getD_none, List.length_nil]
    omega
  | some n =>
    have hn := n.length_text
    simp only [Option.map_some, Option.getD_some, length_aboutLines, List.length_append, List.length_cons,
      List.length_nil]
    omega

theorem contextRoom_eq {n : Option Name} {context : Option Resource} (h : Option.Rel Name.IsOf n context) :
    contextRoom context = (n.map Name.plainRoom).getD 0 := by
  cases h with
  | none => rfl
  | some h => exact (Name.room_eq h).2.2

theorem reificationRoom_eq {n : Option Name} {node : Option Resource} (s p o : Nat) :
    Option.Rel Name.IsOf n node →
    (match node with
      | some node => reificationRoom node s p o
      | none => 0) = (n.map fun n => 4 * n.plainRoom + vocabularySize + 20 + s + p + o).getD 0 := by
  intro h
  cases h with
  | none => rfl
  | some h =>
    rw [Option.map_some, Option.getD_some, vocabularySize]
    simp only [reificationRoom, (Name.room_eq h).2.2]
    generalize rdfmsType.length = type, rdfmsStatement.length = statement, rdfmsSubject.length = subject,
      rdfmsPredicate.length = predicate, rdfmsObject.length = object
    omega

/-- The buffer of a statement. -/
theorem statementRoom_eq {q : Quad} {st : Statement} {context : Option Resource} {s p : Resource} {o : Node}
    (hs : q.subject.IsOf s) (hp : q.predicate.IsOf p) (hq : q.object.WellFormed) (ho : q.object.IsOf o)
    (hsmall : q.object.Small) (hc : Option.Rel Name.IsOf q.context context)
    (hn : Option.Rel Name.IsOf q.reified (reifiedNode st)) : statementRoom st context s p o = q.room := by
  unfold statementRoom Quad.room
  simp only [(Name.room_eq hs).2.1, (Name.room_eq hp).2.1, objectRoom_eq hq ho hsmall, contextRoom_eq hc]
  exact congrArg _ (reificationRoom_eq _ _ _ hn)

/-- The field of the context, if there is one. -/
theorem contextField_eq {n : Option Name} {context : Option Resource} (hn : ∀ n' ∈ n, n'.WellFormed) {f : Bytes} :
    Option.Rel Name.IsOf n context →
    ((match context with
      | some context => field (.resource context)
      | none => some []) = some f ↔
      (∀ n' ∈ n, n'.Small) ∧ (∀ n' ∈ n, n'.room ≤ 2 ^ 31) ∧ f = (n.map fun n => n.text ++ [0x20]).getD []) := by
  intro h
  cases h with
  | none => simp [eq_comm]
  | some h =>
    rw [field_name (hn _ rfl) h]
    simp

/-- The lines about the statement, if there are any. -/
theorem reification_eq {n : Option Name} {node : Option Resource} (hn : ∀ n' ∈ n, n'.WellFormed)
    (s p o : Bytes) {lines : Bytes} :
    Option.Rel Name.IsOf n node →
    ((match node with
      | some node => (field (.resource node)).map fun n => reificationLines n s p o
      | none => some []) = some lines ↔
      (∀ n' ∈ n, n'.Small) ∧ (∀ n' ∈ n, n'.room ≤ 2 ^ 31) ∧
        lines = (n.map fun n => reificationLines (n.text ++ [0x20]) s p o).getD []) := by
  intro h
  cases h with
  | none => simp [eq_comm]
  | some h =>
    rw [Option.map_eq_some_iff]
    constructor
    · rintro ⟨f, hf, rfl⟩
      obtain ⟨hsmall, hroom, rfl⟩ := (field_name (hn _ rfl) h).1 hf
      exact ⟨by simpa using hsmall, by simpa using hroom, rfl⟩
    · rintro ⟨hsmall, hroom, rfl⟩
      exact ⟨_, (field_name (hn _ rfl) h).2 ⟨hsmall _ rfl, hroom _ rfl, rfl⟩, rfl⟩

/-- The fields one behind the other are the line. -/
theorem line_eq (q : Quad) :
    q.subject.text ++ [0x20] ++ (q.predicate.text ++ [0x20]) ++ (q.object.text ++ [0x20]) ++
        (q.context.map fun n => n.text ++ [0x20]).getD [] ++ ascii ". " ++
        (q.reified.map fun n => reificationLines (n.text ++ [0x20]) (q.subject.text ++ [0x20])
          (q.predicate.text ++ [0x20]) (q.object.text ++ [0x20])).getD [] = q.line := by
  have hstop : ascii ". " = [0x2e, 0x20] := rfl
  have hline : ascii ". " ++ ascii "\n" = ascii ". \n" := rfl
  unfold Quad.line Quad.body Quad.terms
  cases q.reified with
  | none => simp [hstop]
  | some n =>
    simp only [Option.map_some, Option.getD_some, reificationLines, aboutLines, ← hline, hstop]
    simp

theorem Quad.room_le (q : Quad) : q.subject.room ≤ q.room ∧ q.predicate.room ≤ q.room ∧ q.object.room ≤ q.room := by
  unfold Quad.room
  omega

theorem statement_eq_some_iff {q : Quad} {st : Statement} {givenContext : Option Resource} (hq : q.WellFormed)
    (h : q.IsOf st givenContext) (hnul : q.object.NoNul) {line : Bytes} :
    rdfstoreNtriplesStatement st givenContext = some line ↔ q.Small ∧ q.Fits ∧ line = q.line := by
  obtain ⟨s, hs, hsubject⟩ := h.subject
  obtain ⟨p, hp, hpredicate⟩ := h.predicate
  obtain ⟨o, ho, hobject⟩ := h.object
  have hnode : ¬ st.node.map (·.identifier) = some none := by
    intro hnode
    obtain ⟨r, hr, hid⟩ := Option.map_eq_some_iff.1 hnode
    exact h.node r hr hid
  unfold rdfstoreNtriplesStatement
  rw [hs, hp, ho]
  simp only [Option.bind_eq_bind, Option.bind_some, hnode, if_false, Option.bind_eq_some_iff]
  constructor
  · rintro ⟨fs, hfs, fp, hfp, fo, hfo, fc, hfc, lines, hlines, hfits⟩
    obtain ⟨hs', -, rfl⟩ := (field_name hq.subject hsubject).1 hfs
    obtain ⟨hp', -, rfl⟩ := (field_name hq.predicate hpredicate).1 hfp
    obtain ⟨ho', -, rfl⟩ := (field_term hq.object hobject hnul).1 hfo
    obtain ⟨hc', hcr, rfl⟩ := (contextField_eq hq.context h.context).1 hfc
    obtain ⟨hn', hnr, rfl⟩ := (reification_eq hq.reified _ _ _ h.reified).1 hlines
    rw [line_eq, statementRoom_eq hsubject hpredicate hq.object hobject ho' h.context h.reified,
      written_eq_some_iff, length_line] at hfits
    obtain ⟨⟨hle, hint⟩, rfl⟩ := hfits
    exact ⟨⟨hs', hp', ho', hc', hn'⟩, ⟨hle, hint, hcr, hnr⟩, rfl⟩
  · rintro ⟨hsmall, hfits, rfl⟩
    obtain ⟨hsr, hpr, hor⟩ := q.room_le
    have hint := hfits.room
    refine ⟨_, (field_name hq.subject hsubject).2 ⟨hsmall.subject, by omega, rfl⟩,
      _, (field_name hq.predicate hpredicate).2 ⟨hsmall.predicate, by omega, rfl⟩,
      _, (field_term hq.object hobject hnul).2 ⟨hsmall.object, by omega, rfl⟩,
      _, (contextField_eq hq.context h.context).2 ⟨hsmall.context, hfits.context, rfl⟩,
      _, (reification_eq hq.reified _ _ _ h.reified).2 ⟨hsmall.reified, hfits.reified, rfl⟩, ?_⟩
    rw [line_eq, statementRoom_eq hsubject hpredicate hq.object hobject hsmall.object h.context h.reified,
      written_eq_some_iff, length_line]
    exact ⟨⟨hfits.line, hint⟩, rfl⟩

end RdfStore.NTriples
