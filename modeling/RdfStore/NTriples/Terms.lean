import RdfStore.NTriples.Escapes

/-!
# Statements as texts

A quad is what a statement says, with characters for bytes: the names and the
values from which the writer makes a line, and which the reader should find in
it again.

    what can be written and read back        (Quad.Readable)
    what a statement says                    (Quad.IsOf, Quad.contents)
-/

namespace RdfStore.NTriples

open ByteMem

/-! ## Terms -/

/-- A URI or a bNode. -/
inductive Name
  | uri (text : List Char)
  | bnode (label : Bytes)

/-- An object.  The parts of a language tag are those between its hyphens. -/
inductive Term
  | name (n : Name)
  | literal (text : List Char) (lang : List Bytes) (dataType : Option (List Char)) (parseType : ParseType)

structure Quad where
  subject : Name
  predicate : Name
  object : Term
  context : Option Name
  /-- the node of a statement that is reified -/
  reified : Option Name

def Name.bytes : Name → Bytes
  | .uri text => utf8 text
  | .bnode label => label

def Name.isBnode : Name → Bool
  | .uri _ => false
  | .bnode _ => true

/-- A language tag with its hyphens. -/
def langTag : List Bytes → Bytes
  | [] => []
  | [part] => part
  | part :: parts => part ++ 0x2d :: langTag parts

/-- The datatype that is written: a literal of parse type Literal has only one. -/
def writtenType (dataType : Option (List Char)) : ParseType → Option Bytes
  | .literal => some xmlLiteralUri
  | .normal => dataType.map utf8

/-! ## Well-formed terms -/

/-- Neither an angle bracket nor white space, nor the end of a C string. -/
def IsUriChar (c : Char) : Prop :=
  c.toNat ≠ 0x3c ∧ c.toNat ≠ 0x3e ∧ c.toNat ≠ 0x20 ∧ ¬ (0x09 ≤ c.toNat ∧ c.toNat ≤ 0x0d) ∧ c.toNat ≠ 0

/-- URIs are not empty, and labels match `[A-Za-z][A-Za-z0-9]*`. -/
def Name.WellFormed : Name → Prop
  | .uri text => text ≠ [] ∧ ∀ c ∈ text, IsUriChar c
  | .bnode label => ∃ a s, label = a :: s ∧ isLetter a = true ∧ ∀ b ∈ s, isLabelChar b = true

def Term.WellFormed : Term → Prop
  | .name n => n.WellFormed
  | .literal _ lang dataType _ =>
    (∀ part ∈ lang, part ≠ [] ∧ ∀ a ∈ part, isLangChar a = true) ∧ ∀ text ∈ dataType, ∀ c ∈ text, IsUriChar c

structure Quad.WellFormed (q : Quad) : Prop where
  subject : q.subject.WellFormed
  predicate : q.predicate.WellFormed
  object : q.object.WellFormed
  context : ∀ n ∈ q.context, n.WellFormed
  reified : ∀ n ∈ q.reified, n.WellFormed

/-! ## The terms of a statement -/

def Name.IsOf (n : Name) (r : Resource) : Prop :=
  r.identifier.map (·.bytes) = some n.bytes ∧ r.bnode = n.isBnode

/-- No constructor or setter stores an empty string. -/
def Term.IsOf : Term → Node → Prop
  | .name n, .resource r => n.IsOf r
  | .literal text lang dataType parseType, .literal l =>
    l.string.map (·.bytes) = (if text = [] then none else some (utf8 text)) ∧ l.lang.bytes = langTag lang ∧
      l.dataType.map (·.bytes) = dataType.map utf8 ∧ l.parseType = parseType
  | _, _ => False

/-- The terms of a statement in the context in which it is written. -/
structure Quad.IsOf (q : Quad) (st : Statement) (givenContext : Option Resource) : Prop where
  subject : ∃ r, st.subject = some r ∧ q.subject.IsOf r
  predicate : ∃ r, st.predicate = some r ∧ q.predicate.IsOf r
  object : ∃ node, st.object = some node ∧ q.object.IsOf node
  context : Option.Rel Name.IsOf q.context (givenContext <|> st.context)
  reified : Option.Rel Name.IsOf q.reified (reifiedNode st)
  node : ∀ r ∈ st.node, r.identifier ≠ none

/-! ## What is compared -/

/-- A node without its hash code and its parse type, and without the difference between what is
empty and what is missing. -/
inductive NodeContents
  | resource (bytes : Bytes) (bnode : Bool)
  | literal (string lang dataType : Bytes)
  deriving DecidableEq

structure Contents where
  subject : Option NodeContents
  predicate : Option NodeContents
  object : Option NodeContents
  context : Option NodeContents
  deriving DecidableEq

def resourceContents (r : Resource) : NodeContents := .resource r.bytes r.bnode

def nodeContents : Node → NodeContents
  | .resource r => resourceContents r
  | .literal l => .literal l.bytes l.lang.bytes l.dtBytes

/-- What a statement says in a context. -/
def statementContents (st : Statement) (context : Option Resource) : Contents :=
  ⟨st.subject.map resourceContents, st.predicate.map resourceContents, st.object.map nodeContents,
    context.map resourceContents⟩

def Name.contents (n : Name) : NodeContents := .resource n.bytes n.isBnode

def Term.contents : Term → NodeContents
  | .name n => n.contents
  | .literal text lang dataType _ => .literal (utf8 text) (langTag lang) ((dataType.map utf8).getD [])

def Quad.contents (q : Quad) : Contents :=
  ⟨some q.subject.contents, some q.predicate.contents, some q.object.contents, q.context.map Name.contents⟩

theorem Name.IsOf.contents {n : Name} {r : Resource} (h : n.IsOf r) : resourceContents r = n.contents := by
  unfold resourceContents Name.contents Resource.bytes
  rw [h.1, h.2]
  rfl

theorem Term.IsOf.contents {t : Term} {node : Node} (h : t.IsOf node) : nodeContents node = t.contents := by
  cases t with
  | name n =>
    cases node with
    | resource r => exact Name.IsOf.contents h
    | literal l => cases h
  | literal text lang dataType parseType =>
    cases node with
    | resource r => cases h
    | literal l =>
      obtain ⟨hstring, hlang, htype, -⟩ := h
      have hbytes : l.bytes = utf8 text := by
        unfold Literal.bytes
        rw [hstring]
        split
        · next hnil => rw [hnil]; rfl
        · rfl
      have hdt : l.dtBytes = (dataType.map utf8).getD [] := congrArg (·.getD []) htype
      show NodeContents.literal l.bytes l.lang.bytes l.dtBytes = _
      rw [hbytes, hlang, hdt]
      rfl

theorem map_contents_of_rel {n : Option Name} {r : Option Resource} (h : Option.Rel Name.IsOf n r) :
    r.map resourceContents = n.map Name.contents := by
  cases h with
  | none => rfl
  | some h => exact congrArg some h.contents

theorem Quad.IsOf.contents {q : Quad} {st : Statement} {givenContext : Option Resource}
    (h : q.IsOf st givenContext) : statementContents st (givenContext <|> st.context) = q.contents := by
  obtain ⟨s, hs, hsubject⟩ := h.subject
  obtain ⟨p, hp, hpredicate⟩ := h.predicate
  obtain ⟨o, ho, hobject⟩ := h.object
  unfold statementContents Quad.contents
  rw [hs, hp, ho, Option.map_some, Option.map_some, Option.map_some, hsubject.contents, hpredicate.contents,
    hobject.contents]
  rw [map_contents_of_rel h.context]

/-! ## What can be read back -/

/-- Not a control character. -/
def IsPrintable (c : Char) : Prop := c.toNat < 0x80 → 0x20 ≤ c.toNat ∧ c.toNat ≠ 0x7f

/-- The reader takes `0` for no URI. -/
def Name.Readable : Name → Prop
  | .uri text => Unharmed text ∧ (∀ c ∈ text, IsPrintable c) ∧ utf8 text ≠ ascii "0"
  | .bnode _ => True

/-- What is written, and not read: the name of a reified statement. -/
def Name.Writable : Name → Prop
  | .uri text => (∀ c ∈ text, c.toNat < 0x100000) ∧ ∀ c ∈ text, IsPrintable c
  | .bnode _ => True

/-- The reader knows a language and one subtag, and the writer does not escape a datatype. -/
def Term.Readable : Term → Prop
  | .name n => n.Readable
  | .literal text lang dataType parseType =>
    (text ≠ [] ∧ Unharmed text ∧ ∀ c ∈ text, IsPrintable c) ∧
      (lang.length ≤ 2 ∧ (langTag lang).length ≤ maxLangLength) ∧
      writtenType dataType parseType = dataType.map utf8 ∧
      ∀ text ∈ dataType, (∀ c ∈ text, c.toNat < 0x80 ∧ IsPrintable c) ∧ NoSequence (utf8 text)

def Term.IsName : Term → Prop
  | .name _ => True
  | .literal .. => False

/-! ## The room for a line -/

/-- The length of what is written for a code point. -/
def characterSize (n : Nat) : Nat := if IsSpecial n then 2 else if n < 0x80 then 1 else hexWidth n + 2

def writtenSize (text : List Char) : Nat := (text.map fun c => characterSize c.toNat).sum

/-- A name, what encloses it and a blank. -/
def Name.size : Name → Nat
  | .uri text => writtenSize text + 3
  | .bnode label => label.length + 3

def Name.room : Name → Nat
  | .uri text => (utf8 text).length * escapeRoom + 4
  | .bnode label => label.length + 4

/-- The room for a name that is taken to have no escape sequences. -/
def Name.plainRoom (n : Name) : Nat := n.bytes.length + 4

/-- The language and the datatype with their marks. -/
def suffixSize (lang : List Bytes) (dataType : Option Bytes) : Nat :=
  (if lang = [] then 0 else (langTag lang).length + 1) + (dataType.map fun dt => dt.length + 4).getD 0

def Term.size : Term → Nat
  | .name n => n.size
  | .literal text lang dataType parseType =>
    writtenSize text + 3 + suffixSize lang (writtenType dataType parseType)

def Term.room : Term → Nat
  | .name n => n.room
  | .literal text lang dataType parseType =>
    (utf8 text).length * escapeRoom + 4 + suffixSize lang (writtenType dataType parseType)

/-- The length of the URIs of the reification vocabulary. -/
def vocabularySize : Nat :=
  rdfmsType.length + rdfmsStatement.length + rdfmsSubject.length + rdfmsPredicate.length + rdfmsObject.length

/-- What the writer writes, with a NUL. -/
def Quad.size (q : Quad) : Nat :=
  q.subject.size + q.predicate.size + q.object.size + (q.context.map Name.size).getD 0 + 3 +
    (q.reified.map fun n =>
      4 * n.size + vocabularySize + 27 + q.subject.size + q.predicate.size + q.object.size).getD 0

/-- What the writer has allocated. -/
def Quad.room (q : Quad) : Nat :=
  q.subject.room + q.predicate.room + q.object.room + (q.context.map Name.plainRoom).getD 0 + 3 +
    (q.reified.map fun n =>
      4 * n.plainRoom + vocabularySize + 20 + q.subject.room + q.predicate.room + q.object.room).getD 0

/-- The line fits its buffer, and no buffer is larger than an `int` can tell. -/
structure Quad.Fits (q : Quad) : Prop where
  line : q.size ≤ q.room
  room : q.room < 2 ^ 31
  context : ∀ n ∈ q.context, n.room ≤ 2 ^ 31
  reified : ∀ n ∈ q.reified, n.room ≤ 2 ^ 31

/-- What the reader finds again. -/
structure Quad.Readable (q : Quad) : Prop where
  subject : q.subject.Readable
  predicate : q.predicate.Readable
  object : q.object.Readable
  context : ∀ n ∈ q.context, n.Readable
  reified : ∀ n ∈ q.reified, n.Writable ∧ q.object.IsName
  fits : q.Fits

end RdfStore.NTriples
