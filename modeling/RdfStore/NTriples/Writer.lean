import RdfStore.Utf8

/-!
# Writing N-Triples (`rdfstore_serializer.c`)

A node is written into a buffer of a size computed beforehand and copied from
there, up to its first NUL, into the buffer of the statement.  A character of
more than one byte is written as `\u` and its hexadecimal digits, which are five
or six beyond U+FFFF.  A read or a write behind the end of a buffer is undefined, and
so is a size beyond C's `int`: they count as no result, like NULL.
-/

namespace RdfStore.NTriples

open ByteMem

/-! ## Escape sequences -/

def hexDigit (n : Nat) : UInt8 := if n < 10 then (0x30 + n).toUInt8 else (0x37 + n).toUInt8

/-- The last `width` hexadecimal digits. -/
def hexFixed : Nat → Nat → Bytes
  | 0, _ => []
  | width + 1, n => hexFixed width (n / 16) ++ [hexDigit (n % 16)]

/-- How many digits `%04lX` writes. -/
def hexWidth (n : Nat) : Nat :=
  if n < 0x10000 then 4
  else if n < 0x100000 then 5
  else if n < 0x1000000 then 6
  else if n < 0x10000000 then 7
  else 8

/-- `sprintf(es, "\\u%04lX", cp)` or `sprintf(es, "\\U%08lX", cp)` -/
def escapeSequence (utf8Size cp : Nat) : Bytes :=
  if utf8Size ≤ 4 then 0x5c :: 0x75 :: hexFixed (hexWidth cp) cp else 0x5c :: 0x55 :: hexFixed 8 cp

/-- The size of `es`, in which a NUL goes behind the sequence. -/
def esSize : Nat := 8

/-- `utf8_size` when the bytes are no character. -/
def invalidSize (a : UInt8) : Nat := if 0xc0 ≤ a ∧ a ≤ 0xfd then utf8ToSkip a else 0

/-- The loop over the bytes of a URI or of a literal, with `skip` bytes of a character to pass. -/
def escapeFrom : Nat → Bytes → Option Bytes
  | _, [] => some []
  | skip + 1, _ :: rest => escapeFrom skip rest
  | 0, a :: rest =>
    if a = 0x09 then (escapeFrom 0 rest).map (ascii "\\t" ++ ·)
    else if a = 0x0a then (escapeFrom 0 rest).map (ascii "\\n" ++ ·)
    else if a = 0x0d then (escapeFrom 0 rest).map (ascii "\\r" ++ ·)
    else if a = 0x5c then (escapeFrom 0 rest).map (ascii "\\\\" ++ ·)
    else if a = 0x22 then (escapeFrom 0 rest).map (ascii "\\\"" ++ ·)
    else
      match rdfstoreUtf8IsUtf8 (a :: rest) with
      | some utf8Size =>
        if utf8Size > 1 then
          match rdfstoreUtf8Utf8ToCp utf8Size (a :: rest) with
          | none => none
          | some cp =>
            let es := escapeSequence utf8Size cp
            if es.length ≥ esSize then none else (escapeFrom (utf8Size - 1) rest).map (es ++ ·)
        else (escapeFrom 0 rest).map (a :: ·)
      | none =>
        -- the bytes are copied from the string and the NUL behind it
        if invalidSize a ≤ rest.length + 2 then
          (escapeFrom 0 rest).map ((a :: rest ++ [0]).take (invalidSize a) ++ ·)
        else none

def escape (s : Bytes) : Option Bytes := escapeFrom 0 s

/-! ## Nodes -/

/-- `^^` and the datatype. -/
def typeSuffix (l : Literal) : Bytes :=
  if l.parseType = .literal then ascii "^^<" ++ xmlLiteralUri ++ ascii ">"
  else
    match l.dataType with
    | some dt => ascii "^^<" ++ dt.bytes ++ ascii ">"
    | none => []

/-- What stands behind the string: the language and the datatype. -/
def literalSuffix (l : Literal) : Bytes :=
  (if l.lang.bytes.length > 0 then ascii "@" ++ l.lang.bytes else []) ++ typeSuffix l

/-- The bytes that `literalSuffix` is given, without those of the string. -/
def suffixRoom (l : Literal) : Nat :=
  (if l.lang.bytes.length > 0 then l.lang.bytes.length + 1 else 0) +
    (if l.parseType = .literal then xmlLiteralUri.length + 4
      else
        match l.dataType with
        | some dt => dt.bytes.length + 4
        | none => 0)

/-- `RDFSTORE_UTF8_MAXLEN+1+2` for every byte. -/
def escapeRoom : Nat := 10

/-- The size of the buffer of a node. -/
def nodeRoom : Node → Nat
  | .resource r => if r.bnode then r.bytes.length + 3 else r.bytes.length * escapeRoom + 3
  | .literal l =>
    (match l.string with
      | some string => string.bytes.length * escapeRoom + 3
      | none => 0) + suffixRoom l

/-- What is written for a node. -/
def nodeText : Node → Option Bytes
  | .resource r =>
    match r.identifier with
    | none => none
    | some identifier =>
      if r.bnode then some (ascii "_:" ++ identifier.bytes)
      else (escape identifier.bytes).map fun es => ascii "<" ++ es ++ ascii ">"
  | .literal l => (escape l.bytes).map fun es => ascii "\"" ++ es ++ ascii "\"" ++ literalSuffix l

/-- What is written into a buffer of the given size; there has to be room for a NUL. -/
def written (text : Bytes) (room : Nat) : Option Bytes :=
  if text.length + 1 ≤ room ∧ room < 2 ^ 31 then some text else none

/-- `rdfstore_ntriples_node` -/
def rdfstoreNtriplesNode (node : Node) : Option Bytes :=
  match nodeText node with
  | none => none
  | some text => written text (nodeRoom node)

/-! ## Statements -/

def rdfmsType : Bytes := ascii "http://www.w3.org/1999/02/22-rdf-syntax-ns#type"

def rdfmsStatement : Bytes := ascii "http://www.w3.org/1999/02/22-rdf-syntax-ns#Statement"

def rdfmsSubject : Bytes := ascii "http://www.w3.org/1999/02/22-rdf-syntax-ns#subject"

def rdfmsPredicate : Bytes := ascii "http://www.w3.org/1999/02/22-rdf-syntax-ns#predicate"

def rdfmsObject : Bytes := ascii "http://www.w3.org/1999/02/22-rdf-syntax-ns#object"

/-- `s_len`, `p_len` -/
def resourceRoom (r : Resource) : Nat :=
  if r.bnode then r.bytes.length + 4 else r.bytes.length * escapeRoom + 4

/-- `o_len` -/
def objectRoom : Node → Nat
  | .resource r => resourceRoom r
  | .literal l =>
    (match l.string with
      | some string => string.bytes.length * escapeRoom + 3
      | none => 0) + suffixRoom l + 1

/-- `c_len`, which leaves no room for escape sequences. -/
def contextRoom : Option Resource → Nat
  | some c => c.bytes.length + 4
  | none => 0

/-- `reification_len`, which leaves none in the label of the statement. -/
def reificationRoom (node : Resource) (s p o : Nat) : Nat :=
  (node.bytes.length + 4) * 4 + (rdfmsType.length + 4) + (rdfmsStatement.length + 4) +
    (rdfmsSubject.length + 4) + s + (rdfmsPredicate.length + 4) + p + (rdfmsObject.length + 4) + o

/-- A node as it is copied, up to its first NUL, and a blank. -/
def field (node : Node) : Option Bytes := (rdfstoreNtriplesNode node).map fun text => cstr text ++ ascii " "

def uriField (uri : Bytes) : Bytes := ascii "<" ++ uri ++ ascii "> "

/-- The four lines about a reified statement. -/
def reificationLines (node s p o : Bytes) : Bytes :=
  ascii "\n" ++ node ++ uriField rdfmsType ++ uriField rdfmsStatement ++ ascii ". \n" ++
    node ++ uriField rdfmsSubject ++ s ++ ascii ". \n" ++
    node ++ uriField rdfmsPredicate ++ p ++ ascii ". \n" ++
    node ++ uriField rdfmsObject ++ o ++ ascii ". "

/-- The node of a statement that is reified. -/
def reifiedNode (st : Statement) : Option Resource := if st.isreified then st.node else none

/-- The size of the buffer of a statement. -/
def statementRoom (st : Statement) (context : Option Resource) (subject predicate : Resource) (object : Node) :
    Nat :=
  let s := resourceRoom subject
  let p := resourceRoom predicate
  let o := objectRoom object
  s + p + o + contextRoom context + 3 +
    (match reifiedNode st with
      | some node => reificationRoom node s p o
      | none => 0)

/-- `rdfstore_ntriples_statement` -/
def rdfstoreNtriplesStatement (st : Statement) (givenContext : Option Resource) : Option Bytes := do
  let subject ← st.subject
  let predicate ← st.predicate
  let object ← st.object
  -- a node without an identifier is refused even when it is not written
  if (st.node.map (·.identifier)) = some none then none
  let context := givenContext <|> st.context
  let s ← field (.resource subject)
  let p ← field (.resource predicate)
  let o ← field object
  let c ← (match context with
    | some context => field (.resource context)
    | none => some [])
  let reification ← (match reifiedNode st with
    | some node => (field (.resource node)).map fun n => reificationLines n s p o
    | none => some [])
  let text := s ++ p ++ o ++ c ++ ascii ". " ++ reification
  written text (statementRoom st context subject predicate object)

end RdfStore.NTriples
