import RdfStore.NTriples.Written
import RdfStore.NTriples.Reader

/-!
# Documents (`parse` of `RDFStore/Parser/NTriples.pm`)

A file handle is read line by line; a string is split at the full stops in front
of line ends.  The pieces go to the same parser, which ends everything when it
dies.

    the grammar of documents           (Line.WellFormed)
    the pieces of a document           (chunks)
-/

namespace RdfStore.NTriples

open ByteMem

/-! ## The parser -/

/-- The statements that are asserted, and whether the parser died. -/
def assertAll : List Parsed → List (Option Statement) × Bool
  | [] => ([], false)
  | .died :: _ => ([], true)
  | .skipped :: rest => assertAll rest
  | .asserted st :: rest => (st :: (assertAll rest).1, (assertAll rest).2)

/-- One more in the first of the pieces. -/
def consHead {α : Type*} (a : α) : List (List α) → List (List α)
  | [] => [[a]]
  | piece :: pieces => (a :: piece) :: pieces

/-- `<$arg>`, again and again. -/
def readLines : Bytes → List Bytes
  | [] => []
  | a :: s => if a = 0x0a then [a] :: readLines s else consHead a (readLines s)

/-- `[\n\r]` -/
def isEol (a : UInt8) : Bool := a = 0x0a || a = 0x0d

/-- The fields between `\.[\n\r]+`; what comes first belongs to a field, or to the line ends behind a
full stop. -/
def splitFields : Bool → Bytes → List Bytes
  | _, [] => [[]]
  | inEol, a :: s =>
    if inEol && isEol a then splitFields true s
    else if a = 0x2e && s.head?.any isEol then [] :: splitFields true s
    else consHead a (splitFields false s)

/-- Perl's `split` leaves out the empty fields at the end. -/
def dropTrailing : List Bytes → List Bytes
  | [] => []
  | field :: fields =>
    match dropTrailing fields with
    | [] => if field = [] then [] else [field]
    | rest => field :: rest

/-- `parse` with a file handle -/
def parseStream (sSource : Option Bytes) (arg : Bytes) : List (Option Statement) × Bool :=
  assertAll ((readLines arg).map (ppNTriple sSource))

/-- `parse` with a string -/
def parseString (sSource : Option Bytes) (arg : Bytes) : List (Option Statement) × Bool :=
  assertAll ((dropTrailing (splitFields false arg)).map fun field => ppNTriple sSource (field ++ ascii " . "))

example : parseString none (ascii "<a> <b> <c>.\n<d> <e> <f> .\n") = parseStream none (ascii "<a> <b> <c>.\n<d> <e> <f> .\n") := by
  decide

/-! ## The grammar -/

/-- A printable ASCII character. -/
def isCharacter (a : UInt8) : Bool := 0x20 ≤ a && a ≤ 0x7e

/-- No delimiter and no white space, also when written as an escape sequence. -/
structure IsUriref (u : Bytes) : Prop where
  nonempty : u ≠ []
  character : ∀ b ∈ u, isCharacter b = true
  raw : ∀ b ∈ u, b ≠ 0x3c ∧ b ≠ 0x3e ∧ b ≠ 0x22 ∧ isWhite b = false
  escaped : ∀ b ∈ unescape u, b ≠ 0x3c ∧ b ≠ 0x3e ∧ b ≠ 0x22 ∧ isWhite b = false

/-- The inside of a literal. -/
inductive IsString : Bytes → Prop
  | nil : IsString []
  | character {a : UInt8} {s : Bytes} (ha : isCharacter a = true) (hquote : a ≠ 0x22) (hbackslash : a ≠ 0x5c)
      (hs : IsString s) : IsString (a :: s)
  | escape {a : UInt8} {s : Bytes} (ha : a ∈ ascii "tnr\"\\") (hs : IsString s) : IsString (0x5c :: a :: s)
  | short {ds s : Bytes} (hds : ∀ a ∈ ds, isHex a = true) (hlen : ds.length = 4) (hs : IsString s) :
      IsString (0x5c :: 0x75 :: (ds ++ s))
  | long {ds s : Bytes} (hds : ∀ a ∈ ds, isHex a = true) (hlen : ds.length = 8) (hs : IsString s) :
      IsString (0x5c :: 0x55 :: (ds ++ s))

/-- `uriref` or `nodeID` -/
inductive NameText
  | uriref (u : Bytes)
  | nodeId (label : Bytes)

def NameText.bytes : NameText → Bytes
  | .uriref u => 0x3c :: (u ++ [0x3e])
  | .nodeId label => 0x5f :: 0x3a :: label

def NameText.WellFormed : NameText → Prop
  | .uriref u => IsUriref u
  | .nodeId label => (Name.bnode label).WellFormed

/-- `object` -/
inductive ObjectText
  | name (n : NameText)
  | literal (string : Bytes) (lang : List Bytes) (dataType : Option Bytes)

def ObjectText.bytes : ObjectText → Bytes
  | .name n => n.bytes
  | .literal string lang dataType => 0x22 :: (string ++ 0x22 :: suffixText lang dataType)

def ObjectText.WellFormed : ObjectText → Prop
  | .name n => n.WellFormed
  | .literal string lang dataType =>
    IsString string ∧ (∀ part ∈ lang, part ≠ [] ∧ ∀ a ∈ part, isLangChar a = true) ∧ ∀ dt ∈ dataType, IsUriref dt

/-- `triple`, with the white space in it. -/
structure TripleText where
  subject : NameText
  gap1 : Bytes
  predicate : Bytes
  gap2 : Bytes
  object : ObjectText
  gap3 : Bytes
  /-- behind the full stop -/
  gap4 : Bytes

/-- White space of N-Triples. -/
def Blank (s : Bytes) : Prop := ∀ b ∈ s, isBlank b = true

structure TripleText.WellFormed (t : TripleText) : Prop where
  subject : t.subject.WellFormed
  predicate : IsUriref t.predicate
  object : t.object.WellFormed
  gap1 : t.gap1 ≠ [] ∧ Blank t.gap1
  gap2 : t.gap2 ≠ [] ∧ Blank t.gap2
  gap3 : Blank t.gap3
  gap4 : Blank t.gap4

/-- What is before the full stop. -/
def TripleText.core (t : TripleText) : Bytes :=
  t.subject.bytes ++ (t.gap1 ++ ((NameText.uriref t.predicate).bytes ++ (t.gap2 ++ (t.object.bytes ++ t.gap3))))

inductive LineEnd
  | lf
  | cr
  | crlf

def LineEnd.bytes : LineEnd → Bytes
  | .lf => [0x0a]
  | .cr => [0x0d]
  | .crlf => [0x0d, 0x0a]

inductive LineKind
  | blank
  | comment (text : Bytes)
  | triple (t : TripleText)

/-- `line` -/
structure Line where
  indent : Bytes
  kind : LineKind
  eol : LineEnd

/-- What is between the white space at the beginning and the line end. -/
def LineKind.content : LineKind → Bytes
  | .blank => []
  | .comment text => 0x23 :: text
  | .triple t => t.core ++ 0x2e :: t.gap4

def LineKind.WellFormed : LineKind → Prop
  | .blank => True
  | .comment text => ∀ b ∈ text, isCharacter b = true ∨ b = 0x09
  | .triple t => t.WellFormed

structure Line.WellFormed (l : Line) : Prop where
  indent : Blank l.indent
  kind : l.kind.WellFormed

def Line.text (l : Line) : Bytes := l.indent ++ (l.kind.content ++ l.eol.bytes)

def docText (lines : List Line) : Bytes := lines.flatMap Line.text

/-! ## The pieces of a document -/

/-- A full stop directly in front of the line end. -/
def Line.tight (l : Line) : Bool := l.kind.content.getLast? = some 0x2e

/-- Nothing but the line end. -/
def Line.bare (l : Line) : Bool :=
  match l.kind with
  | .blank => l.indent = []
  | _ => false

/-- The lines up to a tight one, again and again, without the bare ones behind it. -/
def chunksFrom : Bool → List Line → List (List Line)
  | _, [] => [[]]
  | inEol, l :: lines =>
    if inEol && l.bare then chunksFrom true lines
    else if l.tight then [l] :: chunksFrom true lines
    else consHead l (chunksFrom false lines)

/-- The pieces of a document. -/
def chunks (lines : List Line) : List (List Line) := (chunksFrom false lines).filter (· ≠ [])

end RdfStore.NTriples
