import RdfStore.Utf8
import RdfStore.Lib.Scan

/-!
# Reading N-Triples (`RDFStore/Parser/NTriples.pm`, `NodeFactory.pm`)

A line is trimmed, its escape sequences `\u` and `\U` are replaced wherever they
stand, and what has come of it is taken apart by one regular expression after
another.  No other escape sequence is replaced.  The constructors see their
arguments as C strings.
-/

namespace RdfStore.NTriples

open ByteMem Scan

/-! ## Nodes -/

def CBuf.ofBytes (l : Bytes) : Option CBuf := if h : l.length < 2 ^ 31 then some ⟨l, h⟩ else none

/-- The C string in a Perl string. -/
def CString.ofBytes (l : Bytes) : Option CString :=
  if h : (cstr l).length < 2 ^ 31 then some ⟨cstr l, not_mem_cstr l, h⟩ else none

/-- `createResource`: an empty URI is none, and so is `0`. -/
def createResource (uri : Bytes) : Option Resource :=
  if uri = [] ∨ uri = ascii "0" then none else rdfstoreResourceNew (CBuf.ofBytes (cstr uri)) 0

/-- `createbNode` -/
def createbNode (label : Bytes) : Option Resource := rdfstoreResourceNew (CBuf.ofBytes (cstr label)) 2

/-- `createLiteral`; what is not defined arrives as an empty string. -/
def createLiteral (content : Bytes) (parseType : Int) (lang dt : Bytes) : Option Node :=
  (rdfstoreLiteralNew (CBuf.ofBytes (cstr content)) parseType (CString.ofBytes lang)
    (CString.ofBytes dt)).map .literal

/-! ## Characters -/

/-- `[\x20\x09]` -/
def isBlank (a : UInt8) : Bool := a = 0x20 || a = 0x09

/-- `\s` -/
def isWhite (a : UInt8) : Bool := a = 0x20 || a = 0x09 || a = 0x0a || a = 0x0c || a = 0x0d

/-- `[\x20-\x7e\x0d\x0a\x09]` -/
def isAllowed (a : UInt8) : Bool := (0x20 ≤ a && a ≤ 0x7e) || a = 0x0d || a = 0x0a || a = 0x09

/-- `[0-9]` -/
def isDigit (a : UInt8) : Bool := 0x30 ≤ a && a ≤ 0x39

/-- `[A-Za-z]` -/
def isLetter (a : UInt8) : Bool := (0x41 ≤ a && a ≤ 0x5a) || (0x61 ≤ a && a ≤ 0x7a)

/-- `[A-Za-z0-9]` -/
def isLabelChar (a : UInt8) : Bool := isLetter a || isDigit a

/-- `[a-z0-9]` -/
def isLangChar (a : UInt8) : Bool := (0x61 ≤ a && a ≤ 0x7a) || isDigit a

/-- `[0-9a-fA-F]` -/
def isHex (a : UInt8) : Bool := isDigit a || (0x61 ≤ a && a ≤ 0x66) || (0x41 ≤ a && a ≤ 0x46)

/-! ## The line as a whole -/

/-- `chomp` -/
def chomp (s : Bytes) : Bytes := if s.getLast? = some 0x0a then s.dropLast else s

/-- `s/^[\x20\x09]+//` -/
def trimStart (s : Bytes) : Bytes := s.dropWhile isBlank

/-- `s/[\x20\x09]+$//`, where the end may also be before a last line feed. -/
def trimEnd (s : Bytes) : Bytes :=
  if s.getLast? = some 0x0a then (s.dropLast.reverse.dropWhile isBlank).reverse ++ [0x0a]
  else (s.reverse.dropWhile isBlank).reverse

/-- `s/\.\s?$//`, from the end: a full stop, white space behind it, and a line feed behind that. -/
def stripFullStop (s : Bytes) : Option Bytes :=
  match s.reverse with
  | 0x2e :: r => some r.reverse
  | a :: 0x2e :: r => if isWhite a then some r.reverse else none
  | 0x0a :: a :: 0x2e :: r => if isWhite a then some (r.reverse ++ [0x0a]) else none
  | _ => none

/-! ## Escape sequences -/

def hexVal (a : UInt8) : Nat :=
  if isDigit a then a.toNat - 0x30 else if 0x61 ≤ a then a.toNat - 0x57 else a.toNat - 0x37

/-- `hex` -/
def hexValue (ds : Bytes) : Nat := ds.foldl (fun n a => 16 * n + hexVal a) 0

/-- The digits that `[0-9a-fA-F]{4,8}` would take. -/
def hexRun (s : Bytes) : Bytes := (s.takeWhile isHex).take 8

/-- The digits behind a backslash and `u` or `U`, if there are four. -/
def uEscape : Bytes → Option Bytes
  | [] => none
  | u :: s => if (u = 0x75 ∨ u = 0x55) ∧ 4 ≤ (hexRun s).length then some (hexRun s) else none

/-- `s/\\[uU]([0-9a-fA-F]{4,8})/&cp_to_utf8(hex($1))/xeg`, with `skip` characters of a sequence to
pass. -/
def unescapeFrom : Nat → Bytes → Bytes
  | _, [] => []
  | skip + 1, _ :: s => unescapeFrom skip s
  | 0, a :: s =>
    if a = 0x5c then
      match uEscape s with
      | some ds => rdfstoreUtf8CpToUtf8 (hexValue ds) ++ unescapeFrom (ds.length + 1) s
      | none => a :: unescapeFrom 0 s
    else a :: unescapeFrom 0 s

def unescape (s : Bytes) : Bytes := unescapeFrom 0 s

/-! ## Tokens -/

/-- `^<([^>]*)>` -/
def scanUriref : Bytes → Option (Bytes × Bytes)
  | [] => none
  | a :: s =>
    if a = 0x3c ∧ 0x3e ∈ s then some (s.takeWhile (· ≠ 0x3e), (s.dropWhile (· ≠ 0x3e)).tail) else none

/-- `^_:([A-Za-z][A-Za-z0-9]*)` -/
def scanNodeId : Bytes → Option (Bytes × Bytes)
  | a :: b :: c :: s =>
    if a = 0x5f ∧ b = 0x3a ∧ isLetter c then some (c :: s.takeWhile isLabelChar, s.dropWhile isLabelChar)
    else none
  | _ => none

/-- `[\x20\x09]+` -/
def blanks (s : Bytes) : Option Bytes := if (s.head?).any isBlank then some (s.dropWhile isBlank) else none

/-- `[\x20\x09]*` -/
def skipBlanks (s : Bytes) : Bytes := s.dropWhile isBlank

/-- `[a-z0-9]+(-[a-z0-9]+)?` -/
def scanLang (s : Bytes) : Option (Bytes × Bytes) :=
  let a := s.takeWhile isLangChar
  let rest := s.dropWhile isLangChar
  if a = [] then none
  else
    match rest with
    | [] => some (a, rest)
    | m :: t =>
      if m = 0x2d ∧ t.takeWhile isLangChar ≠ [] then
        some (a ++ 0x2d :: t.takeWhile isLangChar, t.dropWhile isLangChar)
      else some (a, rest)

/-- `\^\^<([^>]*)>` -/
def scanType : Bytes → Option (Bytes × Bytes)
  | a :: b :: s => if a = 0x5e ∧ b = 0x5e then scanUriref s else none
  | _ => none

/-- `\@([a-z0-9]+(-[a-z0-9]+)?)` -/
def scanAtLang : Bytes → Option (Bytes × Bytes)
  | a :: s => if a = 0x40 then scanLang s else none
  | [] => none

/-- What is found behind the string of a literal: language and datatype. -/
abbrev Suffix := Bytes × Bytes

/-- `\@([a-z0-9]+(-[a-z0-9]+)?)\^\^<([^>]*)>` -/
def scanLangType (s : Bytes) : Option (Suffix × Bytes) :=
  (scanAtLang s).bind fun l => (scanType l.2).map fun t => ((l.1, t.1), t.2)

/-- `^"(.*)"` and a pattern. -/
def scanQuoted (p : Bytes → Option (Suffix × Bytes)) : Bytes → Option ((Bytes × Suffix) × Bytes)
  | [] => none
  | a :: s => if a = 0x22 then lastSplit p 0x22 s else none

/-- The four expressions for a literal, in their order. -/
def scanLiteral (s : Bytes) : Option ((Bytes × Suffix) × Bytes) :=
  scanQuoted scanLangType s <|>
    scanQuoted (fun y => (scanType y).map fun t => (([], t.1), t.2)) s <|>
    scanQuoted (fun y => (scanAtLang y).map fun l => ((l.1, []), l.2)) s <|>
    scanQuoted (fun y => some (([], []), y)) s

/-! ## Statements -/

/-- Subject and predicate. -/
def scanSubject (s : Bytes) : Option (Option Resource × Bytes) :=
  ((scanUriref s).bind fun t => (blanks t.2).map fun rest => (createResource t.1, rest)) <|>
    ((scanNodeId s).bind fun t => (blanks t.2).map fun rest => (createbNode t.1, rest))

/-- The literal that a string, a language and a datatype make. -/
def literalNode (t : Bytes × Suffix) : Option Node :=
  createLiteral t.1 (if t.2.2 = xmlLiteralUri then 1 else 0) t.2.1 t.2.2

def scanObject (s : Bytes) : Option (Option Node × Bytes) :=
  (scanUriref s).map (fun t => ((createResource t.1).map .resource, skipBlanks t.2)) <|>
    (scanNodeId s).map (fun t => ((createbNode t.1).map .resource, skipBlanks t.2)) <|>
    (scanLiteral s).map (fun t => (literalNode t.1, skipBlanks t.2))

/-- `^\s*\.` -/
def startsWithFullStop (s : Bytes) : Bool := (s.dropWhile isWhite).head? = some 0x2e

/-- The context, when something is left; a full stop may follow the object. -/
def scanContext (s : Bytes) : Option (Option Resource) :=
  if s = [] then some none
  else
    (scanUriref s).map (fun t => createResource t.1) <|>
      (scanNodeId s).map (fun t => createbNode t.1) <|>
      (if startsWithFullStop s then some none else none)

/-- `addTriple`: a subject that is missing or false is replaced by the source; without subject,
predicate or object there is no statement. -/
def addTriple (sSource : Option Bytes) (subject predicate : Option Resource) (object : Option Node)
    (context : Option Resource) : Option Statement :=
  let subject := subject.filter fun r => r.bytes ≠ [] ∧ r.bytes ≠ ascii "0"
  match subject <|> sSource.bind createResource, predicate, object with
  | some s, some p, some o => some ⟨some s, some p, some o, context, none, 0, false⟩
  | _, _, _ => none

/-- What a line comes to: `die`, nothing, or the handler called with a statement or with `undef`. -/
inductive Parsed
  | died
  | skipped
  | asserted (st : Option Statement)
  deriving DecidableEq

/-- A line without white space around it, without the full stop and with its sequences replaced. -/
def parseTriple (sSource : Option Bytes) (s : Bytes) : Option (Option Statement) := do
  let (subject, s) ← scanSubject s
  let (predicate, s) ← scanSubject s
  let (object, s) ← scanObject s
  let context ← scanContext s
  some (addTriple sSource subject predicate object context)

/-- `_pp_NTriple` -/
def ppNTriple (sSource : Option Bytes) (ntriple : Bytes) : Parsed :=
  let s := trimEnd (trimStart (chomp ntriple))
  if s.head? = some 0x23 then .skipped
  else if s.all isWhite then .skipped
  else if !s.all isAllowed then .died
  else
    match (stripFullStop s).bind fun s => parseTriple sSource (unescape s) with
    | none => .died
    | some st => .asserted st

end RdfStore.NTriples
