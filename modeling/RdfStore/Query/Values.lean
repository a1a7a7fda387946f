import RdfStore.Types
import RdfStore.NTriples.Reader

/-!
# The values of constraints (`DBD::RDFStore::db::constraints`)

What lies on the stacks of `eval`: a node of the binding, or a text or a number
of Perl's.  `isNumeric` dies on a resource, which has no `getDataType`.
-/

namespace RdfStore.Query

open ByteMem

/-- Whether a text is in a list is decided by comparing bytes. -/
instance lawfulBEqBytes : LawfulBEq Bytes := inferInstance

/-! ## Perl -/

/-- Perl's numbers, its regular expressions, and what else the operators take from it. -/
structure Perl where
  Number : Type
  ofNat : ℕ → Number
  /-- A number as it is written. -/
  text : Number → Bytes
  /-- The number that a text begins with; 0 where there is none. -/
  number : Bytes → Number
  add : Number → Number → Number
  subtract : Number → Number → Number
  multiply : Number → Number → Number
  /-- `none` is the error for a divisor 0. -/
  divide : Number → Number → Option Number
  modulo : Number → Number → Option Number
  abs : Number → Number
  negate : Number → Number
  /-- `-` in front of a text that is no number is put on the text. -/
  negateText : Bytes → Bytes ⊕ Number
  int : Number → Number
  less : Number → Number → Bool
  equal : Number → Number → Bool
  uc : Bytes → Bytes
  lc : Bytes → Bytes
  /-- `$b =~ /$a/`; `none` is an error in the expression. -/
  matchesExpression : Bytes → Bytes → Option Bool
  /-- Whether the last expression that matched, for which an empty one stands, matches. -/
  matchesLast : Bytes → Bool
  /-- What is before and behind `\Q$a\E` in `$b`, or in the last text in which something was found. -/
  before : Bytes → Bytes → Bytes
  after : Bytes → Bytes → Bytes
  /-- Whether a program has a true value. -/
  eval : Bytes → Bool

/-! ## Values -/

inductive Value (P : Perl)
  | undef
  | node (n : Node)
  | text (s : Bytes)
  | number (x : P.Number)

/-- `toString`, up to the first NUL. -/
def Node.toString : Node → Bytes
  | .resource r => cstr r.bytes
  | .literal l => cstr l.bytes

variable {P : Perl}

/-- `getContent` -/
def getContent : Value P → Value P
  | .node n => .text (Node.toString n)
  | v => v

/-- The content as a text. -/
def Value.string : Value P → Bytes
  | .undef => []
  | .node n => Node.toString n
  | .text s => s
  | .number x => P.text x

/-- The content as a number. -/
def Value.numeric : Value P → P.Number
  | .number x => x
  | v => P.number v.string

/-- A text is true unless it is empty or `0`. -/
def isTrueText (s : Bytes) : Bool := !(s = [] || s = ascii "0")

def Value.isTrue : Value P → Bool
  | .undef => false
  | .node _ => true
  | .text s => isTrueText s
  | .number x => !P.equal x (P.ofNat 0)

/-- `1` or `0`. -/
def Value.ofBool (b : Bool) : Value P := .number (P.ofNat (if b then 1 else 0))

/-! ## Numbers -/

/-- The datatypes of numbers that are known. -/
def numericTypes : List Bytes :=
  [ascii "http://www.w3.org/2001/XMLSchema#integer", ascii "http://www.w3.org/2001/XMLSchema#float",
    ascii "http://www.w3.org/2001/XMLSchema#double"]

/-- The six expressions, of which each finds a digit, or a full stop and a digit, behind white space. -/
def beginsWithNumber (s : Bytes) : Bool :=
  match s.dropWhile NTriples.isWhite with
  | [] => false
  | a :: t => NTriples.isDigit a || (a = 0x2e && (t.head?.map NTriples.isDigit).getD false)

/-- A text or number that is not false. -/
def looksNumeric (v : Value P) : Bool :=
  !P.equal (P.int v.numeric) (P.ofNat 0) || beginsWithNumber v.string

/-- `isNumeric`; `none` where it dies. -/
def isNumeric (v : Value P) : Option Bool :=
  match v with
  | .node (.resource _) => none
  | .node (.literal l) =>
    some (if isTrueText l.dtBytes then l.dtBytes ∈ numericTypes else looksNumeric (P := P) (.node (.literal l)))
  | v => some (v.isTrue && looksNumeric v)

/-- `isString` -/
def isString (v : Value P) : Option Bool := (isNumeric v).map (!·)

/-! ## Contents -/

@[simp] theorem getContent_string (v : Value P) : (getContent v).string = v.string := by
  cases v <;> rfl

@[simp] theorem getContent_getContent (v : Value P) : getContent (getContent v) = getContent v := by
  cases v <;> rfl

/-! ## Whole numbers -/

/-- The whole number that a text begins with. -/
def wholeNumber (s : Bytes) : ℤ :=
  let t := s.dropWhile NTriples.isWhite
  let signed := t.head? = some 0x2b ∨ t.head? = some 0x2d
  let digits := (if signed then t.tail else t).takeWhile NTriples.isDigit
  let n : ℤ := digits.foldl (fun n a => n * 10 + (a.toNat - 48 : ℕ)) 0
  if t.head? = some 0x2d then -n else n

/-- Perl on whole numbers and ASCII text, without regular expressions. -/
def wholePerl : Perl where
  Number := ℤ
  ofNat n := n
  text x := ascii (toString x)
  number := wholeNumber
  add := (· + ·)
  subtract := (· - ·)
  multiply := (· * ·)
  divide b a := if a = 0 then none else some (b / a)
  modulo b a := if a = 0 then none else some (b.fmod a)
  abs x := x.natAbs
  negate x := -x
  negateText s := if (s.head?.map NTriples.isLetter).getD false then .inl (0x2d :: s) else .inr (-wholeNumber s)
  int := id
  less b a := b < a
  equal b a := b = a
  uc s := s.map fun a => if 0x61 ≤ a && a ≤ 0x7a then a - 0x20 else a
  lc s := s.map fun a => if 0x41 ≤ a && a ≤ 0x5a then a + 0x20 else a
  matchesExpression _ _ := none
  matchesLast _ := true
  before _ _ := []
  after _ _ := []
  eval _ := false

end RdfStore.Query
