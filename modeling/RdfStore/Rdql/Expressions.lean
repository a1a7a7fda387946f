import RdfStore.Rdql.Constraint

/-!
# Expressions

Trees of constraints, how they are written, and the list of their leaves and
operators, each operator behind its operands.

    the written form          (Expr.text)
    the list                  (Expr.postOrder)
-/

namespace RdfStore.Rdql

open ByteMem NTriples

/-! ## Leaves -/

/-- `[eE][+-]?[0-9]+` -/
structure Exponent where
  capital : Bool
  sign : Option Bool
  digits : Bytes

def Exponent.text (x : Exponent) : Bytes :=
  (if x.capital then 0x45 else 0x65) :: ((match x.sign with
    | none => []
    | some true => [0x2d]
    | some false => [0x2b]) ++ x.digits)

structure Exponent.WellFormed (x : Exponent) : Prop where
  nonempty : x.digits ≠ []
  digits : ∀ a ∈ x.digits, NTriples.isDigit a = true

/-- A number: what is before and behind the full stop, the exponent, and `f`, `F`, `d` or `D`. -/
structure Number where
  integer : Bytes
  fraction : Option Bytes
  exponent : Option Exponent
  suffix : Option UInt8

def Number.text (x : Number) : Bytes :=
  x.integer ++ ((match x.fraction with
    | none => []
    | some ds => 0x2e :: ds) ++ ((x.exponent.elim [] Exponent.text) ++ x.suffix.toList))

structure Number.WellFormed (x : Number) : Prop where
  nonempty : x.integer ≠ [] ∨ ∃ ds, x.fraction = some ds ∧ ds ≠ []
  integer : ∀ a ∈ x.integer, NTriples.isDigit a = true
  fraction : ∀ ds ∈ x.fraction, ∀ a ∈ ds, NTriples.isDigit a = true
  exponent : ∀ e ∈ x.exponent, e.WellFormed
  suffix : ∀ a ∈ x.suffix, isSuffix a = true

/-- The inside of a string between two marks `q`. -/
inductive IsString (q : UInt8) : Bytes → Prop
  | nil : IsString q []
  | character {a : UInt8} {s : Bytes} (hmark : a ≠ q) (hbackslash : a ≠ 0x5c) (hlf : a ≠ 0x0a) (hcr : a ≠ 0x0d)
      (hs : IsString q s) : IsString q (a :: s)
  | escape {a : UInt8} {s : Bytes} (ha : isEscape a = true) (hs : IsString q s) : IsString q (0x5c :: a :: s)

/-- A string, its marks, its language, and a per cent sign on either side. -/
structure QuotedString where
  before : Bool
  mark : UInt8
  inside : Bytes
  lang : Option (Bytes × Option Bytes)
  behind : Bool

/-- The language as it is written. -/
def tagText (lang : Bytes × Option Bytes) : Bytes :=
  0x40 :: (lang.1 ++ lang.2.elim [] fun part => 0x2d :: part)

def QuotedString.text (x : QuotedString) : Bytes :=
  (if x.before then [0x25] else []) ++ (x.mark :: (x.inside ++ (x.mark :: (x.lang.elim [] tagText ++
    (if x.behind then [0x25] else [])))))

structure QuotedString.WellFormed (x : QuotedString) : Prop where
  mark : isQuote x.mark = true
  inside : IsString x.mark x.inside
  lang : ∀ l ∈ x.lang, l.1 ≠ [] ∧ (∀ a ∈ l.1, isLangChar a = true) ∧
    ∀ part ∈ l.2, part ≠ [] ∧ ∀ a ∈ part, isLangChar a = true

inductive Leaf
  /-- with `$` or `?` -/
  | var (dollar : Bool) (name : Bytes)
  | qname (name localName : Bytes)
  | number (x : Number)
  /-- `0x` or `0X` -/
  | hex (capital : Bool) (digits : Bytes)
  | string (x : QuotedString)
  /-- `true` -/
  | yes
  /-- `false` -/
  | no
  | null

def Leaf.text : Leaf → Bytes
  | .var dollar name => (if dollar then 0x24 else 0x3f) :: name
  | .qname name localName => name ++ 0x3a :: localName
  | .number x => x.text
  | .hex capital digits => 0x30 :: (if capital then 0x58 else 0x78) :: digits
  | .string x => x.text
  | .yes => ascii "true"
  | .no => ascii "false"
  | .null => ascii "null"

/-- A name has a prefix that is declared, or the default prefix, or none at all. -/
def Leaf.WellFormed (prefixes : Prefixes) : Leaf → Prop
  | .var _ name => name ≠ [] ∧ ∀ a ∈ name, isVarChar a = true
  | .qname name localName =>
    (name ≠ [] → (prefixes.lookup name).isSome ∧ ∀ a ∈ name, isNameChar a = true) ∧
      localName ≠ [] ∧ ∀ a ∈ localName, isNameChar a = true
  | .number x => x.WellFormed
  | .hex _ digits => digits ≠ [] ∧ ∀ a ∈ digits, isHex a = true
  | .string x => x.WellFormed
  | _ => True

/-- What stands before a local name. -/
def namespaceOf (prefixes : Prefixes) (name : Bytes) : Bytes :=
  (prefixes.lookup (if name = [] then ascii "#default" else name)).getD []

/-- What stands for a leaf in the list: a variable has a question mark, a QName is expanded. -/
def Leaf.entry (prefixes : Prefixes) : Leaf → Bytes
  | .var _ name => 0x3f :: name
  | .qname name localName => 0x3c :: (namespaceOf prefixes name ++ localName ++ [0x3e])
  | l => l.text

/-! ## Operators -/

inductive Operator
  | or
  | and
  | eq
  | ne
  | equal
  | notEqual
  | less
  | greater
  | lessEqual
  | greaterEqual
  | plus
  | minus
  | times
  | divide
  | modulo
  deriving DecidableEq

def Operator.text : Operator → Bytes
  | .or => ascii "||"
  | .and => ascii "&&"
  | .eq => ascii "eq"
  | .ne => ascii "ne"
  | .equal => ascii "=="
  | .notEqual => ascii "!="
  | .less => ascii "<"
  | .greater => ascii ">"
  | .lessEqual => ascii "<="
  | .greaterEqual => ascii ">="
  | .plus => ascii "+"
  | .minus => ascii "-"
  | .times => ascii "*"
  | .divide => ascii "/"
  | .modulo => ascii "%"

/-- The higher, the tighter. -/
def Operator.level : Operator → ℕ
  | .or => 0
  | .and => 1
  | .eq | .ne => 2
  | .equal | .notEqual => 3
  | .less | .greater | .lessEqual | .greaterEqual => 4
  | .plus | .minus => 5
  | .times | .divide | .modulo => 6

/-- `~` and `!` in front of an operand. -/
inductive UnaryOperator
  | complement
  | not

def UnaryOperator.text : UnaryOperator → Bytes
  | .complement => ascii "~"
  | .not => ascii "!"

/-- `m`, what is between the slashes, and the flags behind them. -/
structure Pattern where
  withM : Bool
  inside : Bytes
  i : Bool
  m : Bool
  s : Bool
  x : Bool

def Pattern.flags (p : Pattern) : Bytes :=
  (if p.i then [0x69] else []) ++ ((if p.m then [0x6d] else []) ++ ((if p.s then [0x73] else []) ++
    (if p.x then [0x78] else [])))

def Pattern.text (p : Pattern) : Bytes :=
  (if p.withM then [0x6d] else []) ++ 0x2f :: (p.inside ++ 0x2f :: p.flags)

/-! ## Trees -/

inductive Expr
  | leaf (l : Leaf)
  | unary (op : UnaryOperator) (e : Expr)
  | binary (op : Operator) (l r : Expr)
  /-- `=~`, or `!~` -/
  | matching (negated : Bool) (l : Expr) (p : Pattern)

def matchText (negated : Bool) : Bytes := if negated then ascii "!~" else ascii "=~"

def Expr.level : Expr → ℕ
  | .leaf _ => 8
  | .unary .. => 7
  | .binary op .. => op.level
  | .matching .. => 2

/-- In parentheses, where the level is too low for the place. -/
def parens (level place : ℕ) (s : Bytes) : Bytes := if level < place then 0x28 :: (s ++ [0x29]) else s

/-- With as few parentheses as there can be, from left to right, a space on each side of an operator
between operands. -/
def Expr.text : Expr → Bytes
  | .leaf l => l.text
  | .unary op e => op.text ++ parens e.level 7 e.text
  | .binary op l r =>
    parens l.level op.level l.text ++ 0x20 :: (op.text ++ 0x20 :: parens r.level (op.level + 1) r.text)
  | .matching negated l p => parens l.level 2 l.text ++ 0x20 :: (matchText negated ++ 0x20 :: p.text)

def Expr.WellFormed (prefixes : Prefixes) : Expr → Prop
  | .leaf l => l.WellFormed prefixes
  | .unary _ e => e.WellFormed prefixes
  | .binary _ l r => l.WellFormed prefixes ∧ r.WellFormed prefixes
  | .matching _ l p => l.WellFormed prefixes ∧ 0x0a ∉ p.inside

/-- The leaves and operators in post-order. -/
def Expr.postOrder (prefixes : Prefixes) : Expr → List Bytes
  | .leaf l => [l.entry prefixes]
  | .unary op e => e.postOrder prefixes ++ [op.text]
  | .binary op l r => l.postOrder prefixes ++ (r.postOrder prefixes ++ [op.text])
  | .matching negated l p => l.postOrder prefixes ++ [p.text, matchText negated]

/-! ## What is compiled -/

/-- No quotation mark of either kind without a backslash. -/
inductive IsPlainString : Bytes → Prop
  | nil : IsPlainString []
  | character {a : UInt8} {s : Bytes} (ha : isPlain a = true) (hs : IsPlainString s) : IsPlainString (a :: s)
  | escape {a : UInt8} {s : Bytes} (ha : isEscape a = true) (hs : IsPlainString s) : IsPlainString (0x5c :: a :: s)

/-- No number in hexadecimal, no quotation mark of the other kind in a string, and no prefix `0`, which
counts as none, unless it makes no difference. -/
def Leaf.Plain (prefixes : Prefixes) : Leaf → Prop
  | .hex .. => False
  | .string x => IsPlainString x.inside
  | .qname name _ =>
    name = ascii "0" → (prefixes.lookup (ascii "#default")).getD name = namespaceOf prefixes name
  | _ => True

/-- The leaves are plain, a comparison by size is not the left side of another without parentheses, and
no slash is behind a pattern; `slash` is whether there is one behind the expression. -/
def Expr.Compiles (prefixes : Prefixes) : Expr → Prop → Prop
  | .leaf l, _ => l.Plain prefixes
  | .unary _ e, slash => e.Compiles prefixes slash
  | .binary op l r, slash => (op.level = 4 → l.level ≠ 4) ∧
    l.Compiles prefixes (0x2f ∈ op.text ∨ 0x2f ∈ r.text ∨ slash) ∧ r.Compiles prefixes slash
  | .matching _ l _, slash => ¬ slash ∧ l.Compiles prefixes True

end RdfStore.Rdql
