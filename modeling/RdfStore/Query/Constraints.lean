import RdfStore.Query.Values
import RdfStore.Rdql.Lexer

/-!
# `DBD::RDFStore::db::constraints::eval`

The dictionary of operators and the loop over the stack.  After each operator
what lay on the work stack goes back on the stack, with the result behind it,
and is read again.
-/

namespace RdfStore.Query

open ByteMem

/-! ## The dictionary -/

variable (P : Perl)

/-- An operator pops one value or two, and pushes one; `none` is an error. -/
inductive Operator
  | unary (run : Value P → Option (Value P))
  | binary (run : Value P → Value P → Option (Value P))

variable {P}

/-- On the texts of the operands. -/
def onTexts (f : Bytes → Bytes → Bool) : Operator P :=
  .binary fun b a => some (.ofBool (f b.string a.string))

/-- On the numbers of the operands. -/
def onNumbers (f : P.Number → P.Number → P.Number) : Operator P :=
  .binary fun b a => some (.number (f b.numeric a.numeric))

def onNumbersOrDie (f : P.Number → P.Number → Option P.Number) : Operator P :=
  .binary fun b a => (f b.numeric a.numeric).map .number

/-- `isNumeric($a) and isNumeric($b) and …` -/
def comparison (f : P.Number → P.Number → Bool) : Operator P :=
  .binary fun b a =>
    (isNumeric a).bind fun numericA =>
      if numericA then (isNumeric b).map fun numericB => .ofBool (numericB && f b.numeric a.numeric)
      else some (.ofBool false)

def textOf (f : Bytes → Bytes) : Operator P := .unary fun a => some (.text (f a.string))

def greaterOrEqual (b a : P.Number) : Bool := P.less a b || P.equal b a

/-- `\Q$a\E$`, where the end may be in front of a line feed. -/
def endsWith (b a : Bytes) : Bool := a.isSuffixOf b || (b.getLast? = some 0x0a && a.isSuffixOf b.dropLast)

/-- `\Q$a\E`; an empty expression stands for the last one that matched. -/
def contains (P : Perl) (b a : Bytes) : Bool := if a = [] then P.matchesLast b else decide (a <:+: b)

def unaryMinus (a : Value P) : Value P :=
  match getContent a with
  | .number x => .number (P.negate x)
  | v =>
    match P.negateText v.string with
    | .inl s => .text s
    | .inr x => .number x

/-- `$a =~ m/[m]?\/(.*)\/[i]?[m]?[s]?[x]?/ and eval " \"$b\" =~ $a "` -/
def matchOperator (op : Bytes) : Operator P :=
  .binary fun b a =>
    some (.ofBool ((Rdql.takePattern a.string).isSome &&
      P.eval (0x20 :: 0x22 :: (b.string ++ 0x22 :: 0x20 :: (op ++ 0x20 :: (a.string ++ [0x20]))))))

/-- `$namespaces{'op'}` -/
def opNamespace : Bytes := ascii "http://www.w3.org/2001/sw/DataAccess/operations"

/-- `$namespaces{'fn'}` -/
def fnNamespace : Bytes := ascii "http://www.w3.org/2004/07/xpath-functions"

def op (name : String) : Bytes := opNamespace ++ ascii name

def fn (name : String) : Bytes := fnNamespace ++ ascii name

variable (P)

/-- `%dictionary` -/
def dictionary : List (Bytes × Operator P) :=
  [(ascii "eq", onTexts fun b a => b = a),
    (ascii "ne", onTexts fun b a => b ≠ a),
    (ascii "&&", .binary fun b a => some (.ofBool ((getContent b).isTrue && (getContent a).isTrue))),
    (ascii "||", .binary fun b a => some (.ofBool ((getContent b).isTrue || (getContent a).isTrue))),
    (fn "not", .unary fun a => some (.text (if (getContent a).isTrue then [] else ascii "1"))),
    (op "numeric-add", onNumbers P.add),
    (ascii "+", onNumbers P.add),
    (op "numeric-subtract", onNumbers P.subtract),
    (ascii "-", onNumbers P.subtract),
    (op "numeric-multiply", onNumbers P.multiply),
    (ascii "*", onNumbers P.multiply),
    (op "numeric-divide", onNumbersOrDie P.divide),
    (ascii "/", onNumbersOrDie P.divide),
    (op "numeric-integer-divide", onNumbersOrDie P.divide),
    (op "numeric-mod", onNumbersOrDie P.modulo),
    (ascii "%", onNumbersOrDie P.modulo),
    (op "numeric-unary-plus", .unary fun a => some (getContent a)),
    (op "numeric-unary-minus", .unary fun a => some (unaryMinus a)),
    (op "numeric-less-than", comparison P.less),
    (ascii "<", comparison P.less),
    (op "numeric-less-than-or-equal", comparison fun b a => P.less b a || P.equal b a),
    (ascii "<=", comparison fun b a => P.less b a || P.equal b a),
    (op "numeric-equal", comparison P.equal),
    (ascii "==", comparison P.equal),
    (op "numeric-not-equal", comparison fun b a => !P.equal b a),
    (ascii "!=", comparison fun b a => !P.equal b a),
    (op "numeric-greater-than-or-equal", comparison greaterOrEqual),
    (ascii ">=", comparison greaterOrEqual),
    (op "numeric-greater-than", comparison fun b a => P.less a b),
    (ascii ">", comparison fun b a => P.less a b),
    (fn "abs", .unary fun a => some (.number (P.abs a.numeric))),
    (fn "compare", onTexts fun b a => b ≠ a),
    (fn "contains", onTexts (contains P)),
    (fn "starts-with", onTexts fun b a => a.isPrefixOf b),
    (fn "ends-with", onTexts endsWith),
    (fn "substring-before", .binary fun b a => some (.text (P.before b.string a.string))),
    (fn "substring-after", .binary fun b a => some (.text (P.after b.string a.string))),
    (fn "string-length", .unary fun a => some (.number (P.ofNat a.string.length))),
    (fn "upper-case", textOf P.uc),
    (fn "lower-case", textOf P.lc),
    (fn "matches", .binary fun b a => (P.matchesExpression a.string b.string).map .ofBool),
    (ascii "=~", matchOperator (ascii "=~")),
    (ascii "!~", matchOperator (ascii "!~")),
    (fn "string", textOf id),
    (op "anyURI-equal", onTexts fun b a => P.lc b = P.lc a)]

/-- The names in the dictionary. -/
def keys : List Bytes :=
  [ascii "eq", ascii "ne", ascii "&&", ascii "||", fn "not", op "numeric-add", ascii "+", op "numeric-subtract",
    ascii "-", op "numeric-multiply", ascii "*", op "numeric-divide", ascii "/", op "numeric-integer-divide",
    op "numeric-mod", ascii "%", op "numeric-unary-plus", op "numeric-unary-minus", op "numeric-less-than",
    ascii "<", op "numeric-less-than-or-equal", ascii "<=", op "numeric-equal", ascii "==",
    op "numeric-not-equal", ascii "!=", op "numeric-greater-than-or-equal", ascii ">=",
    op "numeric-greater-than", ascii ">", fn "abs", fn "compare", fn "contains", fn "starts-with",
    fn "ends-with", fn "substring-before", fn "substring-after", fn "string-length", fn "upper-case",
    fn "lower-case", fn "matches", ascii "=~", ascii "!~", fn "string", op "anyURI-equal"]

theorem dictionary_keys : (dictionary P).map (·.1) = keys := rfl

def lookup (key : Bytes) : Option (Operator P) := (dictionary P).lookup key

variable {P}

/-! ## Reading an item -/

/-- `s/^X(.*)Y$/$1/`: `.` is no line feed, and the end may be in front of one. -/
def stripMarks (isOpen isClose : UInt8 → Bool) (s : Bytes) : Option Bytes :=
  let body := if s.getLast? = some 0x0a then s.dropLast else s
  match body with
  | [] => none
  | a :: t =>
    if isOpen a ∧ (t.getLast?.map isClose).getD false ∧ 0x0a ∉ t.dropLast then
      some (t.dropLast ++ s.drop body.length)
    else none

/-- `s/^["'](.*)["']$/$1/g` -/
def stripQuotes : Bytes → Option Bytes := stripMarks Rdql.isQuote Rdql.isQuote

/-- `s/^<(.*)>$/$1/` -/
def stripAngles : Bytes → Option Bytes := stripMarks (· = 0x3c) (· = 0x3e)

/-- `[a-zA-Z0-9_\$\.:]` -/
def isVariableChar (a : UInt8) : Bool := Rdql.isVarChar a || a = 0x24

/-- `\s*([\?\$][a-zA-Z0-9_\$\.:]+)\s*`, anywhere in the text. -/
def namesVariable : Bytes → Bool
  | [] => false
  | a :: s => ((a = 0x3f || a = 0x24) && (s.head?.map isVariableChar).getD false) || namesVariable s

/-! ## The loop -/

/-- The values of the variables; a variable may be there and have none. -/
abbrev Binding (P : Perl) := Bytes → Option (Value P)

/-- The errors that are set. -/
inductive Failure
  /-- `Cannot process query constraints: ` -/
  | died
  /-- `Undefined function ` -/
  | undefinedFunction (name : Bytes)
  /-- `Variable … not existing` -/
  | unknownVariable (name : Bytes)
  deriving DecidableEq

/-- `pop` -/
def popped (work : List (Value P)) : Value P := (work.getLast?.getD .undef)

/-- What an operator makes of the work stack, and what it takes from it. -/
def Operator.apply (o : Operator P) (work : List (Value P)) : Option (Value P × List (Value P)) :=
  match o with
  | .unary run => (run (popped work)).map fun v => (v, work.dropLast)
  | .binary run => (run (popped work.dropLast) (popped work)).map fun v => (v, work.dropLast.dropLast)

/-- What becomes of an item. -/
inductive Reading (P : Perl)
  | push (v : Value P)
  | apply (o : Operator P)
  | fail (e : Failure)

/-- A text; only a text is an operator, a function or a variable. -/
def readText (binding : Binding P) (isFunction : Bool) (s : Bytes) : Reading P :=
  let quoted := stripQuotes s
  let s' := quoted.getD ((stripAngles s).getD s)
  match (if quoted.isNone then lookup P s' else none) with
  | some o => .apply o
  | none =>
    if isFunction then .fail (.undefinedFunction s')
    else if namesVariable s' then
      match binding s' with
      | some v => .push v
      | none => .fail (.unknownVariable s')
    else .push (.text s')

/-- An item: the text of a reference or of a number is none of these. -/
def readItem (binding : Binding P) (isFunction : Bool) : Value P → Reading P
  | .text s => readText binding isFunction s
  | v => if isFunction then .fail (.undefinedFunction v.string) else .push v

/-- The next item and the stack behind it, or the end of the loop. -/
inductive Next (P : Perl)
  | read (r : Reading P) (stack : List (Value P))
  | stop (stack : List (Value P))

/-- `&` is passed over; the loop ends when nothing, or what is false, is behind it. -/
def nextItem (binding : Binding P) : List (Value P) → Next P
  | [] => .stop []
  | .text s :: stack =>
    if s = ascii "&" then
      match stack with
      | [] => .stop []
      | v :: stack => if v.isTrue then .read (readItem binding true v) stack else .stop stack
    else .read (readText binding false s) stack
  | v :: stack => .read (readItem binding false v) stack

/-- How the loop ends: with an error, or with what is left on the two stacks. -/
inductive Ended (P : Perl)
  | failed (e : Failure)
  | left (stack : List (Value P))

/-- `while( @stack )`, `n` times at most. -/
def evalLoop (binding : Binding P) : ℕ → List (Value P) → List (Value P) → Option (Ended P)
  | 0, _, _ => none
  | n + 1, stack, work =>
    match nextItem binding stack with
    | .stop stack => some (.left (work ++ stack))
    | .read (.push v) stack => evalLoop binding n stack (work ++ [v])
    | .read (.fail e) _ => some (.failed e)
    | .read (.apply o) stack =>
      match o.apply work with
      | none => some (.failed .died)
      | some (v, work) => evalLoop binding n (work ++ v :: stack) []

/-- As often as the loop over `n` items can be run through. -/
def rounds (n : ℕ) : ℕ := n * n + 2 * n + 1

/-- `return 0 if( $#stack > 0 )`, and for an error. -/
def Ended.status : Ended P → Value P
  | .left [] => .undef
  | .left [v] => getContent v
  | _ => .ofBool false

def evalEnded (binding : Binding P) (constraints : List Bytes) : Option (Ended P) :=
  evalLoop binding (rounds constraints.length) (constraints.map .text) []

/-- `eval`; the loop does end. -/
def eval (binding : Binding P) (constraints : List Bytes) : Value P :=
  (((evalEnded binding constraints).map Ended.status).getD .undef)

end RdfStore.Query
