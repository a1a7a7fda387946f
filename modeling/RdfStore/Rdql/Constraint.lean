import RdfStore.Rdql.Lexer

/-!
# Constraints (`Constraint` to `ArgList` of `RDQL/Parser.pm`)

One function for each level of precedence.  Each pushes the leaves and operators
it meets on the list of constraints, an operator behind its operands.
-/

namespace RdfStore.Rdql

open ByteMem Scan Tokens NTriples

/-- What is pushed, and what is left of the query; nothing for an error or an endless loop. -/
abbrev Outcome := Option (List Bytes × Bytes)

/-! ## Operators -/

/-- An operator: what stands behind it, and what is pushed for it. -/
structure Infix where
  literal : Bytes
  operand : Bytes → Outcome
  pushed : Bytes

/-- The first of the literals that is in front. -/
def findInfix : List Infix → Bytes → Option (Option Infix × Bytes)
  | [], s => some (none, s)
  | o :: os, s =>
    (matchAndEat o.literal s).bind fun t => if t.1 then some (some o, t.2) else findInfix os t.2

/-- `while`: `n` bounds the operators, of which each takes a character at least. -/
def infixLoop (os : List Infix) : ℕ → List Bytes → Bytes → Outcome
  | n, es, s =>
    (findInfix os s).bind fun t =>
      match t.1 with
      | none => some (es, t.2)
      | some o =>
        match n with
        | 0 => none
        | n + 1 => (o.operand t.2).bind fun u => infixLoop os n (es ++ (u.1 ++ [o.pushed])) u.2

/-- Operands with operators between them. -/
def infixLevel (operand : Bytes → Outcome) (os : List Infix) (s : Bytes) : Outcome :=
  (operand s).bind fun t => infixLoop os t.2.length t.1 t.2

/-- An operator that is pushed as it is written, between operands of one kind. -/
def infixOf (operand : Bytes → Outcome) (literal : Bytes) : Infix := ⟨literal, operand, literal⟩

section

variable (prefixes : Prefixes)

/-! ## Primary expressions -/

/-- `Var $class or URIOrQName $class or Literal $class`, and whether one of them was there. -/
def operandToken (s : Bytes) : Option (Option (Bytes × Bytes)) :=
  match scanVar s with
  | some t => some (some t)
  | none =>
    (scanURIOrQName prefixes s).map fun t =>
      match t with
      | some t => some t
      | none => scanLiteral s

/-- The loop of `ArgList`; each comma takes a character. -/
def argLoop : ℕ → List Bytes → Bytes → Outcome
  | 0, es, s => some (es, s)
  | n + 1, es, s =>
    (matchAndEat (ascii ",") s).bind fun t =>
      if t.1 then
        (operandToken prefixes t.2).bind fun u =>
          match u with
          | some (e, rest) => argLoop n (es ++ [e]) rest
          | none => some (es, t.2)
      else some (es, t.2)

/-- `ArgList` -/
def argList (s : Bytes) : Outcome :=
  (operandToken prefixes s).bind fun t =>
    match t with
    | some (e, rest) => argLoop prefixes rest.length [e] rest
    | none => some ([], s)

/-- `FunctionCall`, whose answer nobody looks at. -/
def functionCall (s : Bytes) : Outcome :=
  (matchAndEat (ascii "&") s).bind fun t =>
    if t.1 then
      match scanQName (skipWhite t.2) with
      | none => some ([], t.2)
      | some ((name, localName), rest) =>
        (if name = [] ∨ name = ascii "0" then prefixes.lookup (ascii "#default") else prefixes.lookup name).bind fun uri =>
          (matchAndEat (ascii "(") (skipWhite rest)).bind fun u =>
            if u.1 then
              (argList prefixes u.2).bind fun v =>
                (matchAndEat (ascii ")") v.2).bind fun w =>
                  if w.1 then some (v.1 ++ [ascii "&", uri ++ localName], w.2) else none
            else some ([], u.2)
    else some ([], t.2)

/-- `PrimaryExpression`, with what is inside parentheses. -/
def primaryExpression (inner : Bytes → Outcome) (s : Bytes) : Outcome :=
  (matchAndEat (ascii "(") s).bind fun t =>
    if t.1 then
      (inner t.2).bind fun u =>
        (matchAndEat (ascii ")") u.2).bind fun v => if v.1 then some (u.1, v.2) else none
    else
      (operandToken prefixes t.2).bind fun u =>
        match u with
        | some (e, rest) => some ([e], rest)
        | none => functionCall prefixes t.2

/-! ## The levels -/

/-- `UnaryExpression` and `UnaryExpressionNotPlusMinus`; each operator takes a character. -/
def unaryLoop (inner : Bytes → Outcome) : ℕ → Bytes → Outcome
  | n, s =>
    (matchAndEat (ascii "~") s).bind fun t =>
      if t.1 then
        match n with
        | 0 => none
        | n + 1 => (unaryLoop inner n t.2).map fun u => (u.1 ++ [ascii "~"], u.2)
      else
        (matchAndEat (ascii "!") t.2).bind fun u =>
          if u.1 then
            match n with
            | 0 => none
            | n + 1 => (unaryLoop inner n u.2).map fun v => (v.1 ++ [ascii "!"], v.2)
          else primaryExpression prefixes inner u.2

def unaryExpression (inner : Bytes → Outcome) (s : Bytes) : Outcome := unaryLoop prefixes inner s.length s

def multiplicativeExpression (inner : Bytes → Outcome) : Bytes → Outcome :=
  infixLevel (unaryExpression prefixes inner)
    ([ascii "*", ascii "/", ascii "%"].map (infixOf (unaryExpression prefixes inner)))

def additiveExpression (inner : Bytes → Outcome) : Bytes → Outcome :=
  infixLevel (multiplicativeExpression prefixes inner)
    ([ascii "+", ascii "-"].map (infixOf (multiplicativeExpression prefixes inner)))

/-- `RelationalExpression`, which has `if` where the others have `while`. -/
def relationalExpression (inner : Bytes → Outcome) (s : Bytes) : Outcome :=
  (additiveExpression prefixes inner s).bind fun t =>
    (findInfix ([ascii ">=", ascii ">=", ascii "<=", ascii "<=", ascii "<", ascii ">"].map
      (infixOf (additiveExpression prefixes inner))) t.2).bind fun u =>
      match u.1 with
      | none => some (t.1, u.2)
      | some o => (o.operand u.2).map fun v => (t.1 ++ (v.1 ++ [o.pushed]), v.2)

def equalityExpression (inner : Bytes → Outcome) : Bytes → Outcome :=
  infixLevel (relationalExpression prefixes inner)
    ([ascii "==", ascii "!="].map (infixOf (relationalExpression prefixes inner)))

/-- `PatternLiteral`, which pushes nothing when there is none. -/
def patternLiteral (s : Bytes) : Outcome :=
  match takePattern s with
  | some t => some ([t.1], t.2)
  | none => some ([], s)

/-- `StringEqualityExpression` -/
def stringEqualityExpression (inner : Bytes → Outcome) : Bytes → Outcome :=
  infixLevel (equalityExpression prefixes inner)
    [infixOf (equalityExpression prefixes inner) (ascii "eq"), infixOf (equalityExpression prefixes inner) (ascii "ne"),
      ⟨ascii "=~", patternLiteral, ascii "=~"⟩, ⟨ascii "LIKE", patternLiteral, ascii "=~"⟩,
      ⟨ascii "!~", patternLiteral, ascii "!~"⟩]

def conditionalAndExpression (inner : Bytes → Outcome) : Bytes → Outcome :=
  infixLevel (stringEqualityExpression prefixes inner)
    ([ascii "&&"].map (infixOf (stringEqualityExpression prefixes inner)))

/-- `ConditionalOrExpression`, with what is inside parentheses. -/
def conditionalOr (inner : Bytes → Outcome) : Bytes → Outcome :=
  infixLevel (conditionalAndExpression prefixes inner)
    ([ascii "||"].map (infixOf (conditionalAndExpression prefixes inner)))

/-- `ConditionalOrExpression`, with fewer than `n` parentheses inside one another. -/
def conditionalOrExpression : ℕ → Bytes → Outcome
  | 0 => fun _ => none
  | n + 1 => conditionalOr prefixes (conditionalOrExpression n)

/-- Each parenthesis takes a character. -/
def expression (s : Bytes) : Outcome := conditionalOrExpression prefixes (s.length + 1) s

/-- The loop of `Constraint`. -/
def constraintLoop : ℕ → List Bytes → Bytes → Outcome
  | 0, es, s => some (es, s)
  | n + 1, es, s =>
    (matchAndEat (ascii ",") s).bind fun t =>
      (if t.1 then some t else matchAndEat (ascii "and") t.2).bind fun u =>
        if u.1 then (expression prefixes u.2).bind fun v => constraintLoop n (es ++ v.1) v.2 else some (es, u.2)

/-- `Constraint` -/
def constraint (s : Bytes) : Outcome :=
  (expression prefixes s).bind fun t => constraintLoop prefixes (t.2.length + 1) t.1 t.2

end

end RdfStore.Rdql
