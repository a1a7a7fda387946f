import RdfStore.NTriples.Reader
import RdfStore.Lib.Tokens

/-!
# The tokens of a query (`RDQL/Parser.pm`)

The parser cuts its tokens off the front of the query one after the other, each
with the white space around it.  Comments are passed over by `MatchAndEat` only.
-/

namespace RdfStore.Rdql

open ByteMem Scan Tokens NTriples

/-! ## Characters -/

/-- `\s*` -/
def skipWhite (s : Bytes) : Bytes := s.dropWhile isWhite

/-- `[a-zA-Z0-9_\.:]` -/
def isVarChar (a : UInt8) : Bool := isLabelChar a || a = 0x5f || a = 0x2e || a = 0x3a

/-- `[a-zA-Z0-9\-_$\.]` -/
def isNameChar (a : UInt8) : Bool := isLabelChar a || a = 0x2d || a = 0x5f || a = 0x24 || a = 0x2e

/-- `\w` -/
def isWordChar (a : UInt8) : Bool := isLabelChar a || a = 0x5f

def toLower (a : UInt8) : UInt8 := if 0x41 ≤ a && a ≤ 0x5a then a + 0x20 else a

/-- What is no letter is only matched by itself. -/
theorem toLower_eq_iff {a c : UInt8} (hc : NTriples.isLetter c = false) : toLower a = toLower c ↔ a = c := by
  grind only [NTriples.isLetter, toLower]

/-! ## `MatchAndEat` -/

/-- `^\Q$lit\E`, whatever the case. -/
def stripLiteral : Bytes → Bytes → Option Bytes
  | [], s => some s
  | _ :: _, [] => none
  | a :: lit, b :: s => if toLower a = toLower b then stripLiteral lit s else none

/-- `s/^\s*(#|\/\/).*//` -/
def eatLineComment (s : Bytes) : Option Bytes :=
  match skipWhite s with
  | [] => none
  | a :: t =>
    if a = 0x23 then some (t.dropWhile (· ≠ 0x0a))
    else if a = 0x2f ∧ t.head? = some 0x2f then some (t.tail.dropWhile (· ≠ 0x0a))
    else none

/-- As long as there is one; each takes a character at least. -/
def eatLineComments : ℕ → Bytes → Bytes
  | 0, s => s
  | n + 1, s =>
    match eatLineComment s with
    | some t => eatLineComments n t
    | none => s

/-- What is behind the next `*/`; without one, the loop never ends. -/
def closeComment : Bytes → Option Bytes
  | [] => none
  | a :: s => if a = 0x2a ∧ s.head? = some 0x2f then some s.tail else closeComment s

def eatComments (s : Bytes) : Option Bytes :=
  let t := eatLineComments s.length s
  match skipWhite t with
  | [] => some t
  | a :: u => if a = 0x2f ∧ u.head? = some 0x2a then closeComment u.tail else some t

/-- `MatchAndEat`: whether the literal was there, and what is left. -/
def matchAndEat (lit s : Bytes) : Option (Bool × Bytes) :=
  (eatComments s).map fun t =>
    match stripLiteral lit (skipWhite t) with
    | some u => (true, skipWhite u)
    | none => (false, t)

/-! ## Names -/

/-- The prefixes in force; a declaration takes `\w` only. -/
structure Prefixes where
  lookup : Bytes → Option Bytes
  word : ∀ p u, lookup p = some u → p = ascii "#default" ∨ p ≠ [] ∧ ∀ a ∈ p, isWordChar a = true

/-- `Var`, which writes `?` for `$`. -/
def scanVar (s : Bytes) : Option (Bytes × Bytes) :=
  match skipWhite s with
  | [] => none
  | a :: t =>
    if (a = 0x3f ∨ a = 0x24) ∧ t.takeWhile isVarChar ≠ [] then
      some (0x3f :: t.takeWhile isVarChar, skipWhite (t.dropWhile isVarChar))
    else none

/-- The URI of a QName.  A name that is false, which `0` is too, counts as none. -/
def expand (prefixes : Prefixes) (name localName : Bytes) : Option Bytes :=
  if name = [] ∨ name = ascii "0" then
    some (0x3c :: ((prefixes.lookup (ascii "#default")).getD name ++ localName ++ [0x3e]))
  else (prefixes.lookup name).map fun uri => 0x3c :: (uri ++ localName ++ [0x3e])

/-- `([a-zA-Z0-9\-_$\.]+)?:([a-zA-Z0-9\-_$\.]+)` -/
def scanQName (s : Bytes) : Option ((Bytes × Bytes) × Bytes) :=
  match s.dropWhile isNameChar with
  | [] => none
  | a :: t =>
    if a = 0x3a ∧ t.takeWhile isNameChar ≠ [] then
      some ((s.takeWhile isNameChar, t.takeWhile isNameChar), t.dropWhile isNameChar)
    else none

/-- `URIOrQName`: `none` is the error `Unbound prefix`. -/
def scanURIOrQName (prefixes : Prefixes) (s : Bytes) : Option (Option (Bytes × Bytes)) :=
  match scanUriref (skipWhite s) with
  | some (uri, rest) => some (some (0x3c :: (uri ++ [0x3e]), skipWhite rest))
  | none =>
    match scanQName (skipWhite s) with
    | none => some none
    | some ((name, localName), rest) =>
      (expand prefixes name localName).map fun uri => some (uri, skipWhite rest)

/-! ## Literals -/

/-- One character. -/
def chr (c : UInt8) : Scanner UInt8 := one (· = c)

/-- `[0-9]+` -/
def scanInteger : Scanner UInt8 := many1 NTriples.isDigit

/-- `[eE][+-]?[0-9]+` -/
def scanExponent : Scanner UInt8 :=
  seq (one fun a => a = 0x65 || a = 0x45) (seq (opt (one fun a => a = 0x2b || a = 0x2d)) (many1 NTriples.isDigit))

/-- `[fFdD]` -/
def isSuffix (a : UInt8) : Bool := a = 0x66 || a = 0x46 || a = 0x64 || a = 0x44

/-- The four expressions for a number with a full stop, an exponent or a suffix, in their order. -/
def scanDecimal (s : Bytes) : Option (Bytes × Bytes) :=
  seq (many1 NTriples.isDigit) (seq (chr 0x2e) (seq (many NTriples.isDigit) (seq (opt scanExponent) (opt (one isSuffix))))) s <|>
    seq (chr 0x2e) (seq (many1 NTriples.isDigit) (seq (opt scanExponent) (opt (one isSuffix)))) s <|>
    seq (many1 NTriples.isDigit) (seq scanExponent (opt (one isSuffix))) s <|>
    seq (many1 NTriples.isDigit) (seq (opt scanExponent) (one isSuffix)) s

/-- `["']` -/
def isQuote (a : UInt8) : Bool := a = 0x22 || a = 0x27

theorem tagChar_plain {a : UInt8} (h : isLangChar a = true ∨ a = 0x2d) : isWhite a = false ∧ isQuote a = false := by
  grind only [isLangChar, NTriples.isDigit, isWhite, isQuote]

/-- `[ntbrf\\'"]` -/
def isEscape (a : UInt8) : Bool :=
  a = 0x6e || a = 0x74 || a = 0x62 || a = 0x72 || a = 0x66 || a = 0x5c || a = 0x27 || a = 0x22

/-- `[^"'\\\n\r]` -/
def isPlain (a : UInt8) : Bool := !(isQuote a || a = 0x5c || a = 0x0a || a = 0x0d)

/-- `(([^"'\\\n\r])|(\\([ntbrf\\'"])|…))*`; what is left out is no escape sequence and its characters
are plain. -/
def scanString : Bytes → Bytes × Bytes
  | [] => ([], [])
  | [a] => if isPlain a then ([a], []) else ([], [a])
  | a :: b :: s =>
    if isPlain a then (a :: (scanString (b :: s)).1, (scanString (b :: s)).2)
    else if a = 0x5c ∧ isEscape b then (a :: b :: (scanString s).1, (scanString s).2)
    else ([], a :: b :: s)

/-- `\@([a-z0-9]+(-[a-z0-9]+)?)` -/
def scanTag : Scanner UInt8 := seq (chr 0x40) scanLang

/-- `%?["'](…)["'](\@([a-z0-9]+(-[a-z0-9]+)?))?%?` -/
def scanQuotedString : Scanner UInt8 :=
  seq (opt (chr 0x25)) (seq (one isQuote) (seq (fun s => some (scanString s))
    (seq (one isQuote) (seq (opt scanTag) (opt (chr 0x25))))))

/-- `[0-9",a-f,A-F]` -/
def isHexChar (a : UInt8) : Bool := isHex a || a = 0x22 || a = 0x2c

/-- `0[xX]([0-9",a-f,A-F])+` -/
def scanHex : Scanner UInt8 :=
  seq (chr 0x30) (seq (one fun a => a = 0x78 || a = 0x58) (many1 isHexChar))

/-- A word in the case in which it is written. -/
def scanWord (word s : Bytes) : Option (Bytes × Bytes) :=
  if word.isPrefixOf s then some (word, s.drop word.length) else none

/-- `Literal`: the expressions in their order. -/
def scanLiteral (s : Bytes) : Option (Bytes × Bytes) :=
  let t := skipWhite s
  (scanDecimal t <|> scanQuotedString t <|> scanInteger t <|> scanHex t <|> scanWord (ascii "true") t <|>
    scanWord (ascii "false") t <|> scanWord (ascii "null") t).map fun u => (u.1, skipWhite u.2)

/-! ## Patterns -/

/-- `[i]?[m]?[s]?[x]?` -/
def scanFlags : Scanner UInt8 :=
  seq (opt (chr 0x69)) (seq (opt (chr 0x6d)) (seq (opt (chr 0x73)) (opt (chr 0x78))))

/-- `\/(.*)\/[i]?[m]?[s]?[x]?`, up to the last slash of the line. -/
def scanSlashes (s : Bytes) : Option (Bytes × Bytes) :=
  match s with
  | [] => none
  | a :: t =>
    if a = 0x2f then
      (lastSplit (fun y => some ((), y)) 0x2f (t.takeWhile (· ≠ 0x0a))).bind fun u =>
        (scanFlags (u.2 ++ t.dropWhile (· ≠ 0x0a))).map fun v => (a :: (u.1.1 ++ 0x2f :: v.1), v.2)
    else none

/-- `[m]?\/(.*)\/[i]?[m]?[s]?[x]?` -/
def scanPattern : Scanner UInt8 := seq (opt (chr 0x6d)) scanSlashes

/-- `PatternLiteral`: the leftmost one is taken out, wherever it is. -/
def takePattern : Bytes → Option (Bytes × Bytes)
  | [] => none
  | a :: s =>
    match scanPattern (a :: s) with
    | some t => some t
    | none => (takePattern s).map fun t => (t.1, a :: t.2)

end RdfStore.Rdql
