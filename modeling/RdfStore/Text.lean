import RdfStore.Externals

/-!
# Words, stems and numbers of a literal

`rdfstore_insert` and `rdfstore_remove` look for the same things in a literal:
the words of its case-folded string and up to five stems of each word
(free-text), its language, its datatype, a date, an integer or a double.  What
they then do with the keys differs, what keys they look at is the same and is
given here once.  `errno` is set by the number scanners and reset by nobody.
-/

namespace RdfStore

open ByteMem

/-! ## UTF-8 characters (`rdfstore_utf8.c`) -/

/-- `rdfstore_utf8_toskip` from the first lead byte on. -/
def utf8ToSkip (a : UInt8) : Nat :=
  if a < 0x80 then 1
  else if a < 0xc0 then 1
  else if a < 0xe0 then 2
  else if a < 0xf0 then 3
  else if a < 0xf8 then 4
  else if a < 0xfc then 5
  else 6

def isContinuation (p : UInt8) : Bool := 0x80 ≤ p && p ≤ 0xbf

/-- The continuation loop: the value accumulated over `ll` bytes, `none` at a byte that is no
continuation byte or when the value shrinks. -/
def utf8Tail : Nat → Bytes → Nat → Option Nat
  | 0, _, b => some b
  | ll + 1, p, b =>
    let c := p.headD 0
    if !isContinuation c then none
    else
      let b' := (b <<< 6) ||| (c &&& 0x3f).toNat
      if b' < b then none else utf8Tail ll p.tail b'

/-- The shortest length for a value. -/
def utf8Length (b : Nat) : Nat :=
  if b < 0x80 then 1
  else if b < 0x800 then 2
  else if b < 0x10000 then 3
  else if b < 0x200000 then 4
  else if b < 0x4000000 then 5
  else if b < 0x80000000 then 6
  else 7

/-- `rdfstore_utf8_is_utf8`: the length of the character the bytes begin with. -/
def rdfstoreUtf8IsUtf8 (bytes : Bytes) : Option Nat :=
  let a := bytes.headD 0
  if a < 0x80 then some 1
  else if !(0xc0 ≤ a && a ≤ 0xfd) then none
  else
    let len := utf8ToSkip a
    if !isContinuation (bytes.tail.headD 0) then none
    else
      match utf8Tail (len - 1) bytes.tail (a &&& (0x1F >>> (len - 2).toUInt8)).toNat with
      | none => none
      | some b => if utf8Length b < len then none else some len

/-! ## Numbers and dates (`rdfstore_xsd.c`) -/

def isspace (c : UInt8) : Bool := c = 32 || (9 ≤ c && c ≤ 13)

/-- The test both number recognisers make after `strtol` or `strtod`: something was
consumed, only white space is left, and `errno` is not `ERANGE`. -/
def acceptNumber (r : Conversion) (errno : Bool) (string : Bytes) : Bool × Option Bytes :=
  let errno := errno || r.erange
  (errno, if 0 < r.consumed ∧ (string.drop r.consumed).all isspace ∧ errno = false then some r.value
    else none)

section

variable (ext : Externals)

/-- `rdfstore_xsd_deserialize_integer`: `errno` afterwards and the bytes of the `long`. -/
def rdfstoreXsdDeserializeInteger (errno : Bool) (string : Option Bytes) : Bool × Option Bytes :=
  match string with
  | none => (errno, none)
  | some s => acceptNumber (ext.strtol (cstr s)) errno (cstr s)

/-- `rdfstore_xsd_deserialize_double`: `errno` afterwards and the bytes of the `double`. -/
def rdfstoreXsdDeserializeDouble (errno : Bool) (string : Option Bytes) : Bool × Option Bytes :=
  match string with
  | none => (errno, none)
  | some s => acceptNumber (ext.strtod (cstr s)) errno (cstr s)

/-- `rdfstore_xsd_deserialize_dateTime(..) || rdfstore_xsd_deserialize_date(..)` -/
def deserializeDates (errno : Bool) (string : Bytes) : Bool × Option Bytes :=
  let r := ext.deserializeDateTime (cstr string)
  match r.value with
  | some v => (errno || r.erange, some v)
  | none =>
    let d := ext.deserializeDate (cstr string)
    (errno || r.erange || d.erange, d.value)

/-! ## Free-text keys -/

/-- `RDFSTORE_WORD_SPLITS` -/
def wordSplits : Bytes := ascii "\x0b\x0c\n\r\t ,:;'\"!#$%^&*()~`_=+\x7b\x7d[]<>?.-/\\|"

/-- `RDFSTORE_WORD_STEMMING` -/
def wordStemming : Nat := 5

/-- The words `strtok` finds in a C string. -/
def strtokWords (folded : Bytes) : List Bytes :=
  ((cstr folded).splitOnP (wordSplits.contains ·)).filter (· ≠ [])

/-- Look for the next UTF-8 character to add to the stem. -/
def nextUtf8 (word : Bytes) : Nat → Nat → Nat
  | 0, jj => jj
  | fuel + 1, jj =>
    if jj < word.length ∧ (rdfstoreUtf8IsUtf8 (word.drop jj)).isNone then nextUtf8 word fuel (jj + 1)
    else jj

/-- The stems of a word: prefixes ending before its 2nd, 3rd, … character, `kk` of them left. -/
def stems (word : Bytes) : Nat → Nat → List Bytes
  | 0, _ => []
  | kk + 1, jj =>
    if jj < word.length then
      let jj' := nextUtf8 word (word.length - jj) jj
      word.take jj' :: stems word kk (jj' + 1)
    else []

/-- Numbers, dates and words of one byte have no stems.  The tests are made one after the
other until one succeeds. -/
def skipStems (errno : Bool) (word : Bytes) : Bool × Bool :=
  let i := rdfstoreXsdDeserializeInteger ext errno (some word)
  if i.2.isSome then (i.1, true)
  else
    let d := rdfstoreXsdDeserializeDouble ext i.1 (some word)
    if d.2.isSome then (d.1, true)
    else
      let t := deserializeDates ext d.1 word
      if t.2.isSome then (t.1, true)
      else (t.1, decide (word.length ≤ 1))

/-- A key of the free-text table, a whole word or a stem. -/
inductive WindexKey
  | word (w : Bytes)
  | stem (s : Bytes)
  deriving DecidableEq

def WindexKey.bytes : WindexKey → Bytes
  | .word w => w
  | .stem s => s

/-- The loop over the words: every word is a key, and so are its stems. -/
def windexLoop (errno : Bool) : List Bytes → Bool × List WindexKey
  | [] => (errno, [])
  | w :: ws =>
    let r := skipStems ext errno w
    let rest := windexLoop r.1 ws
    (rest.1, .word w :: (if r.2 then [] else (stems w wordStemming 1).map .stem) ++ rest.2)

/-- The free-text keys of a string, in the order they are met; nothing avoids duplicates. -/
def windexKeys (errno : Bool) (string : Bytes) : Bool × List WindexKey :=
  windexLoop ext errno (strtokWords (ext.foldedcase string))

/-! ## The other keys of a literal -/

def literalWindexKeys (freetext errno : Bool) (l : Literal) : Bool × List WindexKey :=
  if freetext ∧ 0 < l.bytes.length then windexKeys ext errno l.bytes else (errno, [])

def languageKey (l : Literal) : Option Bytes :=
  if 0 < l.lang.bytes.length then some (ext.foldedcase l.lang.bytes) else none

def datatypeKey (l : Literal) : Option Bytes :=
  if 0 < l.dtBytes.length then some l.dtBytes else none

/-- Date indexing, only under the two date datatypes.  `none` is the crash of `strlen` on a
literal without string. -/
def dateKey (errno : Bool) (l : Literal) : Option (Bool × Option Bytes) :=
  if l.dtBytes = xsdDateUri ∨ l.dtBytes = xsdDateTimeUri then
    l.string.map fun s => deserializeDates ext errno s.bytes
  else some (errno, none)

def integerKey (errno : Bool) (l : Literal) : Bool × Option Bytes :=
  rdfstoreXsdDeserializeInteger ext errno (l.string.map (·.bytes))

/-- Integers are not indexed as doubles too. -/
def doubleKey (errno : Bool) (l : Literal) (islval : Bool) : Bool × Option Bytes :=
  if islval then (errno, none) else rdfstoreXsdDeserializeDouble ext errno (l.string.map (·.bytes))

end

end RdfStore
