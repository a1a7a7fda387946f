import RdfStore.Sha1
import RdfStore.Text

/-!
# The externals on ASCII text

A concrete instance of the parameters of the model, to run it on examples: the
digest is the source's SHA-1, bitmaps are copied as under
`RDFSTORE_COMPRESSION_TYPE_NONE`, case folding and `strtol` are those of ASCII
text.  `strtod` and the date recognisers are those of text that does not begin
with a number.
-/

namespace RdfStore

open ByteMem

/-- Case folding of ASCII text. -/
def asciiFold (l : Bytes) : Bytes := l.map fun c => if 65 ≤ c ∧ c ≤ 90 then c + 32 else c

def isDigit (c : UInt8) : Bool := 48 ≤ c && c ≤ 57

def digitsValue (l : Bytes) : Nat := l.foldl (fun n c => n * 10 + (c.toNat - 48)) 0

/-- The four bytes of a `long`, least significant first. -/
def longBytes (n : Int) : Bytes := (packInt (n % 2 ^ 32).toNat).reverse

/-- `strtol` in base 10: white space, a sign, digits; clamped to `long` with `ERANGE`. -/
def strtol (s : Bytes) : Conversion :=
  let spaces := s.takeWhile isspace
  let rest := s.drop spaces.length
  let sign := rest.take 1
  let signed := sign = [43] ∨ sign = [45]
  let digits := (if signed then rest.drop 1 else rest).takeWhile isDigit
  if digits = [] then ⟨0, longBytes 0, false⟩
  else
    let n : Int := if sign = [45] then -digitsValue digits else digitsValue digits
    let consumed := spaces.length + (if signed then 1 else 0) + digits.length
    if 2 ^ 31 ≤ n then ⟨consumed, longBytes (2 ^ 31 - 1), true⟩
    else if n < -2 ^ 31 then ⟨consumed, longBytes (-2 ^ 31), true⟩
    else ⟨consumed, longBytes n, false⟩

def asciiExternals : Externals where
  sha1 := Sha1.sha1
  funcEncode := id
  funcDecode := id
  foldedcase := asciiFold
  strtol := strtol
  strtod := fun _ => ⟨0, List.replicate 8 0, false⟩
  deserializeDateTime := fun _ => ⟨none, false⟩
  deserializeDate := fun _ => ⟨none, false⟩

theorem asciiExternals_lossless : asciiExternals.Lossless := ⟨fun _ _ => rfl, rfl⟩

example : (Sha1.sha1 (ascii "abc")).toList.take 4 = [0xA9, 0x99, 0x3E, 0x36] := by decide +kernel

example : (strtol (ascii " -12 ")).consumed = 4 ∧ (strtol (ascii "9999999999")).erange = true := by
  decide

/-! ## Small statements -/

/-- A one byte URI. -/
def uri (c : UInt8) : Resource := ⟨some ⟨[c], by simp⟩, false, 0⟩

/-- A one byte literal. -/
def plainLiteral (c : UInt8) : Literal := ⟨some ⟨[c], by simp⟩, .normal, CString.empty, none, 0⟩

/-- A statement with nothing cached. -/
def triple (s p : Resource) (o : Node) : Statement := ⟨some s, some p, some o, none, none, 0, false⟩

end RdfStore
