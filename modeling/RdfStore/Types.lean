import RdfStore.Lib.ByteMem
import Mathlib.Data.List.TakeWhile

/-!
# Nodes and statements (`rdfstore.h`, constructors and setters of `rdfstore_kernel.c`)

A pointer that may be NULL is an `Option`.  What C's types promise is carried by
the data: a buffer with its `int` length is a `CBuf`, a NUL-terminated string is
a `CString`.  The constructors build nodes and statements with an empty hash
cache; the setters change the content and leave the cache alone.
-/

namespace RdfStore

open ByteMem

/-! ## C data -/

/-- A buffer together with its length, which is a C `int`. -/
structure CBuf where
  bytes : Bytes
  fits : bytes.length < 2 ^ 31
  deriving DecidableEq

/-- A NUL-terminated string, without the NUL. -/
structure CString where
  bytes : Bytes
  noNul : 0 ∉ bytes
  fits : bytes.length < 2 ^ 31
  deriving DecidableEq

@[ext] theorem CBuf.ext {a b : CBuf} (h : a.bytes = b.bytes) : a = b := by
  cases a; cases b; cases h; rfl

@[ext] theorem CString.ext {a b : CString} (h : a.bytes = b.bytes) : a = b := by
  cases a; cases b; cases h; rfl

theorem nil_fits : ([] : Bytes).length < 2 ^ 31 := Nat.two_pow_pos 31

def CString.empty : CString := ⟨[], List.not_mem_nil, nil_fits⟩

/-- The bytes of an ASCII constant of the source. -/
def ascii (s : String) : Bytes := s.toList.map fun c => c.toNat.toUInt8

/-- A C string seen from its first byte: what stands before the first NUL. -/
def cstr (l : Bytes) : Bytes := l.takeWhile (· ≠ 0)

theorem not_mem_cstr (l : Bytes) : 0 ∉ cstr l := by
  intro h
  have h0 := List.mem_takeWhile_imp h
  simp at h0

theorem cstr_of_not_mem {l : Bytes} (h : 0 ∉ l) : cstr l = l := by
  refine List.takeWhile_eq_self_iff.2 fun c hc => ?_
  have hne : c ≠ 0 := fun h0 => h (h0 ▸ hc)
  simpa using hne

/-! ## Constants -/

/-- `RDFSTORE_RDF_PARSETYPE_LITERAL` -/
def xmlLiteralUri : Bytes := ascii "http://www.w3.org/1999/02/22-rdf-syntax-ns#XMLLiteral"

def xmlLiteral : CString := ⟨xmlLiteralUri, by decide, by decide⟩

/-- `RDFSTORE_MS_XSD_DATE` -/
def xsdDateUri : Bytes := ascii "http://www.w3.org/2001/XMLSchema#date"

/-- `RDFSTORE_MS_XSD_DATETIME` -/
def xsdDateTimeUri : Bytes := ascii "http://www.w3.org/2001/XMLSchema#dateTime"

/-- `RDFSTORE_MAX_LANG_LENGTH` -/
def maxLangLength : Nat := 50

/-- `RDFSTORE_MAXRECORDS` -/
def maxRecords : Nat := 2097152

/-- `RDFSTORE_MAXRECORDS_BYTES_SIZE` -/
def maxRecordsBytesSize : Nat := maxRecords / 8

/-! ## Nodes and statements -/

inductive ParseType
  | normal
  | literal
  deriving DecidableEq

/-- An `RDF_Node` of type 0 (URI) or 2 (bNode). -/
structure Resource where
  identifier : Option CBuf
  bnode : Bool
  hashcode : UInt32
  deriving DecidableEq

/-- An `RDF_Node` of type 1. -/
structure Literal where
  string : Option CBuf
  parseType : ParseType
  lang : CString
  dataType : Option CString
  hashcode : UInt32
  deriving DecidableEq

inductive Node
  | resource (r : Resource)
  | literal (l : Literal)
  deriving DecidableEq

structure Statement where
  subject : Option Resource
  predicate : Option Resource
  object : Option Node
  context : Option Resource
  /-- the statement as a resource (reification) -/
  node : Option Resource
  hashcode : UInt32
  /-- 0 stated, 1 quoted -/
  isreified : Bool
  deriving DecidableEq

/-- The `identifier_len` bytes of a resource. -/
def Resource.bytes (r : Resource) : Bytes := (r.identifier.map (·.bytes)).getD []

/-- The `string_len` bytes of a literal. -/
def Literal.bytes (l : Literal) : Bytes := (l.string.map (·.bytes)).getD []

/-- The datatype bytes, none when the pointer is NULL. -/
def Literal.dtBytes (l : Literal) : Bytes := (l.dataType.map (·.bytes)).getD []

def Node.hashcode : Node → UInt32
  | .resource r => r.hashcode
  | .literal l => l.hashcode

theorem Resource.bytes_length_lt (r : Resource) : r.bytes.length < 2 ^ 31 := by
  unfold Resource.bytes
  cases r.identifier with
  | none => simp
  | some b => exact b.fits

theorem Literal.bytes_length_lt (l : Literal) : l.bytes.length < 2 ^ 31 := by
  unfold Literal.bytes
  cases l.string with
  | none => simp
  | some b => exact b.fits

theorem Literal.dtBytes_length_lt (l : Literal) : l.dtBytes.length < 2 ^ 31 := by
  unfold Literal.dtBytes
  cases l.dataType with
  | none => simp
  | some b => exact b.fits

/-! ## Constructors -/

/-- `string != NULL && len > 0`, the test every constructor and setter makes. -/
def CBuf.nonEmpty (b : Option CBuf) : Option CBuf := b.filter (·.bytes.length > 0)

def CString.nonEmpty (s : Option CString) : Option CString := s.filter (·.bytes.length > 0)

/-- `rdfstore_literal_new` -/
def rdfstoreLiteralNew (string : Option CBuf) (parseType : Int) (lang dt : Option CString) :
    Option Literal :=
  if parseType ≠ 0 ∧ (∃ d ∈ CString.nonEmpty dt, d ≠ xmlLiteral) then none
  else if parseType ≠ 0 ∧ parseType ≠ 1 then none
  else if ∃ l ∈ CString.nonEmpty lang, l.bytes.length > maxLangLength then none
  else some {
    string := CBuf.nonEmpty string
    parseType := if parseType = 1 then .literal else .normal
    lang := (CString.nonEmpty lang).getD CString.empty
    -- rdf:parseType="Literal" is the same as the XMLLiteral datatype
    dataType := CString.nonEmpty (if parseType = 1 then some xmlLiteral else dt)
    hashcode := 0 }

/-- `rdfstore_resource_new`; type 0 is a URI, 2 a bNode. -/
def rdfstoreResourceNew (identifier : Option CBuf) (type : Int) : Option Resource :=
  if type ≠ 0 ∧ type ≠ 2 then none
  else (CBuf.nonEmpty identifier).map fun id => ⟨some id, decide (type = 2), 0⟩

/-! ## Setters -/

def rdfstoreLiteralSetString (l : Literal) (string : Option CBuf) : Literal :=
  match CBuf.nonEmpty string with
  | some s => { l with string := some s }
  | none => l

def rdfstoreLiteralSetLang (l : Literal) (lang : Option CString) : Literal :=
  match CString.nonEmpty lang with
  | some s => { l with lang := s }
  | none => l

/-- Unlike the constructor, an empty datatype is stored. -/
def rdfstoreLiteralSetDatatype (l : Literal) (dt : Option CString) : Literal :=
  match dt with
  | some d => { l with dataType := some d }
  | none => l

/-- Only parse type 1 has an effect. -/
def rdfstoreLiteralSetParsetype (l : Literal) (parseType : Int) : Literal :=
  if parseType = 1 then rdfstoreLiteralSetDatatype { l with parseType := .literal } (some xmlLiteral)
  else l

def rdfstoreResourceSetUri (r : Resource) (identifier : Option CBuf) : Resource :=
  match CBuf.nonEmpty identifier with
  | some id => { r with identifier := some id }
  | none => r

def rdfstoreStatementSetSubject (st : Statement) (s : Option Resource) : Statement :=
  { st with subject := s }

def rdfstoreStatementSetPredicate (st : Statement) (p : Option Resource) : Statement :=
  { st with predicate := p }

def rdfstoreStatementSetObject (st : Statement) (o : Option Node) : Statement :=
  { st with object := o }

def rdfstoreStatementSetContext (st : Statement) (c : Option Resource) : Statement :=
  { st with context := c }

def rdfstoreStatementSetNode (st : Statement) (node : Option Resource) : Statement :=
  { st with node := node }

end RdfStore
