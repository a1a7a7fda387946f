import RdfStore.Store

/-!
# Search by triple pattern (`rdfstore_search`)

A pattern has seven components, each a list of parts with an operator.  The
search goes through the components in turn: the entries of the parts are joined
into one bitmap, and this into the bitmap of the components before.  A length of
zero stands for "nothing joined yet" as well as for "no id left", both in the
loop over the parts and between the components.

The bitmaps are static buffers that keep their bytes behind their length.  The
range component (`ranges`) is not modelled: patterns have none.
-/

namespace RdfStore

open ByteMem

/-! ## Patterns -/

/-- An element of a part list under its type tag. -/
inductive Part
  | resourceNode (n : Node)
  | literalNode (n : Node)
  | string (s : CString)

/-- A list of parts, NULL when empty, and its operator: 0 OR, 1 AND, 2 NOT. -/
structure PartList where
  parts : List Part
  operator : UInt32

structure TriplePattern where
  subjects : PartList
  predicates : PartList
  objects : PartList
  contexts : PartList
  langs : PartList
  dts : PartList
  words : PartList

def PartList.isNull (l : PartList) : Bool := l.parts.isEmpty

def Part.isResource : Part → Bool
  | .resourceNode _ => true
  | _ => false

def Part.isNode : Part → Bool
  | .string _ => false
  | _ => true

def Part.isString : Part → Bool
  | .string _ => true
  | _ => false

/-- The check of a component: the tags of its parts and its operator. -/
def PartList.check (tag : Part → Bool) (l : PartList) : Bool :=
  l.isNull || (l.parts.all tag && l.operator ≤ 2)

def TriplePattern.check (tp : TriplePattern) : Bool :=
  tp.subjects.check Part.isResource && tp.predicates.check Part.isResource && tp.objects.check Part.isNode
    && tp.contexts.check Part.isResource && tp.langs.check Part.isString && tp.dts.check Part.isString
    && tp.words.check Part.isString

def TriplePattern.isEmpty (tp : TriplePattern) : Bool :=
  tp.subjects.isNull && tp.predicates.isNull && tp.objects.isNull && tp.contexts.isNull
    && tp.langs.isNull && tp.dts.isNull && tp.words.isNull

/-! ## Iterators -/

/-- The ids a search found, as a bitmap, and their number. -/
structure Iterator where
  ids : Buf
  idsSize : Nat
  size : Nat

def Iterator.empty : Iterator := ⟨fun _ => 0, 0, 0⟩

/-- What a search comes back with. -/
inductive SearchResult
  /-- NULL -/
  | null
  /-- what `rdfstore_elements` returns -/
  | elements
  /-- an iterator, the store and the pattern afterwards -/
  | found (results : Iterator) (me : Store) (tp : TriplePattern)

section

variable (ext : Externals)

/-! ## Joining the entries of the parts -/

/-- A bitmap under construction, with the buffers used on the way. -/
structure Join where
  outsize : Nat
  bits : Buf
  bits1 : Buf
  bitsDecode : Buf

/-- What an operator makes of two bitmaps: the length, and the bytes in `bits1`.  NOT is not
implemented. -/
def applyOperator (operator : UInt32) (la : Nat) (ba : Buf) (lb : Nat) (bb : Buf) (bits1 : Buf) : Nat × Buf :=
  if operator = 1 then rdfstoreBitsAnd la ba lb bb bits1
  else if operator = 0 then rdfstoreBitsOr la ba lb bb bits1
  else (la, bits1)

@[simp] theorem applyOperator_or (la : Nat) (ba : Buf) (lb : Nat) (bb bits1 : Buf) :
    applyOperator 0 la ba lb bb bits1 = rdfstoreBitsOr la ba lb bb bits1 := rfl

@[simp] theorem applyOperator_and (la : Nat) (ba : Buf) (lb : Nat) (bb bits1 : Buf) :
    applyOperator 1 la ba lb bb bits1 = rdfstoreBitsAnd la ba lb bb bits1 := rfl

/-- One part: its entry is joined to what is there, or decoded if nothing is there yet; a part
without entry is passed over. -/
def joinEntry (operator : UInt32) (j : Join) (entry : Option Bytes) : Join :=
  match entry with
  | none => j
  | some data =>
    let decoded := ext.funcDecode data
    if 0 < j.outsize then
      let bitsDecode := overlay decoded j.bitsDecode
      let (outsize, bits1) := applyOperator operator j.outsize j.bits decoded.length bitsDecode j.bits1
      let outsize := rdfstoreBitsShorten outsize bits1
      ⟨outsize, copyBytes outsize bits1 j.bits, bits1, bitsDecode⟩
    else { j with outsize := decoded.length, bits := overlay decoded j.bits }

/-- The loop over the parts of a component, by their keys in its table. -/
def joinParts (operator : UInt32) (db : FlatDb) (keys : List Bytes) (j : Join) : Join :=
  keys.foldl (fun j key => joinEntry ext operator j (rdfstoreFlatStoreFetch db key)) j

/-! ## Keys of the parts -/

/-- The key of a node or of a string to be case-folded. -/
def Part.key (p : Part) : Bytes :=
  match p with
  | .resourceNode n => nodeKey ext n
  | .literalNode n => nodeKey ext n
  | .string s => ext.foldedcase s.bytes

/-- The key of a datatype is the string itself. -/
def Part.plainKey (p : Part) : Bytes :=
  match p with
  | .string s => s.bytes
  | p => p.key ext

/-- The loop caches the hash codes of its nodes. -/
def Part.cacheHash (p : Part) : Part :=
  match p with
  | .resourceNode n => .resourceNode (n.cacheHash ext)
  | .literalNode n => .literalNode (n.cacheHash ext)
  | .string s => .string s

def PartList.cacheHashes (l : PartList) : PartList := { l with parts := l.parts.map (Part.cacheHash ext) }

/-! ## The components -/

structure Search where
  me : Store
  tp : TriplePattern
  bits : Buf
  bits1 : Buf
  bits2 : Buf
  outsize1 : Nat
  outsize3 : Nat

/-- Words are joined in `bits`, before everything else.  An error is the way out with what has
been found so far, an empty iterator. -/
def searchWords (s : Search) : Except Search Search :=
  if s.me.freetext && !s.tp.words.isNull then
    let j := joinParts ext s.tp.words.operator (s.me.index .windex) (s.tp.words.parts.map (Part.key ext))
      ⟨s.outsize1, s.bits, s.bits1, s.me.bitsDecode⟩
    let s := { s with
      me := { s.me with bitsDecode := j.bitsDecode }, bits := j.bits, bits1 := j.bits1, outsize1 := j.outsize }
    if s.outsize1 = 0 then .error s else .ok s
  else .ok s

/-- The loop over the parts of a component other than the words, into `bits2`. -/
def joinComponent (t : Index) (operator : UInt32) (keys : List Bytes) (s : Search) : Search :=
  let j := joinParts ext operator (s.me.index t) keys ⟨0, s.bits2, s.bits1, s.me.bitsDecode⟩
  { s with
    me := { s.me with bitsDecode := j.bitsDecode }, bits2 := j.bits, bits1 := j.bits1, outsize3 := j.outsize }

/-- The component is joined to the components before, by AND. -/
def andBefore (s : Search) : Except Search Search :=
  let (outsize1, bits1) := rdfstoreBitsAnd s.outsize1 s.bits s.outsize3 s.bits2 s.bits1
  let outsize1 := rdfstoreBitsShorten outsize1 bits1
  let s := { s with outsize1, bits1 }
  if outsize1 = 0 then .error s else .ok { s with bits := copyBytes outsize1 bits1 s.bits }

/-- Every component but words and contexts: join the parts, then join the component. -/
def searchComponent (t : Index) (operator : UInt32) (keys : List Bytes) (s : Search) :
    Except Search Search :=
  let s := joinComponent ext t operator keys s
  if s.outsize3 = 0 then .error s
  else if 0 < s.outsize1 then andBefore s
  else
    -- nothing before: OR it to a bitmap of zeroes
    let (outsize1, bits1) := rdfstoreBitsOr s.outsize3 s.bits s.outsize3 s.bits2 s.bits1
    .ok { s with outsize1, bits1, bits := copyBytes s.outsize3 bits1 s.bits }

def searchSubjects (s : Search) : Except Search Search :=
  if s.tp.subjects.isNull then .ok s
  else searchComponent ext .subjects s.tp.subjects.operator (s.tp.subjects.parts.map (Part.key ext))
    { s with tp := { s.tp with subjects := s.tp.subjects.cacheHashes ext } }

def searchPredicates (s : Search) : Except Search Search :=
  if s.tp.predicates.isNull then .ok s
  else searchComponent ext .predicates s.tp.predicates.operator (s.tp.predicates.parts.map (Part.key ext))
    { s with tp := { s.tp with predicates := s.tp.predicates.cacheHashes ext } }

def searchObjects (s : Search) : Except Search Search :=
  if s.tp.objects.isNull then .ok s
  else searchComponent ext .objects s.tp.objects.operator (s.tp.objects.parts.map (Part.key ext))
    { s with tp := { s.tp with objects := s.tp.objects.cacheHashes ext } }

def searchLangs (s : Search) : Except Search Search :=
  if s.tp.langs.isNull then .ok s
  else searchComponent ext .languages s.tp.langs.operator (s.tp.langs.parts.map (Part.key ext)) s

def searchDts (s : Search) : Except Search Search :=
  if s.tp.dts.isNull then .ok s
  else searchComponent ext .datatypes s.tp.dts.operator (s.tp.dts.parts.map (Part.plainKey ext)) s

/-- Contexts come last; alone, they are copied. -/
def searchContexts (s : Search) : Except Search Search :=
  if s.tp.contexts.isNull then .ok s
  else
    let s := joinComponent ext .contexts s.tp.contexts.operator (s.tp.contexts.parts.map (Part.key ext))
      { s with tp := { s.tp with contexts := s.tp.contexts.cacheHashes ext } }
    if s.outsize3 = 0 then .error s
    else if 0 < s.outsize1 then andBefore s
    else .ok { s with outsize1 := s.outsize3, bits := copyBytes s.outsize3 s.bits2 s.bits }

/-- The components one after the other. -/
def searchComponents (s : Search) : Except Search Search := do
  let s ← searchWords ext s
  let s ← searchSubjects ext s
  let s ← searchPredicates ext s
  let s ← searchObjects ext s
  let s ← searchLangs ext s
  let s ← searchDts ext s
  searchContexts ext s

/-- `rdfstore_search` -/
def rdfstoreSearch (me : Store) (tp : Option TriplePattern) : SearchResult :=
  match tp with
  | none => .elements
  | some tp =>
    if !tp.check then .null
    else if me.freetext && !tp.words.isNull && !tp.objects.isNull then .null
    else if tp.isEmpty then .elements
    else
      match searchComponents ext ⟨me, tp, fun _ => 0, fun _ => 0, fun _ => 0, 0, 0⟩ with
      | .error s => .found Iterator.empty s.me s.tp
      | .ok s => .found ⟨copyBytes s.outsize1 s.bits fun _ => 0, s.outsize1, countBits s.outsize1 s.bits⟩ s.me s.tp

end

end RdfStore
