import RdfStore.Bits
import RdfStore.Digest
import RdfStore.Text

/-!
# The store and its three main operations (`rdfstore_kernel.c`)

A store is a set of flat tables.  `nodes` maps a statement id to its record,
`statements` the hash code of a statement to its id; every other table maps a
key to the bitmap of the ids of the statements it indexes.  `rdfstore_insert`
and `rdfstore_remove` update these tables one after the other and may leave
half-way; `rdfstore_contains` looks into `statements` only.

The calls take a statement and a context by value and give them back with the
hash codes the call cached in them (`Frame`).  `none` means that the process did
not come back from the call (`exit(1)` on a bitmap that is too large, `strlen`
on a NULL string).
-/

namespace RdfStore

open ByteMem

/-! ## State -/

/-- The tables that hold bitmaps of statement ids. -/
inductive Index
  | subjects
  | predicates
  | objects
  | contexts
  | languages
  | datatypes
  | xsdInteger
  | xsdDouble
  | xsdDate
  | windex
  deriving DecidableEq

structure Store where
  index : Index → FlatDb
  nodes : FlatDb
  statements : FlatDb
  /-- `RDFSTORE_COUNTER_KEY` of the model table -/
  counter : UInt32
  /-- `RDFSTORE_COUNTER_REMOVED_KEY` of the model table -/
  counterRemoved : UInt32
  /-- `RDFSTORE_LASTMODIFIED_KEY` of the model table -/
  lastModified : Bytes
  freetext : Bool
  /-- the default context -/
  context : Option Resource
  /-- the static buffer bitmaps are decoded into -/
  bitsDecode : Buf
  /-- `errno` of the process is `ERANGE` -/
  errno : Bool

/-- A new store with empty tables. -/
def rdfstoreConnect (freetext errno : Bool) (now : Bytes) : Store where
  index := fun _ => ∅
  nodes := ∅
  statements := ∅
  counter := 0
  counterRemoved := 0
  lastModified := now
  freetext := freetext
  context := none
  bitsDecode := fun _ => 0
  errno := errno

/-- What a call works on and leaves behind. -/
structure Frame where
  me : Store
  statement : Statement
  givenContext : Option Resource

/-- An early way out of `rdfstore_remove`: the process is gone, or a status is returned. -/
inductive Exit
  | abort
  | ret (status : Int) (me : Store)

/-! ## Bitmap tables -/

/-- The two ways the source goes to a bitmap table: fetch, decode, encode and store by hand,
or through `rdfstore_flat_store_fetch_compressed` and `.._store_compressed`. -/
inductive Access
  | plain
  | compressed
  deriving DecidableEq

section

variable (ext : Externals)

/-- Fetch and decode into `me->bits_decode`: the size, 0 for an absent key, and the buffer. -/
def indexFetch (me : Store) (t : Index) (key : Bytes) : Nat × Buf :=
  match rdfstoreFlatStoreFetch (me.index t) key with
  | none => (0, me.bitsDecode)
  | some data => ((ext.funcDecode data).length, overlay (ext.funcDecode data) me.bitsDecode)

/-- The entry to store for a bitmap, if any: `plain` tests the encoded size, `compressed` the
size before encoding. -/
def encodedEntry (a : Access) (outsize : Nat) (bits : Buf) : Option Bytes :=
  let data := ext.funcEncode (takeBytes outsize bits)
  match a with
  | .plain => if data.length ≠ 0 then some data else none
  | .compressed => if outsize ≠ 0 then some data else none

def Store.setTable (me : Store) (t : Index) (db : FlatDb) : Store :=
  { me with index := Function.update me.index t db }

def Store.putEntry (me : Store) (t : Index) (key : Bytes) (entry : Option Bytes) : Store :=
  match entry with
  | none => me
  | some data => me.setTable t (rdfstoreFlatStoreStore (me.index t) key data)

/-- How `rdfstore_insert` adds an id under a key. -/
def indexInsert (a : Access) (me : Store) (t : Index) (key : Bytes) (stId : Nat) : Option Store :=
  let r := indexFetch ext me t key
  match rdfstoreBitsSetmask r.1 r.2 stId 1 1 maxRecordsBytesSize with
  | none => none
  | some (outsize, bits, _) =>
    some ({ me with bitsDecode := bits }.putEntry t key (encodedEntry ext a outsize bits))

/-- How `rdfstore_remove` takes an id out of a key: the key goes with its last id, and a key
that is not there ends the call. -/
def indexRemove (a : Access) (me : Store) (t : Index) (key : Bytes) (stId : Nat) : Except Exit Store :=
  let r := indexFetch ext me t key
  match rdfstoreBitsSetmask r.1 r.2 stId 1 0 maxRecordsBytesSize with
  | none => .error .abort
  | some (outsize, bits, _) =>
    let outsize := rdfstoreBitsShorten outsize bits
    let me := { me with bitsDecode := bits }
    if 0 < outsize then .ok (me.putEntry t key (encodedEntry ext a outsize bits))
    else
      match rdfstoreFlatStoreDelete (me.index t) key with
      | none => .error (.ret 1 me)
      | some db => .ok (me.setTable t db)

/-- Whether a bitmap has a second id, by two calls of `getfirstsetafter`. -/
def matchedMore (outsize : Nat) (bits : Buf) : Bool :=
  let pos := rdfstoreBitsGetfirstsetafter outsize bits 0
  let pos := if pos < outsize * 8 then pos + 1 else pos
  decide (pos < outsize * 8) && decide (rdfstoreBitsGetfirstsetafter outsize bits pos < outsize * 8)

/-- How `rdfstore_remove` takes an id out of a free-text key: with a second id the bit is
cleared, otherwise the key is deleted, whoever's bit is left in it. -/
def windexRemove (me : Store) (key : Bytes) (stId : Nat) : Option Store :=
  let r := indexFetch ext me .windex key
  let me := { me with bitsDecode := r.2 }
  if matchedMore r.1 r.2 then
    match rdfstoreBitsSetmask r.1 r.2 stId 1 0 maxRecordsBytesSize with
    | none => none
    | some (outsize, bits, _) =>
      some ({ me with bitsDecode := bits }.putEntry .windex key (encodedEntry ext .compressed outsize bits))
  else
    match rdfstoreFlatStoreDelete (me.index .windex) key with
    | none => some me
    | some db => some (me.setTable .windex db)

/-! ## Arguments, context and hash code -/

/-- The components of a statement once the NULL checks are passed. -/
structure Args where
  subject : Resource
  predicate : Resource
  object : Node
  deriving DecidableEq

/-- A pointer that is NULL or whose identifier is not. -/
def identified (r : Option Resource) : Bool := r.all (·.identifier.isSome)

/-- A literal may be empty, a resource needs its identifier. -/
def Node.identified : Node → Bool
  | .resource r => r.identifier.isSome
  | .literal _ => true

/-- The argument checks the three operations begin with; `none` is the answer -1. -/
def checkArgs (st : Statement) (givenContext : Option Resource) : Option Args :=
  match st.subject, st.predicate, st.object with
  | some s, some p, some o =>
    if s.identifier.isSome && p.identifier.isSome && o.identified && identified givenContext
        && identified st.node then some ⟨s, p, o⟩
    else none
  | _, _, _ => none

/-- The context of an insert or a remove: the given one, the statement's own, the default. -/
def effectiveContext (me : Store) (st : Statement) (givenContext : Option Resource) : Option Resource :=
  (givenContext.or st.context).or me.context

/-- The hash code is cached if the statement has a "proper" identity. -/
def Frame.cacheStatementHash (f : Frame) (hc : UInt32) : Frame :=
  if f.givenContext.isNone ∧ f.me.context.isNone then
    { f with statement := { f.statement with hashcode := hc } }
  else f

def Resource.cacheHash (r : Resource) : Resource :=
  { r with hashcode := rdfstoreDigestGetNodeHashCode ext (.resource r) false }

def Node.cacheHash (n : Node) : Node :=
  match n with
  | .resource r => .resource (r.cacheHash ext)
  | .literal l => .literal { l with hashcode := rdfstoreDigestGetNodeHashCode ext (.literal l) false }

/-- The hash codes of the components and of the context are cached where they were found. -/
def Frame.cacheNodeHashes (f : Frame) : Frame :=
  let f := { f with statement := { f.statement with
    subject := f.statement.subject.map (Resource.cacheHash ext)
    predicate := f.statement.predicate.map (Resource.cacheHash ext)
    object := f.statement.object.map (Node.cacheHash ext) } }
  match f.givenContext, f.statement.context, f.me.context with
  | some c, _, _ => { f with givenContext := some (c.cacheHash ext) }
  | none, some c, _ => { f with statement := { f.statement with context := some (c.cacheHash ext) } }
  | none, none, some c => { f with me := { f.me with context := some (c.cacheHash ext) } }
  | none, none, none => f

/-! ## The record of a statement -/

def Node.bytes : Node → Bytes
  | .resource r => r.bytes
  | .literal l => l.bytes

def Node.langBytes : Node → Bytes
  | .resource _ => []
  | .literal l => l.lang.bytes

def Node.dtBytes : Node → Bytes
  | .resource _ => []
  | .literal l => l.dtBytes

def Node.isLiteral : Node → Bool
  | .resource _ => false
  | .literal _ => true

def Node.isBnode : Node → Bool
  | .resource r => r.bnode
  | .literal _ => false

/-- The bytes of a resource pointer, none when it is NULL. -/
def optBytes (r : Option Resource) : Bytes := (r.map Resource.bytes).getD []

/-- The special byte of a record. -/
def recordMask (a : Args) (context : Option Resource) (isreified : Bool) : UInt8 :=
  (if a.object.isLiteral then 1 else 0) ||| (if a.subject.bnode then 2 else 0)
    ||| (if a.predicate.bnode then 4 else 0) ||| (if a.object.isBnode then 8 else 0)
    ||| (if context.any (·.bnode) then 16 else 0) ||| (if isreified then 32 else 0)

/-- What `rdfstore_insert` writes to the nodes table: seven lengths, the mask, the fields and
a NUL. -/
def statementRecord (a : Args) (st : Statement) (context : Option Resource) : Bytes :=
  packInt a.subject.bytes.length ++ packInt a.predicate.bytes.length
    ++ packInt a.object.bytes.length ++ packInt a.object.langBytes.length
    ++ packInt a.object.dtBytes.length ++ packInt (optBytes context).length
    ++ packInt (optBytes st.node).length ++ [recordMask a context st.isreified]
    ++ a.subject.bytes ++ a.predicate.bytes ++ a.object.bytes ++ a.object.langBytes
    ++ a.object.dtBytes ++ optBytes context ++ optBytes st.node ++ [0]

/-! ## Insert -/

/-- `parseType` and datatype of an object contradict each other. -/
def parseTypeMismatch (o : Node) : Bool :=
  match o with
  | .resource _ => false
  | .literal l =>
    (l.parseType = .literal && l.dataType.any (·.bytes ≠ xmlLiteralUri))
      || (l.parseType ≠ .literal && l.dataType.any (·.bytes = xmlLiteralUri))

def insertOpt (t : Index) (stId : Nat) (me : Store) (key : Option Bytes) : Option Store :=
  match key with
  | none => some me
  | some key => indexInsert ext .plain me t key stId

def windexAccess : WindexKey → Access
  | .word _ => .compressed
  | .stem _ => .plain

/-- The special literal tables. -/
def insertLiteral (me : Store) (l : Literal) (stId : Nat) : Option Store := do
  let (errno, keys) := literalWindexKeys ext me.freetext me.errno l
  let me ← keys.foldlM (fun me k => indexInsert ext (windexAccess k) me .windex k.bytes stId)
    { me with errno }
  let me ← insertOpt ext .languages stId me (languageKey ext l)
  let me ← insertOpt ext .datatypes stId me (datatypeKey l)
  let (errno, date) ← dateKey ext me.errno l
  let me ← insertOpt ext .xsdDate stId { me with errno } date
  let (errno, lval) := integerKey ext me.errno l
  let me ← insertOpt ext .xsdInteger stId { me with errno } lval
  let (errno, dval) := doubleKey ext me.errno l lval.isSome
  insertOpt ext .xsdDouble stId { me with errno } dval

def insertObjectTables (me : Store) (o : Node) (stId : Nat) : Option Store :=
  match o with
  | .resource _ => some me
  | .literal l => insertLiteral ext me l stId

/-- The key of a node in the tables. -/
def nodeKey (n : Node) : Bytes := hashKey (rdfstoreDigestGetNodeHashCode ext n false)

/-- The tables one after the other: nodes, the literal tables, the adjacency tables. -/
def insertTables (me : Store) (a : Args) (st : Statement) (context : Option Resource) (stId : Nat) :
    Option Store := do
  let me := { me with
    nodes := rdfstoreFlatStoreStore me.nodes (packInt stId) (statementRecord a st context) }
  let me ← insertObjectTables ext me a.object stId
  let me ← indexInsert ext .plain me .subjects (nodeKey ext (.resource a.subject)) stId
  let me ← indexInsert ext .plain me .predicates (nodeKey ext (.resource a.predicate)) stId
  let me ← indexInsert ext .plain me .objects (nodeKey ext a.object) stId
  insertOpt ext .contexts stId me (context.map fun c => nodeKey ext (.resource c))

/-- `rdfstore_insert` at the time `now`. -/
def rdfstoreInsert (now : Bytes) (me : Store) (statement : Statement) (givenContext : Option Resource) :
    Option (Int × Frame) :=
  let f : Frame := ⟨me, statement, givenContext⟩
  match checkArgs statement givenContext with
  | none => some (-1, f)
  | some a =>
    let context := effectiveContext me statement givenContext
    let hc := rdfstoreDigestGetStatementHashCode ext statement context
    let f := f.cacheStatementHash hc
    if rdfstoreFlatStoreExists me.statements (hashKey hc) then some (1, f)
    else
      let counter := me.counter + 1
      -- too many records: the counter is decremented again
      if maxRecords < counter.toNat then some (-1, { f with me := { me with counter := counter - 1 } })
      else
        let me := { me with counter }
        -- the counter starts from zero anyway
        let stId := (counter - 1).toNat
        -- this way out leaves the counter incremented
        if parseTypeMismatch a.object then some (-1, { f with me })
        else
          match insertTables ext me a statement context stId with
          | none => none
          | some me =>
            let f := { f with me }.cacheNodeHashes ext
            let me := { f.me with
              statements := rdfstoreFlatStoreStore f.me.statements (hashKey hc) (packInt stId)
              lastModified := now }
            some (0, { f with me })

/-! ## Remove -/

def removeOpt (t : Index) (stId : Nat) (me : Store) (key : Option Bytes) : Except Exit Store :=
  match key with
  | none => .ok me
  | some key => indexRemove ext .compressed me t key stId

def orAbort {α : Type} (x : Option α) : Except Exit α :=
  match x with
  | none => .error .abort
  | some x => .ok x

def removeLiteral (me : Store) (l : Literal) (stId : Nat) : Except Exit Store := do
  let (errno, keys) := literalWindexKeys ext me.freetext me.errno l
  let me ← orAbort (keys.foldlM (fun me k => windexRemove ext me k.bytes stId) { me with errno })
  let me ← removeOpt ext .languages stId me (languageKey ext l)
  let me ← removeOpt ext .datatypes stId me (datatypeKey l)
  let (errno, date) ← orAbort (dateKey ext me.errno l)
  let me ← removeOpt ext .xsdDate stId { me with errno } date
  let (errno, lval) := integerKey ext me.errno l
  let me ← removeOpt ext .xsdInteger stId { me with errno } lval
  let (errno, dval) := doubleKey ext me.errno l lval.isSome
  removeOpt ext .xsdDouble stId { me with errno } dval

def removeObjectTables (me : Store) (o : Node) (stId : Nat) : Except Exit Store :=
  match o with
  | .resource _ => .ok me
  | .literal l => removeLiteral ext me l stId

/-- The adjacency tables, then the literal tables. -/
def removeTables (me : Store) (a : Args) (context : Option Resource) (stId : Nat) :
    Except Exit Store := do
  let me ← indexRemove ext .plain me .subjects (nodeKey ext (.resource a.subject)) stId
  let me ← indexRemove ext .plain me .predicates (nodeKey ext (.resource a.predicate)) stId
  let me ← indexRemove ext .plain me .objects (nodeKey ext a.object) stId
  let me ← removeOpt ext .contexts stId me (context.map fun c => nodeKey ext (.resource c))
  removeObjectTables ext me a.object stId

/-- `rdfstore_remove` at the time `now`. -/
def rdfstoreRemove (now : Bytes) (me : Store) (statement : Statement) (givenContext : Option Resource) :
    Option (Int × Frame) :=
  let f : Frame := ⟨me, statement, givenContext⟩
  match checkArgs statement givenContext with
  | none => some (-1, f)
  | some a =>
    let context := effectiveContext me statement givenContext
    let hc := rdfstoreDigestGetStatementHashCode ext statement context
    let f := f.cacheStatementHash hc
    match rdfstoreFlatStoreFetch me.statements (hashKey hc) with
    | none => some (1, f)
    | some data =>
      let stId := unpackInt data
      match rdfstoreFlatStoreDelete me.nodes (packInt stId) with
      | none => some (1, f)
      | some nodes =>
        let f := { f with me := { me with nodes } }.cacheNodeHashes ext
        match removeTables ext f.me a context stId with
        | .error .abort => none
        | .error (.ret status me) => some (status, { f with me })
        | .ok me =>
          let me := { me with counterRemoved := me.counterRemoved + 1 }
          match rdfstoreFlatStoreDelete me.statements (hashKey hc) with
          | none => some (1, { f with me })
          | some statements => some (0, { f with me := { me with statements, lastModified := now } })

/-! ## Contains, size and the default context -/

/-- `rdfstore_contains`: 0 for a stored statement.  Only the given context and the statement's
own are looked at. -/
def rdfstoreContains (me : Store) (statement : Statement) (givenContext : Option Resource) :
    Int × Frame :=
  let f : Frame := ⟨me, statement, givenContext⟩
  match checkArgs statement givenContext with
  | none => (-1, f)
  | some _ =>
    let context := givenContext.or statement.context
    let hc := rdfstoreDigestGetStatementHashCode ext statement context
    let f := f.cacheStatementHash hc
    match rdfstoreFlatStoreFetch me.statements (hashKey hc) with
    | none => (1, f)
    | some _ => (0, f)

end

/-- `rdfstore_size` -/
def rdfstoreSize (me : Store) : UInt32 := me.counter - me.counterRemoved

/-- `rdfstore_is_empty`: 0 for an empty store. -/
def rdfstoreIsEmpty (me : Store) : Int := if 0 < rdfstoreSize me then 1 else 0

/-- `rdfstore_set_context`: the context is copied, and only if there is none yet. -/
def rdfstoreSetContext (me : Store) (givenContext : Option Resource) : Int × Store :=
  match me.context, givenContext with
  | none, some c =>
    (0, { me with context := some ⟨some (c.identifier.getD ⟨[], nil_fits⟩), c.bnode, 0⟩ })
  | _, _ => (1, me)

/-- `rdfstore_reset_context` -/
def rdfstoreResetContext (me : Store) : Int × Store :=
  match me.context with
  | some _ => (0, { me with context := none })
  | none => (1, me)

end RdfStore
