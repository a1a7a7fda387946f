import Mathlib.Data.List.TakeWhile
import RdfStore.Identity
import RdfStore.Concrete
import RdfStore.Search

/-!
# The record of a statement, written and read back

`rdfstore_insert` writes a statement to the nodes table as seven lengths, a mask
and the fields one after the other (`statementRecord`);
`rdfstore_iterator_fetch_statement` cuts the fields out again and rebuilds types
from the mask.  Reified is not among what it rebuilds, the mask's bit 32 is never
looked at, and the parse type of a literal is guessed from as many bytes of the
XMLLiteral URI as the datatype has.

    fetchRecord (statementRecord a st context) = some (st.fetched …)   (fetchRecord_statementRecord)
    the statement comes back ↔ it is not reified and its datatype is
      no proper prefix of the XMLLiteral URI                            (fetchStatement_iff)
-/

namespace RdfStore

open ByteMem

/-! ## Building a statement -/

/-- `%02X` -/
def hexDigit (n : UInt8) : UInt8 := if n < 10 then 48 + n else 55 + n

def hexBytes (l : Bytes) : Bytes := l.flatMap fun c => [hexDigit (c / 16), hexDigit (c % 16)]

theorem length_hexBytes (l : Bytes) : (hexBytes l).length = 2 * l.length := by
  induction l with
  | nil => rfl
  | cons c l ih =>
    rw [hexBytes, List.flatMap_cons, List.length_append, ← hexBytes, ih]
    simp only [List.length_cons, List.length_nil]
    omega

/-- The label of a statement: the static buffer up to the length that is given back, which counts
ten bytes for the name of the digest. -/
def digestLabel (dd : Digest) : Bytes :=
  ascii "urn:rdf:SHA-1-" ++ hexBytes dd.toList ++ List.replicate 5 0

theorem length_digestLabel (dd : Digest) : (digestLabel dd).length = 59 := by
  rw [digestLabel, List.length_append, List.length_append, length_hexBytes, List.length_replicate,
    Vector.length_toList]
  rfl

theorem digestLabel_fits (dd : Digest) : (digestLabel dd).length < 2 ^ 31 := by
  rw [length_digestLabel]
  decide

section

variable (ext : Externals)

/-- `rdfstore_statement_get_label` -/
def rdfstoreStatementGetLabel (st : Statement) : Option CBuf :=
  match st.node with
  | some node => node.identifier
  | none => (rdfstoreDigestGetStatementDigest ext st none).map fun dd => ⟨digestLabel dd, digestLabel_fits dd⟩

/-- `rdfstore_statement_new` -/
def rdfstoreStatementNew (s p : Option Resource) (o : Option Node) (c node : Option Resource)
    (isreified : Int) : Option Statement :=
  match s, p, o with
  | some s, some p, some o =>
    let st : Statement := ⟨some s, some p, some o, c, none, 0, decide (isreified ≠ 0)⟩
    match node with
    | some node =>
      -- a statement has an identifier only if it is reified
      if st.isreified then some { st with node := some node } else none
    | none =>
      if st.isreified then
        match rdfstoreStatementGetLabel ext st with
        | some label => (rdfstoreResourceNew (some label) 0).map fun node => { st with node := some node }
        | none => some st
      else some st
  | _, _, _ => none

end

/-! ## Reading a record -/

/-- The next `length` bytes; `malloc` has no room for a negative length. -/
def takeField (p : Bytes) (length : Nat) : Option (CBuf × Bytes) :=
  if h : (p.take length).length < 2 ^ 31 then some (⟨p.take length, h⟩, p.drop length) else none

theorem CBuf.cstr_fits (b : CBuf) : (cstr b.bytes).length < 2 ^ 31 :=
  Nat.lt_of_le_of_lt (List.takeWhile_prefix _).length_le b.fits

/-- A buffer that a NUL was put behind, as a string. -/
def CBuf.toCString (b : CBuf) : CString := ⟨cstr b.bytes, not_mem_cstr b.bytes, b.cstr_fits⟩

/-- `strncmp(p, q, n) == 0` -/
def strncmpEq (p q : Bytes) : Nat → Bool
  | 0 => true
  | n + 1 =>
    if p.headD 0 ≠ q.headD 0 then false
    else if p.headD 0 = 0 then true
    else strncmpEq p.tail q.tail n

/-- `mask & bit` -/
def hasFlag (mask bit : UInt8) : Bool := mask &&& bit ≠ 0

/-- The object of a record from `p` on. -/
def fetchObject (mask : UInt8) (length lang dt : Nat) (p : Bytes) : Option (Node × Bytes) := do
  let (string, p) ← takeField p length
  if hasFlag mask 1 then do
    let (langBytes, p) ← takeField p lang
    let (dtBytes, q) ← takeField p dt
    some (.literal {
      string := some string
      parseType := if dt ≠ 0 ∧ strncmpEq p xmlLiteralUri dt then .literal else .normal
      lang := if lang ≠ 0 then langBytes.toCString else CString.empty
      dataType := if dt ≠ 0 then some dtBytes.toCString else none
      hashcode := 0 }, q)
  else some (.resource ⟨some string, hasFlag mask 8, 0⟩, p)

/-- The context or the node of a record from `p` on, NULL when its length is 0. -/
def fetchOptional (bnode : Bool) (length : Nat) (p : Bytes) : Option (Option Resource × Bytes) := do
  let (identifier, q) ← takeField p length
  if length ≠ 0 then some (some ⟨some identifier, bnode, 0⟩, q) else some (none, p)

/-- The statement in a record. -/
def fetchRecord (data : Bytes) : Option Statement := do
  let length (k : Nat) : Nat := unpackInt (data.drop (4 * k))
  let mask := (data.drop 28).headD 0
  let (s, p) ← takeField (data.drop 29) (length 0)
  let (pr, p) ← takeField p (length 1)
  let (object, p) ← fetchObject mask (length 2) (length 3) (length 4) p
  let (context, p) ← fetchOptional (hasFlag mask 16) (length 5) p
  let (node, _) ← fetchOptional false (length 6) p
  some {
    subject := some ⟨some s, hasFlag mask 2, 0⟩
    predicate := some ⟨some pr, hasFlag mask 4, 0⟩
    object := some object
    context
    node
    hashcode := 0
    -- expensive to check this in the database
    isreified := false }

/-- `rdfstore_iterator_fetch_statement` at the position `pos`; `none` is NULL. -/
def rdfstoreIteratorFetchStatement (it : Iterator) (store : Store) (pos : Nat) : Option Statement :=
  if it.size = 0 then none
  else (rdfstoreFlatStoreFetch store.nodes (packInt pos)).bind fetchRecord

/-! ## What a record comes back as -/

def Resource.fetched (r : Resource) : Resource := ⟨some ⟨r.bytes, r.bytes_length_lt⟩, r.bnode, 0⟩

def Literal.fetched (l : Literal) : Literal where
  string := some ⟨l.bytes, l.bytes_length_lt⟩
  parseType := if l.dtBytes ≠ [] ∧ l.dtBytes <+: xmlLiteralUri then .literal else .normal
  lang := l.lang
  dataType := CString.nonEmpty l.dataType
  hashcode := 0

def Node.fetched : Node → Node
  | .resource r => .resource r.fetched
  | .literal l => .literal l.fetched

/-- A pointer to a resource without bytes comes back as NULL. -/
def fetchedOptional (r : Option Resource) : Option Resource :=
  (r.filter (·.bytes ≠ [])).map Resource.fetched

theorem takeField_append {l : Bytes} (hl : l.length < 2 ^ 31) (rest : Bytes) :
    takeField (l ++ rest) l.length = some (⟨l, hl⟩, rest) := by
  simp only [takeField, List.take_left, List.drop_left]
  rw [dif_pos hl]

theorem CString.toCString (s : CString) (h : s.bytes.length < 2 ^ 31) : CBuf.toCString ⟨s.bytes, h⟩ = s :=
  CString.ext (cstr_of_not_mem s.noNul)

/-- Up to a length within the first string the comparison asks for a prefix. -/
theorem strncmpEq_iff {p : Bytes} (hp : 0 ∉ p) (rest q : Bytes) :
    strncmpEq (p ++ rest) q p.length = true ↔ p <+: q := by
  induction p generalizing q with
  | nil => simp [strncmpEq]
  | cons c p ih =>
    have hc : c ≠ 0 := fun h => hp (h ▸ List.mem_cons_self)
    simp only [List.length_cons, List.cons_append, strncmpEq, List.headD_cons, List.tail_cons]
    cases q with
    | nil => simp [hc]
    | cons d q =>
      by_cases hcd : c = d
      · subst hcd
        simp [hc, ih fun h => hp (List.mem_cons_of_mem _ h)]
      · simp [hcd]

/-- Each bit of the mask says one thing. -/
theorem recordMask_bits (a : Args) (context : Option Resource) (isreified : Bool) :
    hasFlag (recordMask a context isreified) 1 = a.object.isLiteral ∧
      hasFlag (recordMask a context isreified) 2 = a.subject.bnode ∧
      hasFlag (recordMask a context isreified) 4 = a.predicate.bnode ∧
      hasFlag (recordMask a context isreified) 8 = a.object.isBnode ∧
      hasFlag (recordMask a context isreified) 16 = context.any (·.bnode) := by
  unfold recordMask
  generalize a.object.isLiteral = b₀, a.subject.bnode = b₁, a.predicate.bnode = b₂,
    a.object.isBnode = b₃, context.any (·.bnode) = b₄
  revert b₀ b₁ b₂ b₃ b₄ isreified
  decide

theorem optBytes_length_lt (r : Option Resource) : (optBytes r).length < 2 ^ 31 := by
  cases r with
  | none => exact nil_fits
  | some c => exact c.bytes_length_lt

theorem fetchOptional_append (r : Option Resource) (bnode : Bool) (rest : Bytes) :
    fetchOptional bnode (optBytes r).length (optBytes r ++ rest) =
      some ((fetchedOptional r).map fun c => { c with bnode }, rest) := by
  simp only [fetchOptional, takeField_append (optBytes_length_lt r), Option.bind_eq_bind, Option.bind_some]
  split
  · next hlen =>
    cases r with
    | none => exact absurd rfl hlen
    | some c =>
      have hne : c.bytes ≠ [] := fun h => hlen (congrArg List.length h)
      simp [fetchedOptional, hne, Resource.fetched, optBytes]
  · next hlen =>
    have hnil : optBytes r = [] := List.length_eq_zero_iff.1 (not_not.1 hlen)
    rw [hnil, List.nil_append]
    cases r with
    | none => rfl
    | some c =>
      have hc : c.bytes = [] := hnil
      simp [fetchedOptional, hc]

theorem Node.bytes_length_lt (n : Node) : n.bytes.length < 2 ^ 31 := by
  cases n with
  | resource r => exact r.bytes_length_lt
  | literal l => exact l.bytes_length_lt

theorem Node.langBytes_length_lt (n : Node) : n.langBytes.length < 2 ^ 31 := by
  cases n with
  | resource _ => exact nil_fits
  | literal l => exact l.lang.fits

theorem Node.dtBytes_length_lt (n : Node) : n.dtBytes.length < 2 ^ 31 := by
  cases n with
  | resource _ => exact nil_fits
  | literal l => exact l.dtBytes_length_lt

theorem fetched_lang (s : CString) (h : s.bytes.length < 2 ^ 31) :
    (if s.bytes.length ≠ 0 then CBuf.toCString ⟨s.bytes, h⟩ else CString.empty) = s := by
  split
  · exact s.toCString h
  · next hlen => exact CString.ext (List.length_eq_zero_iff.1 (not_not.1 hlen)).symm

theorem fetched_dataType (l : Literal) (h : l.dtBytes.length < 2 ^ 31) :
    (if l.dtBytes.length ≠ 0 then some (CBuf.toCString ⟨l.dtBytes, h⟩) else none) =
      CString.nonEmpty l.dataType := by
  obtain ⟨string, parseType, lang, dataType, hashcode⟩ := l
  cases dataType with
  | none => rfl
  | some d =>
    have hd : CBuf.toCString ⟨d.bytes, h⟩ = d := d.toCString h
    show (if d.bytes.length ≠ 0 then some (CBuf.toCString ⟨d.bytes, h⟩) else none) =
      (some d).filter fun d => decide (d.bytes.length > 0)
    rw [hd, Option.filter_some]
    by_cases hlen : d.bytes.length = 0
    · rw [if_neg (not_not.2 hlen), if_neg (by simp [hlen])]
    · rw [if_pos hlen, if_pos (decide_eq_true (Nat.pos_of_ne_zero hlen))]

theorem Literal.dtBytes_noNul (l : Literal) : 0 ∉ l.dtBytes := by
  unfold Literal.dtBytes
  cases l.dataType with
  | none => exact List.not_mem_nil
  | some d => exact d.noNul

theorem fetchObject_append (a : Args) (context : Option Resource) (isreified : Bool) (rest : Bytes) :
    fetchObject (recordMask a context isreified) a.object.bytes.length a.object.langBytes.length
        a.object.dtBytes.length (a.object.bytes ++ a.object.langBytes ++ a.object.dtBytes ++ rest) =
      some (a.object.fetched, rest) := by
  obtain ⟨hliteral, -, -, hbnode, -⟩ := recordMask_bits a context isreified
  cases ho : a.object with
  | resource r =>
    rw [ho] at hliteral hbnode
    have hfits : (Node.resource r).bytes.length < 2 ^ 31 := r.bytes_length_lt
    simp only [fetchObject, List.append_assoc, takeField_append hfits, Option.bind_eq_bind, Option.bind_some]
    rw [hliteral, hbnode]
    rfl
  | literal l =>
    rw [ho] at hliteral
    have hstring : (Node.literal l).bytes.length < 2 ^ 31 := l.bytes_length_lt
    have hlang : (Node.literal l).langBytes.length < 2 ^ 31 := l.lang.fits
    have hdt : (Node.literal l).dtBytes.length < 2 ^ 31 := l.dtBytes_length_lt
    have hparse : ((Node.literal l).dtBytes.length ≠ 0 ∧
        strncmpEq ((Node.literal l).dtBytes ++ rest) xmlLiteralUri (Node.literal l).dtBytes.length = true) ↔
        l.dtBytes ≠ [] ∧ l.dtBytes <+: xmlLiteralUri :=
      and_congr (not_congr List.length_eq_zero_iff) (strncmpEq_iff l.dtBytes_noNul rest xmlLiteralUri)
    simp only [fetchObject, List.append_assoc, takeField_append hstring, takeField_append hlang,
      takeField_append hdt, Option.bind_eq_bind, Option.bind_some]
    rw [hliteral, Node.isLiteral, if_pos rfl]
    simp only [hparse]
    have hl : (if (Node.literal l).langBytes.length ≠ 0 then
        CBuf.toCString ⟨(Node.literal l).langBytes, hlang⟩ else CString.empty) = l.lang := fetched_lang l.lang hlang
    have hd : (if (Node.literal l).dtBytes.length ≠ 0 then
        some (CBuf.toCString ⟨(Node.literal l).dtBytes, hdt⟩) else none) = CString.nonEmpty l.dataType :=
      fetched_dataType l hdt
    rw [hl, hd]
    rfl

/-- What a record comes back as, for every statement. -/
def fetchedStatement (a : Args) (st : Statement) (context : Option Resource) : Statement where
  subject := some a.subject.fetched
  predicate := some a.predicate.fetched
  object := some a.object.fetched
  context := fetchedOptional context
  node := (fetchedOptional st.node).map fun node => { node with bnode := false }
  hashcode := 0
  isreified := false

theorem drop_header (ls : List Nat) (rest : Bytes) :
    (ls.flatMap packInt ++ rest).drop (4 * ls.length) = rest := by
  induction ls with
  | nil => rfl
  | cons l ls ih =>
    rw [List.flatMap_cons, List.append_assoc, List.length_cons, Nat.mul_succ, Nat.add_comm, ← List.drop_drop]
    exact ih

/-- The lengths of a record, read back one by one. -/
theorem unpackInt_header {ls : List Nat} (h : ∀ l ∈ ls, l < 2 ^ 31) (rest : Bytes) {k : Nat} (hk : k < ls.length) :
    unpackInt ((ls.flatMap packInt ++ rest).drop (4 * k)) = ls[k] := by
  induction ls generalizing k with
  | nil => exact absurd hk (Nat.not_lt_zero k)
  | cons l ls ih =>
    rw [List.flatMap_cons, List.append_assoc]
    cases k with
    | zero =>
      have hl : l < 2 ^ 31 := h l List.mem_cons_self
      rw [Nat.mul_zero, List.drop_zero, unpackInt_packInt_append]
      exact Nat.mod_eq_of_lt (by omega)
    | succ k =>
      rw [Nat.mul_succ, Nat.add_comm, ← List.drop_drop]
      exact ih (fun l hl => h l (List.mem_cons_of_mem _ hl)) (Nat.lt_of_succ_lt_succ hk)

/-- The seven lengths of a record. -/
def recordLengths (a : Args) (st : Statement) (context : Option Resource) : List Nat :=
  [a.subject.bytes.length, a.predicate.bytes.length, a.object.bytes.length, a.object.langBytes.length,
    a.object.dtBytes.length, (optBytes context).length, (optBytes st.node).length]

theorem recordLengths_lt (a : Args) (st : Statement) (context : Option Resource) :
    ∀ l ∈ recordLengths a st context, l < 2 ^ 31 := by
  simp only [recordLengths, List.mem_cons, List.not_mem_nil, or_false]
  rintro l (rfl | rfl | rfl | rfl | rfl | rfl | rfl)
  · exact a.subject.bytes_length_lt
  · exact a.predicate.bytes_length_lt
  · exact a.object.bytes_length_lt
  · exact a.object.langBytes_length_lt
  · exact a.object.dtBytes_length_lt
  · exact optBytes_length_lt context
  · exact optBytes_length_lt st.node

theorem statementRecord_eq (a : Args) (st : Statement) (context : Option Resource) :
    statementRecord a st context = (recordLengths a st context).flatMap packInt ++
      (recordMask a context st.isreified :: (a.subject.bytes ++ (a.predicate.bytes ++
        (a.object.bytes ++ a.object.langBytes ++ a.object.dtBytes ++
          (optBytes context ++ (optBytes st.node ++ [0])))))) := by
  simp only [statementRecord, recordLengths, List.flatMap_cons, List.flatMap_nil, List.append_assoc,
    List.cons_append, List.nil_append]

theorem fetchedOptional_bnode (r : Option Resource) :
    (fetchedOptional r).map (fun c => { c with bnode := r.any (·.bnode) }) = fetchedOptional r := by
  cases r with
  | none => rfl
  | some c =>
    rw [fetchedOptional, Option.filter_some]
    split <;> rfl

theorem fetchRecord_statementRecord (a : Args) (st : Statement) (context : Option Resource) :
    fetchRecord (statementRecord a st context) = some (fetchedStatement a st context) := by
  obtain ⟨-, hs, hp, -, hc⟩ := recordMask_bits a context st.isreified
  rw [statementRecord_eq]
  generalize hrest : (recordMask a context st.isreified :: (a.subject.bytes ++ (a.predicate.bytes ++
    (a.object.bytes ++ a.object.langBytes ++ a.object.dtBytes ++
      (optBytes context ++ (optBytes st.node ++ [0])))))) = rest
  have hlength : ∀ k (hk : k < 7), unpackInt (((recordLengths a st context).flatMap packInt ++ rest).drop (4 * k)) =
      (recordLengths a st context)[k] := fun k hk => unpackInt_header (recordLengths_lt a st context) rest hk
  have hdrop : ((recordLengths a st context).flatMap packInt ++ rest).drop 28 = rest :=
    drop_header (recordLengths a st context) rest
  have hfields : ((recordLengths a st context).flatMap packInt ++ rest).drop 29 = rest.tail := by
    rw [← List.drop_one, ← hdrop, List.drop_drop]
    rw [hdrop]
  unfold fetchRecord
  simp only [hlength 0 (by decide), hlength 1 (by decide), hlength 2 (by decide), hlength 3 (by decide),
    hlength 4 (by decide), hlength 5 (by decide), hlength 6 (by decide), hdrop, hfields]
  subst hrest
  simp only [recordLengths, List.getElem_cons_zero, List.getElem_cons_succ, List.headD_cons, List.tail_cons,
    takeField_append a.subject.bytes_length_lt, takeField_append a.predicate.bytes_length_lt, fetchObject_append,
    fetchOptional_append, Option.bind_eq_bind, Option.bind_some]
  rw [hs, hp, hc, fetchedOptional_bnode]
  rfl

/-! ## The statement that was inserted -/

/-- A literal in full: bytes, xml:lang, datatype and parse type. -/
inductive NodeFields
  | resource (r : ResourceContent)
  | literal (bytes lang dataType : Bytes) (parseType : ParseType)
  deriving DecidableEq

def Node.fields : Node → NodeFields
  | .resource r => .resource r.content
  | .literal l => .literal l.bytes l.lang.bytes l.dtBytes l.parseType

structure StatementFields where
  subject : Option ResourceContent
  predicate : Option ResourceContent
  object : Option NodeFields
  context : Option ResourceContent
  node : Option ResourceContent
  isreified : Bool
  deriving DecidableEq

/-- All there is to a statement in a context, the cached hash codes left out. -/
def Statement.fields (st : Statement) (context : Option Resource) : StatementFields where
  subject := st.subject.map Resource.content
  predicate := st.predicate.map Resource.content
  object := st.object.map Node.fields
  context := context.map Resource.content
  node := st.node.map Resource.content
  isreified := st.isreified

/-- Made by `rdfstore_resource_new`, whatever hash code was cached since. -/
def Resource.Built (r : Resource) : Prop :=
  ∃ identifier type r₀, rdfstoreResourceNew identifier type = some r₀ ∧ r = { r₀ with hashcode := r.hashcode }

/-- Made by `rdfstore_literal_new`, whatever hash code was cached since. -/
def Literal.Built (l : Literal) : Prop :=
  ∃ string parseType lang dt l₀, rdfstoreLiteralNew string parseType lang dt = some l₀ ∧
    l = { l₀ with hashcode := l.hashcode }

def Node.Built : Node → Prop
  | .resource r => r.Built
  | .literal l => l.Built

theorem Resource.Built.fetched {r : Resource} (h : r.Built) : r.bytes ≠ [] ∧ r.fetched.content = r.content := by
  obtain ⟨identifier, type, r₀, hnew, hr⟩ := h
  unfold rdfstoreResourceNew at hnew
  split at hnew
  · cases hnew
  · obtain ⟨id, hid, rfl⟩ := Option.map_eq_some_iff.1 hnew
    have hpos := (Option.filter_eq_some_iff.1 hid).2
    rw [hr]
    refine ⟨fun hnil => ?_, rfl⟩
    have hnil : id.bytes = [] := hnil
    simp [hnil] at hpos

theorem fetchedOptional_built {r : Option Resource} (h : ∀ c ∈ r, c.Built) :
    (fetchedOptional r).map Resource.content = r.map Resource.content := by
  cases r with
  | none => rfl
  | some c =>
    obtain ⟨hne, hcontent⟩ := (h c rfl).fetched
    rw [fetchedOptional, Option.filter_some, if_pos (by simpa using hne)]
    exact congrArg some hcontent

/-- The guess of the parse type is right. -/
def Node.ParseTypeKept : Node → Prop
  | .resource _ => True
  | .literal l => l.parseType = .normal → l.dtBytes ≠ [] → ¬ l.dtBytes <+: xmlLiteralUri

theorem Literal.fetched_dtBytes (l : Literal) : l.fetched.dtBytes = l.dtBytes := by
  unfold Literal.dtBytes Literal.fetched CString.nonEmpty
  cases l.dataType with
  | none => rfl
  | some d =>
    rw [Option.filter_some]
    by_cases hd : d.bytes = []
    · simp [hd]
    · rw [if_pos (decide_eq_true (List.length_pos_iff.2 hd))]

theorem Literal.Built.parseType {l : Literal} (h : l.Built) (hp : l.parseType = .literal) :
    l.dtBytes = xmlLiteralUri := by
  obtain ⟨string, parseType, lang, dt, l₀, hnew, hl⟩ := h
  unfold rdfstoreLiteralNew at hnew
  split at hnew
  · cases hnew
  split at hnew
  · cases hnew
  split at hnew
  · cases hnew
  cases hnew
  rw [hl] at hp ⊢
  by_cases hone : parseType = 1
  · simp only [Literal.dtBytes, hone, if_true]
    rfl
  · simp [hone] at hp

theorem Node.Built.fetched_iff {n : Node} (h : n.Built) : n.fetched.fields = n.fields ↔ n.ParseTypeKept := by
  cases n with
  | resource r =>
    have hcontent := (Resource.Built.fetched h).2
    exact iff_of_true (congrArg NodeFields.resource hcontent) trivial
  | literal l =>
    have hfields : (Node.literal l).fetched.fields = (Node.literal l).fields ↔ l.fetched.parseType = l.parseType := by
      show NodeFields.literal l.bytes l.lang.bytes l.fetched.dtBytes l.fetched.parseType =
        .literal l.bytes l.lang.bytes l.dtBytes l.parseType ↔ _
      rw [l.fetched_dtBytes, NodeFields.literal.injEq]
      simp only [true_and]
    have hguess : l.fetched.parseType =
        if l.dtBytes ≠ [] ∧ l.dtBytes <+: xmlLiteralUri then .literal else .normal := rfl
    rw [hfields, hguess, Node.ParseTypeKept]
    cases hp : l.parseType with
    | literal =>
      rw [Literal.Built.parseType h hp]
      simp [xmlLiteralUri, ascii]
    | normal =>
      split
      · next hguessed => simp [hguessed]
      · next hguessed => exact iff_of_true rfl fun _ hne hpre => hguessed ⟨hne, hpre⟩

section

variable {ext : Externals}

theorem rdfstoreStatementNew_cases {s p : Option Resource} {o : Option Node} {c node : Option Resource}
    {isreified : Int} {st : Statement} (h : rdfstoreStatementNew ext s p o c node isreified = some st) :
    st.subject = s ∧ st.predicate = p ∧ st.object = o ∧ st.context = c ∧
      st.isreified = decide (isreified ≠ 0) ∧ (isreified = 0 → st.node = none) := by
  unfold rdfstoreStatementNew at h
  split at h
  · next s p o =>
    simp only at h
    split at h
    · split at h
      · next hreified =>
        cases h
        exact ⟨rfl, rfl, rfl, rfl, rfl, fun h0 => absurd h0 (of_decide_eq_true hreified)⟩
      · cases h
    · split at h
      · next hreified =>
        have hne : isreified ≠ 0 := of_decide_eq_true hreified
        split at h
        · obtain ⟨_, -, rfl⟩ := Option.map_eq_some_iff.1 h
          exact ⟨rfl, rfl, rfl, rfl, rfl, fun h0 => absurd h0 hne⟩
        · cases h
          exact ⟨rfl, rfl, rfl, rfl, rfl, fun h0 => absurd h0 hne⟩
      · cases h
        exact ⟨rfl, rfl, rfl, rfl, rfl, fun _ => rfl⟩
  · cases h

/-- What an insert that answers 0 wrote to the nodes table. -/
theorem insert_fetchStatement {now : Bytes} {me : Store} {st : Statement} {given : Option Resource} {f : Frame}
    (h : rdfstoreInsert ext now me st given = some (0, f)) {it : Iterator} (hit : it.size ≠ 0) :
    ∃ a, checkArgs st given = some a ∧
      rdfstoreIteratorFetchStatement it f.me me.counter.toNat =
        some (fetchedStatement a st (effectiveContext me st given)) := by
  generalize hr : (0 : Int) = r at h
  generalize hme : f.me = me'
  have hcases := rdfstoreInsert_cases h
  rw [hme] at hcases
  cases hcases with
  | badArgs | present | full | mismatch => cases hr
  | stored a hargs _ _ _ me' htables =>
    refine ⟨a, hargs, ?_⟩
    have hnodes : (storedMe ext now me' st given (callHash ext me st given) me.counter.toNat).nodes =
        rdfstoreFlatStoreStore me.nodes (packInt me.counter.toNat)
          (statementRecord a st (effectiveContext me st given)) := (insertTables_sameRest htables).nodes
    rw [rdfstoreIteratorFetchStatement, if_neg hit, hnodes, fetch_store_same, Option.bind_some]
    exact fetchRecord_statementRecord a st _

/-- A statement comes back from its record in all its parts exactly if it is not reified and its
object keeps its parse type. -/
theorem fetchStatement_iff {s p : Resource} {o : Node} {c node : Option Resource} {isreified : Int}
    {st : Statement} (hs : s.Built) (hp : p.Built) (ho : o.Built) (hc : ∀ r ∈ c, r.Built)
    (hst : rdfstoreStatementNew ext (some s) (some p) (some o) c node isreified = some st)
    {me : Store} {given : Option Resource} (hdefault : ∀ r ∈ me.context, r.Built) (hgiven : ∀ r ∈ given, r.Built)
    {hc₀ : UInt32} {now : Bytes} {f : Frame}
    (hinsert : rdfstoreInsert ext now me { st with hashcode := hc₀ } given = some (0, f))
    {it : Iterator} (hit : it.size ≠ 0) :
    ((rdfstoreIteratorFetchStatement it f.me me.counter.toNat).map fun st' => st'.fields st'.context) =
        some (st.fields (effectiveContext me st given)) ↔
      isreified = 0 ∧ o.ParseTypeKept := by
  obtain ⟨hsubject, hpredicate, hobject, hcontext, hreified, hnode⟩ := rdfstoreStatementNew_cases hst
  obtain ⟨a, hargs, hfetch⟩ := insert_fetchStatement hinsert hit
  obtain ⟨has, hap, hao⟩ := checkArgs_eq_some hargs
  have has : s = a.subject := Option.some.inj (hsubject.symm.trans has)
  have hap : p = a.predicate := Option.some.inj (hpredicate.symm.trans hap)
  have hao : o = a.object := Option.some.inj (hobject.symm.trans hao)
  have heff : effectiveContext me { st with hashcode := hc₀ } given = effectiveContext me st given := rfl
  have hbuilt : ∀ r ∈ effectiveContext me st given, r.Built := by
    intro r hr
    unfold effectiveContext at hr
    rcases Option.or_eq_some_iff.1 hr with hr | ⟨-, hr⟩
    · rcases Option.or_eq_some_iff.1 hr with hr | ⟨-, hr⟩
      · exact hgiven r hr
      · exact hc r (hcontext ▸ hr)
    · exact hdefault r hr
  rw [hfetch, heff, Option.map_some, Option.some_inj]
  unfold Statement.fields fetchedStatement
  rw [StatementFields.mk.injEq, hsubject, hpredicate, hobject, hreified, has, hap, hao]
  simp only [Option.map_some, (has ▸ hs).fetched.2, (hap ▸ hp).fetched.2, fetchedOptional_built hbuilt, true_and,
    Option.some_inj, (hao ▸ ho).fetched_iff]
  constructor
  · rintro ⟨hkept, -, hflag⟩
    exact ⟨not_not.1 (of_decide_eq_false hflag.symm), hkept⟩
  · rintro ⟨h0, hkept⟩
    refine ⟨hkept, ?_, (decide_eq_false (not_not.2 h0)).symm⟩
    rw [hnode h0]
    rfl

end

/-! ## Examples -/

/-- An iterator over the first statement. -/
def firstStatement : Iterator := ⟨fun _ => 1, 1, 1⟩

theorem uri_built (c : UInt8) : (uri c).Built := ⟨some ⟨[c], _⟩, 0, uri c, rfl, rfl⟩

theorem plainLiteral_built (c : UInt8) : (plainLiteral c).Built :=
  ⟨some ⟨[c], _⟩, 0, none, none, plainLiteral c, rfl, rfl⟩

theorem fetch_after_insert {st : Statement}
    (h : (rdfstoreInsert asciiExternals [] (rdfstoreConnect false false []) st none).map (·.1) = some 0) :
    ∃ f a, rdfstoreInsert asciiExternals [] (rdfstoreConnect false false []) st none = some (0, f) ∧
      checkArgs st none = some a ∧ rdfstoreIteratorFetchStatement firstStatement f.me 0 =
        some (fetchedStatement a st (effectiveContext (rdfstoreConnect false false []) st none)) := by
  obtain ⟨⟨r, f⟩, hinsert, hr⟩ := Option.map_eq_some_iff.1 h
  have hr : r = 0 := hr
  subst hr
  have hit : firstStatement.size ≠ 0 := by decide
  obtain ⟨a, hargs, hfetch⟩ := insert_fetchStatement hinsert hit
  exact ⟨f, a, hinsert, hargs, hfetch⟩

theorem insert_plain : (rdfstoreInsert asciiExternals [] (rdfstoreConnect false false [])
    (triple (uri 97) (uri 98) (.literal (plainLiteral 99))) none).map (·.1) = some 0 := by decide

theorem fetchStatement_plain :
    ∃ f, rdfstoreInsert asciiExternals [] (rdfstoreConnect false false [])
        (triple (uri 97) (uri 98) (.literal (plainLiteral 99))) none = some (0, f) ∧
      (rdfstoreIteratorFetchStatement firstStatement f.me 0).map (fun st => st.fields st.context) =
        some ((triple (uri 97) (uri 98) (.literal (plainLiteral 99))).fields none) := by
  obtain ⟨f, -, hinsert, -, -⟩ := fetch_after_insert insert_plain
  have hobject : (Node.literal (plainLiteral 99)).Built := plainLiteral_built 99
  have hnew : rdfstoreStatementNew asciiExternals (some (uri 97)) (some (uri 98))
      (some (.literal (plainLiteral 99))) none none 0 =
        some (triple (uri 97) (uri 98) (.literal (plainLiteral 99))) := rfl
  have hnone : ∀ r ∈ (none : Option Resource), r.Built := fun _ h => by cases h
  have hit : firstStatement.size ≠ 0 := by decide
  exact ⟨f, hinsert, (fetchStatement_iff (uri_built 97) (uri_built 98) hobject hnone hnew hnone hnone hinsert
    hit).2 ⟨rfl, fun _ h => absurd rfl h⟩⟩

theorem stringC_fits : ([99] : Bytes).length < 2 ^ 31 := by decide

theorem dtH_noNul : (0 : UInt8) ∉ [104] := by decide

theorem dtH_fits : ([104] : Bytes).length < 2 ^ 31 := by decide

def stringC : CBuf := ⟨[99], stringC_fits⟩

/-- The datatype `h`, which the XMLLiteral URI begins with. -/
def dtH : CString := ⟨[104], dtH_noNul, dtH_fits⟩

/-- A reified statement comes back as one that is not, a literal with the datatype `h` as an XML
literal. -/
theorem fetchStatement_loses :
    (∃ st f, rdfstoreStatementNew asciiExternals (some (uri 97)) (some (uri 98)) (some (.resource (uri 99))) none
        none 1 = some st ∧
      rdfstoreInsert asciiExternals [] (rdfstoreConnect false false []) st none = some (0, f) ∧
      (rdfstoreIteratorFetchStatement firstStatement f.me 0).map (fun st => st.fields st.context) ≠
        some (st.fields none)) ∧
    ∃ l f, rdfstoreLiteralNew (some stringC) 0 none (some dtH) = some l ∧
      rdfstoreInsert asciiExternals [] (rdfstoreConnect false false [])
        (triple (uri 97) (uri 98) (.literal l)) none = some (0, f) ∧
      (rdfstoreIteratorFetchStatement firstStatement f.me 0).map (fun st => st.fields st.context) ≠
        some ((triple (uri 97) (uri 98) (.literal l)).fields none) := by
  constructor
  · have h : ((rdfstoreStatementNew asciiExternals (some (uri 97)) (some (uri 98)) (some (.resource (uri 99))) none
        none 1).bind fun st =>
        (rdfstoreInsert asciiExternals [] (rdfstoreConnect false false []) st none).map (·.1)) = some 0 := by
      decide
    obtain ⟨st, hst, hinsert⟩ := Option.bind_eq_some_iff.1 h
    obtain ⟨f, a, hinsert, -, hfetch⟩ := fetch_after_insert hinsert
    refine ⟨st, f, hst, hinsert, fun heq => ?_⟩
    rw [hfetch] at heq
    have hflag : false = st.isreified := congrArg StatementFields.isreified (Option.some.inj heq)
    obtain ⟨-, -, -, -, hreified, -⟩ := rdfstoreStatementNew_cases hst
    rw [hreified] at hflag
    cases hflag
  · have h : ((rdfstoreLiteralNew (some stringC) 0 none (some dtH)).bind fun l =>
        (rdfstoreInsert asciiExternals [] (rdfstoreConnect false false [])
          (triple (uri 97) (uri 98) (.literal l)) none).map (·.1)) = some 0 := by decide
    obtain ⟨l, hl, hinsert⟩ := Option.bind_eq_some_iff.1 h
    obtain ⟨f, a, hinsert, hargs, hfetch⟩ := fetch_after_insert hinsert
    refine ⟨l, f, hl, hinsert, ?_⟩
    cases hl
    cases hargs
    rw [hfetch]
    decide

end RdfStore
