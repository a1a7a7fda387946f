import RdfStore.Externals

/-!
# Digests and hash codes (`rdfstore_digest.c`)

A hash code is the first four bytes of a SHA-1 digest.  A node is digested from
its label and its kind, a literal with `unique` also from its language and
datatype; a statement from the digests of its components and of the context it
is asked in.  A hash code that is already cached is returned whatever is asked.
-/

namespace RdfStore

open ByteMem

section

variable (ext : Externals)

/-- `rdfstore_digest_crc64`: the first four bytes, most significant first. -/
def rdfstoreDigestCrc64 (dd : Digest) : UInt32 := (unpackInt dd.toList).toUInt32

/-- The bytes a resource is digested from: the identifier and the bNode flag. -/
def Resource.digestInput (r : Resource) : Option Bytes :=
  r.identifier.map fun id => id.bytes ++ [if r.bnode then 49 else 48]

/-- The datatype a literal is digested with: `parseType` 1 stands for the XMLLiteral datatype. -/
def Literal.digestDatatype (l : Literal) : Bytes :=
  match l.parseType with
  | .literal => xmlLiteralUri
  | .normal => l.dtBytes

/-- The bytes a literal is digested from: the quoted string, and with `unique` the language
and the datatype. -/
def Literal.digestInput (l : Literal) (unique : Bool) : Bytes :=
  [34] ++ l.bytes ++ [34] ++ if unique then l.lang.bytes ++ l.digestDatatype else []

def Node.digestInput (n : Node) (unique : Bool) : Option Bytes :=
  match n with
  | .resource r => r.digestInput
  | .literal l => some (l.digestInput unique)

/-- `rdfstore_digest_get_node_digest`; `none` is the answer -1. -/
def rdfstoreDigestGetNodeDigest (n : Node) (unique : Bool) : Option Digest :=
  (n.digestInput unique).map ext.sha1

/-- The hash code of a digest, 0 when there is none. -/
def hashOf (dd : Option Digest) : UInt32 :=
  match dd with
  | none => 0
  | some dd => rdfstoreDigestCrc64 dd

/-- `rdfstore_digest_get_node_hashCode` -/
def rdfstoreDigestGetNodeHashCode (n : Node) (unique : Bool) : UInt32 :=
  if n.hashcode ≠ 0 then n.hashcode
  else hashOf (rdfstoreDigestGetNodeDigest ext n unique)

/-- The digest of a literal object goes in rotated by one byte. -/
def rotateDigest (dd : Bytes) : Bytes := dd.drop 1 ++ dd.take 1

/-- The bytes the object contributes. -/
def objectDigestBytes (object : Option Node) (ddo : Digest) : Bytes :=
  match object with
  | some (.literal _) => rotateDigest ddo.toList
  | _ => ddo.toList

/-- The digest of a node pointer that may be NULL. -/
def nodeDigestOf (n : Option Node) : Option Digest :=
  n.bind fun n => rdfstoreDigestGetNodeDigest ext n true

/-- The context a statement is digested in: the given one, else its own. -/
def Statement.digestContext (st : Statement) (givenContext : Option Resource) : Option Resource :=
  givenContext.or st.context

/-- The bytes a statement is digested from. -/
def statementDigestInput (st : Statement) (givenContext : Option Resource) : Option Bytes :=
  match nodeDigestOf ext (st.subject.map .resource), nodeDigestOf ext (st.predicate.map .resource),
      nodeDigestOf ext st.object with
  | some dds, some ddp, some ddo =>
    let spo := dds.toList ++ ddp.toList ++ objectDigestBytes st.object ddo
    match st.digestContext givenContext with
    | none => some spo
    | some c => (nodeDigestOf ext (some (.resource c))).map fun ddc => spo ++ ddc.toList
  | _, _, _ => none

/-- `rdfstore_digest_get_statement_digest` -/
def rdfstoreDigestGetStatementDigest (st : Statement) (givenContext : Option Resource) : Option Digest :=
  (statementDigestInput ext st givenContext).map ext.sha1

/-- `rdfstore_digest_get_statement_hashCode`; a cached hash code is returned whatever the context. -/
def rdfstoreDigestGetStatementHashCode (st : Statement) (givenContext : Option Resource) : UInt32 :=
  if st.hashcode ≠ 0 then st.hashcode
  else hashOf (rdfstoreDigestGetStatementDigest ext st givenContext)

/-! ## Hash codes from scratch -/

/-- The hash code of a resource, computed from its content. -/
def resourceHash (r : Resource) : UInt32 :=
  hashOf (rdfstoreDigestGetNodeDigest ext (.resource r) false)

/-- The hash code of an object without language and datatype, computed from its content. -/
def objectHash (n : Node) : UInt32 := hashOf (rdfstoreDigestGetNodeDigest ext n false)

/-- The hash code of a statement in a context, computed from its content. -/
def statementHash (st : Statement) (context : Option Resource) : UInt32 :=
  hashOf (rdfstoreDigestGetStatementDigest ext st context)

/-- A cached hash code is the one its node's content has. -/
def Node.Fresh (n : Node) : Prop := n.hashcode = 0 ∨ n.hashcode = objectHash ext n

def Resource.Fresh (r : Resource) : Prop := r.hashcode = 0 ∨ r.hashcode = resourceHash ext r

theorem Node.Fresh.hashCode_eq {n : Node} (h : n.Fresh ext) :
    rdfstoreDigestGetNodeHashCode ext n false = objectHash ext n := by
  unfold rdfstoreDigestGetNodeHashCode
  rcases h with h | h
  · rw [if_neg (by simpa using h)]; rfl
  · split
    · exact h
    · rfl

theorem Resource.Fresh.hashCode_eq {r : Resource} (h : r.Fresh ext) :
    rdfstoreDigestGetNodeHashCode ext (.resource r) false = resourceHash ext r :=
  Node.Fresh.hashCode_eq ext (n := .resource r) h

end

end RdfStore
