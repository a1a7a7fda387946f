import RdfStore.Concrete
import RdfStore.SameDigest

/-!
# Equality of nodes (`rdfstore_node_equals`)

Two nodes of one type are compared through their digests.  Both digests come
from `rdfstore_node_get_digest`, which writes into one static buffer and hands
out a pointer to it: when they are compared the buffer holds the digest of the
second node, and it is compared with itself.  Only a node without an identifier
has no digest; then the labels are compared over the longer length.

    two nodes of one type that have digests are answered 1                    (equalsByDigest_of_hasDigest)
    the answer is right  ↔  the types differ or the nodes are the same        (rdfstoreNodeEquals_correct_iff)
-/

namespace RdfStore

open ByteMem

/-! ## The two functions -/

/-- `node->type`: 0 a URI, 1 a literal, 2 a bNode. -/
def Node.type : Node → Nat
  | .resource r => if r.bnode then 2 else 0
  | .literal _ => 1

/-- The bytes that may be read behind a label: the label and the NUL after it. -/
def readable (label : Option CBuf) : Bytes := (label.map fun b => b.bytes ++ [0]).getD []

/-- `memcmp(p, q, n) == 0`; without an answer when it reads past the end. -/
def memcmpEq (p q : Bytes) (n : Nat) : Option Bool :=
  if n ≤ p.length ∧ n ≤ q.length then some (decide (p.take n = q.take n)) else none

/-- A pointer into the static buffer of `rdfstore_node_get_digest`. -/
inductive DigestPointer
  | dd
  deriving DecidableEq

/-- What the pointer points to, in a given state of the static buffer. -/
def DigestPointer.read (dd : Digest) : DigestPointer → Bytes
  | .dd => dd.toList

/-- What a call of `rdfstore_node_get_digest` leaves: the static buffer, the answer (`none` is
NULL) and `*len`. -/
structure DigestCall where
  dd : Digest
  answer : Option DigestPointer
  len : Nat

section

variable (ext : Externals)

/-- `rdfstore_node_get_digest` -/
def rdfstoreNodeGetDigest (dd : Digest) (node : Option Node) : DigestCall :=
  match node with
  | none => ⟨dd, none, 0⟩
  | some n =>
    match rdfstoreDigestGetNodeDigest ext n true with
    | some d => ⟨d, some .dd, 20⟩
    | none => ⟨dd, none, 0⟩

/-- The comparison of the labels when there are not two digests; both nodes are of one type. -/
def compareLabels (node1 node2 : Node) : Option Bool :=
  match node1, node2 with
  | .literal l1, .literal l2 =>
    memcmpEq (readable l1.string) (readable l2.string) (max l1.bytes.length l2.bytes.length)
  | .resource r1, .resource r2 =>
    memcmpEq (readable r1.identifier) (readable r2.identifier) (max r1.bytes.length r2.bytes.length)
  | _, _ => some false

def answerOf (equal : Bool) : Int := if equal then 1 else 0

/-- What `rdfstore_node_equals` does with two nodes of one type. -/
def equalsByDigest (dd : Digest) (node1 node2 : Node) : Digest × Option Int :=
  let c1 := rdfstoreNodeGetDigest ext dd (some node1)
  match c1.answer with
  | none => (c1.dd, (compareLabels node1 node2).map answerOf)
  | some dd1 =>
    let c2 := rdfstoreNodeGetDigest ext c1.dd (some node2)
    match c2.answer with
    | none => (c2.dd, (compareLabels node1 node2).map answerOf)
    | some dd2 =>
      -- both pointers are read now, after the second call
      (c2.dd, (memcmpEq (dd1.read c2.dd) (dd2.read c2.dd) (max c1.len c2.len)).map answerOf)

/-- `rdfstore_node_equals`, with the static buffer before and after; without an answer when
`memcmp` reads past the end. -/
def rdfstoreNodeEquals (dd : Digest) (node1 node2 : Option Node) : Digest × Option Int :=
  match node1, node2 with
  | some n1, some n2 => if n1.type ≠ n2.type then (dd, some 0) else equalsByDigest ext dd n1 n2
  | _, _ => (dd, some 0)

end

/-! ## What equality is about -/

/-- The call answers 1 exactly for nodes of the same type and content. -/
def EqualsContent (ext : Externals) (dd : Digest) (a b : Node) : Prop :=
  ∃ answer, (rdfstoreNodeEquals ext dd (some a) (some b)).2 = some answer ∧
    (answer = 1 ↔ a.type = b.type ∧ a.identity = b.identity)

theorem type_resource_ne_literal {r : Resource} {l : Literal} :
    (Node.resource r).type ≠ (Node.literal l).type := by
  cases hr : r.bnode <;> simp [Node.type, hr]

section

variable {ext : Externals} {dd : Digest} {a b : Node}

/-! ## Two digests -/

/-- Every node has a digest but a resource without an identifier. -/
def Node.HasDigest : Node → Prop
  | .resource r => r.identifier ≠ none
  | .literal _ => True

theorem Node.HasDigest.digest (h : a.HasDigest) :
    ∃ d, rdfstoreDigestGetNodeDigest ext a true = some d := by
  cases a with
  | literal l => exact ⟨_, rfl⟩
  | resource r =>
    obtain ⟨id, hid⟩ := Option.ne_none_iff_exists'.1 h
    exact ⟨ext.sha1 (id.bytes ++ [if r.bnode then 49 else 48]), by
      simp [rdfstoreDigestGetNodeDigest, Node.digestInput, Resource.digestInput, hid]⟩

theorem memcmpEq_self {p : Bytes} {n : Nat} (h : n ≤ p.length) : memcmpEq p p n = some true := by
  unfold memcmpEq
  rw [if_pos ⟨h, h⟩, decide_eq_true rfl]

/-- Two digests are one buffer compared with itself. -/
theorem equalsByDigest_of_hasDigest (ha : a.HasDigest) (hb : b.HasDigest) :
    (equalsByDigest ext dd a b).2 = some 1 := by
  obtain ⟨da, hda⟩ := @Node.HasDigest.digest ext a ha
  obtain ⟨db, hdb⟩ := @Node.HasDigest.digest ext b hb
  have hlen : max 20 20 ≤ (DigestPointer.dd.read db).length := by
    show max 20 20 ≤ db.toList.length
    simp
  simp only [equalsByDigest, rdfstoreNodeGetDigest, hda, hdb, memcmpEq_self hlen]
  rfl

/-! ## A label that is missing -/

/-- Without an identifier on one side the labels are compared. -/
theorem equalsByDigest_of_no_identifier {r r' : Resource}
    (h : r.identifier = none ∨ r'.identifier = none) :
    (equalsByDigest ext dd (.resource r) (.resource r')).2 =
      (compareLabels (.resource r) (.resource r')).map answerOf := by
  have hnone {q : Resource} (hq : q.identifier = none) :
      rdfstoreDigestGetNodeDigest ext (.resource q) true = none := by
    simp [rdfstoreDigestGetNodeDigest, Node.digestInput, Resource.digestInput, hq]
  unfold equalsByDigest
  cases hr : rdfstoreDigestGetNodeDigest ext (.resource r) true with
  | none => simp only [rdfstoreNodeGetDigest, hr]
  | some d =>
    have hr' : r'.identifier = none := by
      refine h.resolve_left fun h0 => ?_
      rw [hnone h0] at hr
      cases hr
    simp only [rdfstoreNodeGetDigest, hr, hnone hr']

/-- `memcmp` over the longer length has an answer only if both labels are empty. -/
theorem compareLabels_of_no_identifier {r r' : Resource}
    (h : r.identifier = none ∨ r'.identifier = none) :
    compareLabels (.resource r) (.resource r') = if r.bytes = r'.bytes then some true else none := by
  have hempty {q : Resource} (hq : q.identifier = none) : q.bytes = [] ∧ readable q.identifier = [] := by
    simp [Resource.bytes, readable, hq]
  simp only [compareLabels, memcmpEq]
  by_cases hbytes : r.bytes = r'.bytes
  · have hr : r.bytes = [] := by
      rcases h with h | h
      · exact (hempty h).1
      · rw [hbytes]
        exact (hempty h).1
    rw [if_pos hbytes, ← hbytes, hr]
    simp
  · rw [if_neg hbytes, if_neg]
    rintro ⟨hle, hle'⟩
    rcases h with h | h
    · rw [(hempty h).2, (hempty h).1] at hle
      have hr' : r'.bytes = [] := List.eq_nil_of_length_eq_zero (by simpa using hle)
      exact hbytes (by rw [(hempty h).1, hr'])
    · rw [(hempty h).2, (hempty h).1] at hle'
      have hr : r.bytes = [] := List.eq_nil_of_length_eq_zero (by simpa using hle')
      exact hbytes (by rw [(hempty h).1, hr])

/-- Nodes of one type that have not two digests are resources, one without an identifier. -/
theorem no_identifier_of_not_hasDigest (ht : a.type = b.type) (h : ¬ (a.HasDigest ∧ b.HasDigest)) :
    ∃ r r', a = .resource r ∧ b = .resource r' ∧ (r.identifier = none ∨ r'.identifier = none) := by
  cases a with
  | literal l =>
    cases b with
    | literal l' => exact absurd ⟨trivial, trivial⟩ h
    | resource r' => exact absurd ht.symm type_resource_ne_literal
  | resource r =>
    cases b with
    | literal l' => exact absurd ht type_resource_ne_literal
    | resource r' =>
      refine ⟨r, r', rfl, rfl, ?_⟩
      by_contra hne
      push Not at hne
      exact h hne

/-! ## The answer -/

theorem rdfstoreNodeEquals_of_type_ne (h : a.type ≠ b.type) :
    (rdfstoreNodeEquals ext dd (some a) (some b)).2 = some 0 := by
  simp only [rdfstoreNodeEquals, if_pos h]

/-- Two nodes of one type: any answer is 1. -/
theorem rdfstoreNodeEquals_of_type_eq (ht : a.type = b.type) {answer : Int}
    (h : (rdfstoreNodeEquals ext dd (some a) (some b)).2 = some answer) : answer = 1 := by
  simp only [rdfstoreNodeEquals, if_neg (not_not.2 ht)] at h
  by_cases hd : a.HasDigest ∧ b.HasDigest
  · rw [equalsByDigest_of_hasDigest hd.1 hd.2] at h
    exact (Option.some.inj h).symm
  · obtain ⟨r, r', rfl, rfl, hid⟩ := no_identifier_of_not_hasDigest ht hd
    rw [equalsByDigest_of_no_identifier hid, compareLabels_of_no_identifier hid] at h
    split at h
    · exact (Option.some.inj h).symm
    · cases h

/-- The same node twice gets the answer 1. -/
theorem rdfstoreNodeEquals_of_identity_eq (ht : a.type = b.type) (h : a.identity = b.identity) :
    (rdfstoreNodeEquals ext dd (some a) (some b)).2 = some 1 := by
  simp only [rdfstoreNodeEquals, if_neg (not_not.2 ht)]
  by_cases hd : a.HasDigest ∧ b.HasDigest
  · exact equalsByDigest_of_hasDigest hd.1 hd.2
  · obtain ⟨r, r', rfl, rfl, hid⟩ := no_identifier_of_not_hasDigest ht hd
    have hcontent : r.content = r'.content := NodeIdentity.resource.inj h
    rw [equalsByDigest_of_no_identifier hid, compareLabels_of_no_identifier hid,
      if_pos (Resource.bytes_congr hcontent)]
    rfl

end

/-- The answer is right exactly for nodes of two types and for the same node twice. -/
theorem rdfstoreNodeEquals_correct_iff (ext : Externals) (dd : Digest) (a b : Node) :
    EqualsContent ext dd a b ↔ a.type ≠ b.type ∨ a.identity = b.identity := by
  constructor
  · rintro ⟨answer, hanswer, hiff⟩
    by_cases ht : a.type = b.type
    · exact Or.inr (hiff.1 (rdfstoreNodeEquals_of_type_eq ht hanswer)).2
    · exact Or.inl ht
  · intro h
    by_cases ht : a.type = b.type
    · have hsame : a.identity = b.identity := h.resolve_left (not_not.2 ht)
      exact ⟨1, rdfstoreNodeEquals_of_identity_eq ht hsame, fun _ => ⟨ht, hsame⟩, fun _ => rfl⟩
    · refine ⟨0, rdfstoreNodeEquals_of_type_ne ht, fun h0 => ?_, fun hsame => absurd hsame.1 ht⟩
      cases h0

/-- Two URIs of one byte each have two digests, and are equal. -/
theorem rdfstoreNodeEquals_different_uris :
    rdfstoreDigestGetNodeDigest asciiExternals (.resource (uri 97)) true ≠
        rdfstoreDigestGetNodeDigest asciiExternals (.resource (uri 98)) true ∧
      (rdfstoreNodeEquals asciiExternals (Sha1.sha1 []) (some (.resource (uri 97)))
        (some (.resource (uri 98)))).2 = some 1 ∧
      ¬ EqualsContent asciiExternals (Sha1.sha1 []) (.resource (uri 97)) (.resource (uri 98)) := by
  have hone : (rdfstoreNodeEquals asciiExternals (Sha1.sha1 []) (some (.resource (uri 97)))
      (some (.resource (uri 98)))).2 = some 1 := by
    decide +kernel
  refine ⟨by decide +kernel, hone, ?_⟩
  rintro ⟨answer, hanswer, hiff⟩
  rw [hone] at hanswer
  have hsame := (hiff.1 (Option.some.inj hanswer).symm).2
  revert hsame
  decide

end RdfStore
