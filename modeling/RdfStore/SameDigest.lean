import RdfStore.Identity
import RdfStore.Concrete
import Mathlib.Data.Set.Function

/-!
# Which nodes and statements share a digest

A digest is taken of the label followed by a kind byte, or of the quoted string
followed by language and datatype, with no lengths and no separators.  Where
SHA-1 has no collision, two nodes share a digest exactly when these bytes are
the same, and so in a few cases that `Node.Confused` lists.  A statement is
digested from the digests of its parts, so two statements share one only when
their objects do.

    digests agree only on the same node       ↔ ¬ n.Confused m            (node_digest_iff)
    digests agree only on the same statement  ↔ ¬ StatementsConfused …    (statement_digest_iff)
-/

namespace RdfStore

open ByteMem

/-! ## Identity -/

/-- What tells one node from another: kind and bytes, for a literal also language and
datatype. -/
inductive NodeIdentity
  | resource (r : ResourceContent)
  | literal (string lang datatype : Bytes)
  deriving DecidableEq

def Node.identity : Node → NodeIdentity
  | .resource r => .resource r.content
  | .literal l => .literal l.bytes l.lang.bytes l.dtBytes

/-- What tells one statement from another. -/
structure StatementIdentity where
  subject : Option ResourceContent
  predicate : Option ResourceContent
  object : Option NodeIdentity
  context : Option ResourceContent
  deriving DecidableEq

def statementIdentity (st : Statement) (given : Option Resource) : StatementIdentity where
  subject := st.subject.map Resource.content
  predicate := st.predicate.map Resource.content
  object := st.object.map Node.identity
  context := (st.digestContext given).map Resource.content

/-! ## Nodes that are digested from the same bytes -/

/-- The byte a resource's digest input ends with. -/
def Resource.kindByte (r : Resource) : UInt8 := if r.bnode then 49 else 48

/-- What follows the closing quote. -/
def Literal.tail (l : Literal) : Bytes := l.lang.bytes ++ l.digestDatatype

/-- The string of `m` is that of `l`, a quote and more; the tail of `l` repeats what is more,
the closing quote and the tail of `m`. -/
def Literal.QuoteInside (l m : Literal) : Prop :=
  ∃ t, m.bytes = l.bytes ++ 34 :: t ∧ l.tail = t ++ 34 :: m.tail

/-- Language and datatype are parted in two places of the same bytes. -/
def Literal.RunTogether (l m : Literal) : Prop :=
  l.bytes = m.bytes ∧ l.lang.bytes ≠ m.lang.bytes ∧ l.tail = m.tail

/-- Parse type 1 hides the datatype that was set. -/
def Literal.HiddenDatatype (l m : Literal) : Prop :=
  l.bytes = m.bytes ∧ l.lang.bytes = m.lang.bytes ∧ l.digestDatatype = m.digestDatatype ∧
    l.dtBytes ≠ m.dtBytes

/-- The identifier is the quoted string and a beginning of the tail, whose last byte is the
kind byte. -/
def Literal.LabelOf (l : Literal) (r : Resource) : Prop :=
  ∃ t, r.bytes = 34 :: l.bytes ++ 34 :: t ∧ l.tail = t ++ [r.kindByte]

/-- Two nodes that are not the same and are digested from the same bytes. -/
def Node.Confused : Node → Node → Prop
  | .literal l, .literal m =>
    l.QuoteInside m ∨ m.QuoteInside l ∨ l.RunTogether m ∨ l.HiddenDatatype m
  | .literal l, .resource r => l.LabelOf r
  | .resource r, .literal l => l.LabelOf r
  | .resource _, .resource _ => False

/-! ## Digest inputs -/

theorem append_quote_inj {s s' u u' : Bytes} (h : s ++ 34 :: u = s' ++ 34 :: u') :
    (s = s' ∧ u = u') ∨ (∃ t, s' = s ++ 34 :: t ∧ u = t ++ 34 :: u') ∨
      ∃ t, s = s' ++ 34 :: t ∧ u' = t ++ 34 :: u := by
  rcases List.append_eq_append_iff.mp h with ⟨a, hs, hu⟩ | ⟨a, hs, hu⟩
  · cases a with
    | nil =>
      simp only [List.nil_append, List.cons.injEq, true_and] at hu
      exact Or.inl ⟨by simpa using hs.symm, hu⟩
    | cons c t =>
      simp only [List.cons_append, List.cons.injEq] at hu
      obtain ⟨rfl, hu⟩ := hu
      exact Or.inr (Or.inl ⟨t, hs, hu⟩)
  · cases a with
    | nil =>
      simp only [List.nil_append, List.cons.injEq, true_and] at hu
      exact Or.inl ⟨by simpa using hs, hu.symm⟩
    | cons c t =>
      simp only [List.cons_append, List.cons.injEq] at hu
      obtain ⟨rfl, hu⟩ := hu
      exact Or.inr (Or.inr ⟨t, hs, hu⟩)

theorem Literal.digestInput_unique (l : Literal) :
    l.digestInput true = 34 :: (l.bytes ++ 34 :: l.tail) := by
  simp [Literal.digestInput, Literal.tail]

theorem Resource.digestInput_eq_some {r : Resource} {x : Bytes} :
    r.digestInput = some x ↔ r.identifier.isSome ∧ x = r.bytes ++ [r.kindByte] := by
  unfold Resource.digestInput Resource.bytes Resource.kindByte
  cases r.identifier with
  | none => simp
  | some id =>
    simp only [Option.map_some, Option.some.injEq, Option.isSome_some, Option.getD_some, true_and]
    exact eq_comm

theorem Resource.digestInput_inj {r r' : Resource} {x : Bytes} (h : r.digestInput = some x)
    (h' : r'.digestInput = some x) : r.content = r'.content := by
  rw [Resource.digestInput_eq_some] at h h'
  obtain ⟨hid, rfl⟩ := h
  obtain ⟨hid', heq⟩ := h'
  obtain ⟨hbytes, hkind⟩ := List.append_inj' heq rfl
  have hbnode : r.bnode = r'.bnode := by
    simp only [List.cons.injEq, and_true, Resource.kindByte] at hkind
    revert hkind
    cases r.bnode <;> cases r'.bnode <;> decide
  obtain ⟨id, hr⟩ := Option.isSome_iff_exists.mp hid
  obtain ⟨id', hr'⟩ := Option.isSome_iff_exists.mp hid'
  simp only [Resource.bytes, hr, hr', Option.map_some, Option.getD_some] at hbytes
  simp only [Resource.content, hr, hr', Option.map_some, hbytes, hbnode]

/-- Two literals are digested from the same bytes only if they are the same or confused. -/
theorem Literal.digestInput_eq_iff (l m : Literal) :
    l.digestInput true = m.digestInput true ↔
      (Node.literal l).identity = (Node.literal m).identity ∧ l.digestDatatype = m.digestDatatype ∨
        (Node.literal l).Confused (.literal m) := by
  rw [l.digestInput_unique, m.digestInput_unique, List.cons.injEq]
  constructor
  · rintro ⟨-, h⟩
    rcases append_quote_inj h with ⟨hs, hu⟩ | hm | hl
    · by_cases hlang : l.lang.bytes = m.lang.bytes
      · have hdt : l.digestDatatype = m.digestDatatype := by
          unfold Literal.tail at hu
          rw [hlang] at hu
          exact List.append_cancel_left hu
        by_cases hd : l.dtBytes = m.dtBytes
        · refine Or.inl ⟨?_, hdt⟩
          simp only [Node.identity, hs, hlang, hd]
        · exact Or.inr (Or.inr (Or.inr (Or.inr ⟨hs, hlang, hdt, hd⟩)))
      · exact Or.inr (Or.inr (Or.inr (Or.inl ⟨hs, hlang, hu⟩)))
    · exact Or.inr (Or.inl hm)
    · exact Or.inr (Or.inr (Or.inl hl))
  · rintro (⟨hid, hdt⟩ | ⟨t, hs, hu⟩ | ⟨t, hs, hu⟩ | ⟨hs, -, hu⟩ | ⟨hs, hlang, hdt, -⟩)
    · simp only [Node.identity, NodeIdentity.literal.injEq] at hid
      simp only [Literal.tail, hid.1, hid.2.1, hdt, and_self]
    · simp [hs, hu]
    · simp [hs, hu]
    · simp [hs, hu]
    · simp [Literal.tail, hs, hlang, hdt]

theorem Literal.digestInput_eq_resource (l : Literal) (r : Resource) :
    r.digestInput = some (l.digestInput true) ↔ l.LabelOf r := by
  rw [Resource.digestInput_eq_some, l.digestInput_unique]
  constructor
  · rintro ⟨-, h⟩
    rcases List.eq_nil_or_concat l.tail with htail | ⟨t, c, htail⟩
    · -- the input of the literal ends with a quote, which is no kind byte
      exfalso
      have hlast := congrArg List.getLast? h
      rw [htail] at hlast
      simp only [List.getLast?_append, List.getLast?_cons, List.getLast?_nil] at hlast
      revert hlast
      unfold Resource.kindByte
      cases r.bnode <;> simp
    · rw [List.concat_eq_append] at htail
      have heq : (34 :: (l.bytes ++ 34 :: t)) ++ [c] = r.bytes ++ [r.kindByte] := by
        rw [← h, htail]
        simp
      obtain ⟨hbytes, hc⟩ := List.append_inj' heq rfl
      refine ⟨t, hbytes.symm, ?_⟩
      rw [htail, hc]
  · rintro ⟨t, hr, htail⟩
    refine ⟨?_, by rw [htail, hr]; simp⟩
    cases hid : r.identifier with
    | some id => rfl
    | none =>
      rw [Resource.bytes, hid] at hr
      cases hr

theorem Literal.QuoteInside.ne {l m : Literal} (h : l.QuoteInside m) : l.bytes ≠ m.bytes := by
  obtain ⟨t, hs, -⟩ := h
  intro heq
  have hlen := congrArg List.length hs
  rw [← heq, List.length_append, List.length_cons] at hlen
  omega

theorem Literal.confused_ne {l m : Literal} (h : (Node.literal l).Confused (.literal m)) :
    (Node.literal l).identity ≠ (Node.literal m).identity := by
  intro hid
  simp only [Node.identity, NodeIdentity.literal.injEq] at hid
  rcases h with h | h | h | h
  · exact h.ne hid.1
  · exact h.ne hid.1.symm
  · exact h.2.1 hid.2.1
  · exact h.2.2.2 hid.2.2

/-- Confused are the pairs of different nodes with one digest input. -/
theorem Node.confused_iff (n m : Node) :
    n.Confused m ↔
      n.identity ≠ m.identity ∧ ∃ x, n.digestInput true = some x ∧ m.digestInput true = some x := by
  cases n with
  | resource r =>
    cases m with
    | resource r' =>
      refine ⟨False.elim, ?_⟩
      rintro ⟨hne, x, hr, hr'⟩
      exact hne (congrArg NodeIdentity.resource (Resource.digestInput_inj hr hr'))
    | literal l =>
      refine ⟨fun h => ⟨nofun, _, (l.digestInput_eq_resource r).mpr h, rfl⟩, ?_⟩
      rintro ⟨-, x, hr, hl⟩
      cases hl
      exact (l.digestInput_eq_resource r).mp hr
  | literal l =>
    cases m with
    | resource r =>
      refine ⟨fun h => ⟨nofun, _, rfl, (l.digestInput_eq_resource r).mpr h⟩, ?_⟩
      rintro ⟨-, x, hl, hr⟩
      cases hl
      exact (l.digestInput_eq_resource r).mp hr
    | literal m =>
      constructor
      · intro h
        refine ⟨Literal.confused_ne h, _, rfl, ?_⟩
        exact congrArg some ((l.digestInput_eq_iff m).mpr (Or.inr h)).symm
      · rintro ⟨hne, x, hl, hm⟩
        have heq : l.digestInput true = m.digestInput true := Option.some.inj (hl.trans hm.symm)
        rcases (l.digestInput_eq_iff m).mp heq with ⟨hid, -⟩ | h
        · exact absurd hid hne
        · exact h

/-! ## Nodes with one digest -/

/-- What digesting the node hands to SHA-1 is in `S`. -/
def Node.DigestedIn (S : Set Bytes) (n : Node) : Prop := ∀ x ∈ n.digestInput true, x ∈ S

section

variable (ext : Externals)

/-- Two nodes get one digest only if they are the same. -/
def NodeDigestIdentifies (n m : Node) : Prop :=
  ∀ d, rdfstoreDigestGetNodeDigest ext n true = some d →
    rdfstoreDigestGetNodeDigest ext m true = some d → n.identity = m.identity

variable {ext} {S : Set Bytes}

theorem nodeDigest_inj (hS : Set.InjOn ext.sha1 S) {n m : Node} (hn : n.DigestedIn S)
    (hm : m.DigestedIn S) {d : Digest} (h : rdfstoreDigestGetNodeDigest ext n true = some d)
    (h' : rdfstoreDigestGetNodeDigest ext m true = some d) :
    ∃ x, n.digestInput true = some x ∧ m.digestInput true = some x := by
  unfold rdfstoreDigestGetNodeDigest at h h'
  obtain ⟨x, hx, rfl⟩ := Option.map_eq_some_iff.mp h
  obtain ⟨y, hy, hsha⟩ := Option.map_eq_some_iff.mp h'
  have hxy : y = x := hS (hm y hy) (hn x hx) hsha
  exact ⟨x, hx, hxy ▸ hy⟩

theorem node_digest_iff (hS : Set.InjOn ext.sha1 S) {n m : Node} (hn : n.DigestedIn S)
    (hm : m.DigestedIn S) : NodeDigestIdentifies ext n m ↔ ¬ n.Confused m := by
  rw [Node.confused_iff]
  constructor
  · rintro h ⟨hne, x, hx, hx'⟩
    refine hne (h (ext.sha1 x) ?_ ?_)
    · rw [rdfstoreDigestGetNodeDigest, hx, Option.map_some]
    · rw [rdfstoreDigestGetNodeDigest, hx', Option.map_some]
  · intro h d hd hd'
    by_contra hne
    exact h ⟨hne, nodeDigest_inj hS hn hm hd hd'⟩

end

/-! ## Statements with one digest -/

section

variable (ext : Externals)

/-- The rotated digest of the literal is the digest of the resource. -/
def RotationMeets (l : Literal) (r : Resource) : Prop :=
  ∃ x, r.digestInput = some x ∧
    rotateDigest (ext.sha1 (l.digestInput true)).toList = (ext.sha1 x).toList

/-- Two different objects that contribute the same bytes to a statement's digest. -/
def Node.ObjectConfused : Node → Node → Prop
  | .literal l, .literal m => (Node.literal l).Confused (.literal m)
  | .literal l, .resource r => RotationMeets ext l r
  | .resource r, .literal l => RotationMeets ext l r
  | .resource _, .resource _ => False

/-- Two statements that differ in the object only, by two confused objects. -/
structure StatementsConfused (st : Statement) (given : Option Resource) (st' : Statement)
    (given' : Option Resource) : Prop where
  subject : st.subject.map Resource.content = st'.subject.map Resource.content
  predicate : st.predicate.map Resource.content = st'.predicate.map Resource.content
  context : (st.digestContext given).map Resource.content = (st'.digestContext given').map Resource.content
  /-- what is to be digested has a label -/
  labels : (∃ s ∈ st.subject, s.identifier.isSome) ∧ (∃ p ∈ st.predicate, p.identifier.isSome) ∧
    ∀ c ∈ st.digestContext given, c.identifier.isSome
  object : ∃ o ∈ st.object, ∃ o' ∈ st'.object, o.ObjectConfused ext o'

/-- What digesting the statement and its parts hands to SHA-1 is in `S`. -/
structure Statement.DigestedIn (S : Set Bytes) (st : Statement) (given : Option Resource) : Prop where
  subject : ∀ s ∈ st.subject, (Node.resource s).DigestedIn S
  predicate : ∀ p ∈ st.predicate, (Node.resource p).DigestedIn S
  object : ∀ o ∈ st.object, o.DigestedIn S
  context : ∀ c ∈ st.digestContext given, (Node.resource c).DigestedIn S
  whole : ∀ x ∈ statementDigestInput ext st given, x ∈ S

/-- Two statements get one digest only if they are the same. -/
def StatementDigestIdentifies (st : Statement) (given : Option Resource) (st' : Statement)
    (given' : Option Resource) : Prop :=
  ∀ d, rdfstoreDigestGetStatementDigest ext st given = some d →
    rdfstoreDigestGetStatementDigest ext st' given' = some d →
    statementIdentity st given = statementIdentity st' given'

/-- The bytes the context contributes, none when there is no context. -/
def ContextDigestBytes (context : Option Resource) (cb : Bytes) : Prop :=
  match context with
  | none => cb = []
  | some c => ∃ ddc, nodeDigestOf ext (some (.resource c)) = some ddc ∧ cb = ddc.toList

variable {ext} {S : Set Bytes} {st st' : Statement} {given given' : Option Resource}

/-- A statement is digested when its parts are, and from their digests side by side. -/
theorem statementDigestInput_eq_some {x : Bytes} :
    statementDigestInput ext st given = some x ↔
      ∃ dds ddp ddo cb, nodeDigestOf ext (st.subject.map .resource) = some dds ∧
        nodeDigestOf ext (st.predicate.map .resource) = some ddp ∧
        nodeDigestOf ext st.object = some ddo ∧
        ContextDigestBytes ext (st.digestContext given) cb ∧
        x = dds.toList ++ ddp.toList ++ objectDigestBytes st.object ddo ++ cb := by
  unfold statementDigestInput ContextDigestBytes
  cases nodeDigestOf ext (st.subject.map .resource) with
  | none => simp
  | some dds =>
    cases nodeDigestOf ext (st.predicate.map .resource) with
    | none => simp
    | some ddp =>
      cases nodeDigestOf ext st.object with
      | none => simp
      | some ddo =>
        cases st.digestContext given with
        | none => simp [eq_comm]
        | some c =>
          constructor
          · intro h
            obtain ⟨ddc, hd, rfl⟩ := Option.map_eq_some_iff.mp h
            exact ⟨dds, ddp, ddo, _, rfl, rfl, rfl, ⟨ddc, hd, rfl⟩, rfl⟩
          · rintro ⟨_, _, _, _, hs, hp, ho, ⟨ddc, hd, rfl⟩, rfl⟩
            cases hs
            cases hp
            cases ho
            exact Option.map_eq_some_iff.mpr ⟨ddc, hd, rfl⟩

theorem rotateDigest_length (dd : Bytes) : (rotateDigest dd).length = dd.length := by
  simp only [rotateDigest, List.length_append, List.length_drop, List.length_take]
  omega

theorem rotateDigest_inj {a b : Bytes} (hlen : a.length = b.length)
    (h : rotateDigest a = rotateDigest b) : a = b := by
  obtain ⟨hdrop, htake⟩ := List.append_inj h (by simp [hlen])
  rw [← List.take_append_drop 1 a, ← List.take_append_drop 1 b, htake, hdrop]

theorem objectDigestBytes_length (o : Option Node) (dd : Digest) :
    (objectDigestBytes o dd).length = 20 := by
  unfold objectDigestBytes
  split
  · rw [rotateDigest_length, Vector.length_toList]
  · exact Vector.length_toList

theorem digest_toList_inj {a b : Digest} (h : a.toList = b.toList) : a = b :=
  Vector.toList_inj.mp h

/-- The parts of two equal digest inputs are equal one by one. -/
theorem digest_parts_inj {dds dds' ddp ddp' : Digest} {ob ob' cb cb' : Bytes}
    (ho : ob.length = 20) (ho' : ob'.length = 20)
    (h : dds.toList ++ ddp.toList ++ ob ++ cb = dds'.toList ++ ddp'.toList ++ ob' ++ cb') :
    dds = dds' ∧ ddp = ddp' ∧ ob = ob' ∧ cb = cb' := by
  obtain ⟨hspo, hc⟩ := List.append_inj h (by simp [ho, ho'])
  obtain ⟨hsp, hob⟩ := List.append_inj hspo (by simp)
  obtain ⟨hs, hp⟩ := List.append_inj hsp (by simp)
  exact ⟨digest_toList_inj hs, digest_toList_inj hp, hob, hc⟩

theorem nodeDigestOf_resource_inj (hS : Set.InjOn ext.sha1 S) {r r' : Option Resource} {d : Digest}
    (hr : ∀ s ∈ r, (Node.resource s).DigestedIn S) (hr' : ∀ s ∈ r', (Node.resource s).DigestedIn S)
    (h : nodeDigestOf ext (r.map .resource) = some d)
    (h' : nodeDigestOf ext (r'.map .resource) = some d) :
    r.map Resource.content = r'.map Resource.content := by
  cases r with
  | none => cases h
  | some s =>
    cases r' with
    | none => cases h'
    | some s' =>
      obtain ⟨x, hx, hx'⟩ := nodeDigest_inj hS (hr s rfl) (hr' s' rfl) h h'
      exact congrArg some (Resource.digestInput_inj hx hx')

theorem contextDigestBytes_inj (hS : Set.InjOn ext.sha1 S) {c c' : Option Resource} {cb : Bytes}
    (hc : ∀ s ∈ c, (Node.resource s).DigestedIn S) (hc' : ∀ s ∈ c', (Node.resource s).DigestedIn S)
    (h : ContextDigestBytes ext c cb) (h' : ContextDigestBytes ext c' cb) :
    c.map Resource.content = c'.map Resource.content := by
  cases c with
  | none =>
    cases c' with
    | none => rfl
    | some c' =>
      obtain ⟨ddc, -, hlen⟩ := h'
      have := congrArg List.length ((show cb = [] from h).symm.trans hlen)
      simp at this
  | some c =>
    obtain ⟨ddc, hd, rfl⟩ := h
    cases c' with
    | none =>
      have := congrArg List.length (show ddc.toList = [] from h')
      simp at this
    | some c' =>
      obtain ⟨ddc', hd', heq⟩ := h'
      rw [← digest_toList_inj heq] at hd'
      exact @nodeDigestOf_resource_inj ext S hS (some c) (some c') ddc hc hc' hd hd'

theorem objectDigestBytes_inj (hS : Set.InjOn ext.sha1 S) {o o' : Node} {d d' : Digest}
    (ho : o.DigestedIn S) (ho' : o'.DigestedIn S) (hd : nodeDigestOf ext (some o) = some d)
    (hd' : nodeDigestOf ext (some o') = some d')
    (h : objectDigestBytes (some o) d = objectDigestBytes (some o') d') :
    o.identity = o'.identity ∨ o.ObjectConfused ext o' := by
  cases o with
  | resource r =>
    cases o' with
    | resource r' =>
      rw [← digest_toList_inj (show d.toList = d'.toList from h)] at hd'
      obtain ⟨x, hx, hx'⟩ := nodeDigest_inj hS ho ho' hd hd'
      exact Or.inl (congrArg NodeIdentity.resource (Resource.digestInput_inj hx hx'))
    | literal l =>
      obtain ⟨x, hx, rfl⟩ := Option.map_eq_some_iff.mp hd
      cases hd'
      exact Or.inr ⟨x, hx, h.symm⟩
  | literal l =>
    cases o' with
    | resource r =>
      obtain ⟨x, hx, rfl⟩ := Option.map_eq_some_iff.mp hd'
      cases hd
      exact Or.inr ⟨x, hx, h⟩
    | literal m =>
      have hdd : d = d' :=
        digest_toList_inj (rotateDigest_inj (by simp) (show rotateDigest d.toList = _ from h))
      rw [← hdd] at hd'
      by_cases hid : (Node.literal l).identity = (Node.literal m).identity
      · exact Or.inl hid
      · exact Or.inr ((Node.confused_iff _ _).mpr ⟨hid, nodeDigest_inj hS ho ho' hd hd'⟩)

theorem Node.ObjectConfused.ne {o o' : Node} (h : o.ObjectConfused ext o') :
    o.identity ≠ o'.identity := by
  cases o with
  | resource r =>
    cases o' with
    | resource r' => exact h.elim
    | literal l => exact nofun
  | literal l =>
    cases o' with
    | resource r => exact nofun
    | literal m => exact Literal.confused_ne h

/-- Confused objects are digested and contribute the same bytes. -/
theorem Node.ObjectConfused.bytes {o o' : Node} (h : o.ObjectConfused ext o') :
    ∃ d d', nodeDigestOf ext (some o) = some d ∧ nodeDigestOf ext (some o') = some d' ∧
      objectDigestBytes (some o) d = objectDigestBytes (some o') d' := by
  cases o with
  | resource r =>
    cases o' with
    | resource r' => exact h.elim
    | literal l =>
      obtain ⟨x, hx, hrot⟩ := h
      exact ⟨ext.sha1 x, ext.sha1 (l.digestInput true), Option.map_eq_some_iff.mpr ⟨x, hx, rfl⟩, rfl,
        hrot.symm⟩
  | literal l =>
    cases o' with
    | resource r =>
      obtain ⟨x, hx, hrot⟩ := h
      exact ⟨ext.sha1 (l.digestInput true), ext.sha1 x, rfl, Option.map_eq_some_iff.mpr ⟨x, hx, rfl⟩,
        hrot⟩
    | literal m =>
      obtain ⟨-, x, hx, hx'⟩ := (Node.confused_iff (.literal l) (.literal m)).mp h
      cases hx
      have hd : nodeDigestOf ext (some (.literal m)) = some (ext.sha1 (l.digestInput true)) :=
        Option.map_eq_some_iff.mpr ⟨_, hx', rfl⟩
      exact ⟨_, _, rfl, hd, rfl⟩

theorem nodeDigestOf_labelled {r : Resource} (h : r.identifier.isSome) :
    ∃ d, nodeDigestOf ext (some (.resource r)) = some d := by
  have hinput : r.digestInput = some (r.bytes ++ [r.kindByte]) :=
    Resource.digestInput_eq_some.mpr ⟨h, rfl⟩
  exact ⟨ext.sha1 (r.bytes ++ [r.kindByte]), Option.map_eq_some_iff.mpr ⟨_, hinput, rfl⟩⟩

theorem label_of_nodeDigestOf {r : Option Resource} {d : Digest}
    (h : nodeDigestOf ext (r.map .resource) = some d) : ∃ s ∈ r, s.identifier.isSome := by
  cases r with
  | none => cases h
  | some s =>
    obtain ⟨x, hx, -⟩ := Option.map_eq_some_iff.mp h
    exact ⟨s, rfl, (Resource.digestInput_eq_some.mp hx).1⟩

theorem ContextDigestBytes.congr {c c' : Option Resource} {cb : Bytes}
    (h : c.map Resource.content = c'.map Resource.content) (hcb : ContextDigestBytes ext c cb) :
    ContextDigestBytes ext c' cb := by
  cases c with
  | none =>
    cases c' with
    | none => exact hcb
    | some c' => cases h
  | some c =>
    cases c' with
    | none => cases h
    | some c' =>
      obtain ⟨ddc, hd, rfl⟩ := hcb
      refine ⟨ddc, ?_, rfl⟩
      rw [← hd]
      exact nodeDigestOf_congr (map_resource_content h.symm)

/-- Confused statements have one digest. -/
theorem StatementsConfused.digest (h : StatementsConfused ext st given st' given') :
    ∃ d, rdfstoreDigestGetStatementDigest ext st given = some d ∧
      rdfstoreDigestGetStatementDigest ext st' given' = some d := by
  obtain ⟨⟨s, hs, hsl⟩, ⟨p, hp, hpl⟩, hcl⟩ := h.labels
  obtain ⟨dds, hdds⟩ := @nodeDigestOf_labelled ext s hsl
  obtain ⟨ddp, hddp⟩ := @nodeDigestOf_labelled ext p hpl
  obtain ⟨o, ho, o', ho', hconf⟩ := h.object
  obtain ⟨ddo, ddo', hddo, hddo', hbytes⟩ := hconf.bytes
  have hctx : ∃ cb, ContextDigestBytes ext (st.digestContext given) cb := by
    cases hc : st.digestContext given with
    | none => exact ⟨[], rfl⟩
    | some c =>
      obtain ⟨ddc, hddc⟩ := @nodeDigestOf_labelled ext c (hcl c hc)
      exact ⟨ddc.toList, ddc, hddc, rfl⟩
  obtain ⟨cb, hcb⟩ := hctx
  have hsubject : nodeDigestOf ext (st.subject.map .resource) = some dds := by rw [hs]; exact hdds
  have hpredicate : nodeDigestOf ext (st.predicate.map .resource) = some ddp := by rw [hp]; exact hddp
  have hx := statementDigestInput_eq_some.mpr
    ⟨dds, ddp, ddo, cb, hsubject, hpredicate, ho ▸ hddo, hcb, rfl⟩
  have hx' := statementDigestInput_eq_some.mpr
    ⟨dds, ddp, ddo', cb, nodeDigestOf_congr (map_resource_content h.subject) ▸ hsubject,
      nodeDigestOf_congr (map_resource_content h.predicate) ▸ hpredicate, ho' ▸ hddo',
      hcb.congr h.context, rfl⟩
  rw [ho', ← hbytes, ← ho] at hx'
  exact ⟨_, congrArg (Option.map ext.sha1) hx, congrArg (Option.map ext.sha1) hx'⟩

theorem StatementsConfused.ne (h : StatementsConfused ext st given st' given') :
    statementIdentity st given ≠ statementIdentity st' given' := by
  intro heq
  obtain ⟨o, ho, o', ho', hconf⟩ := h.object
  have hobj := congrArg StatementIdentity.object heq
  simp only [statementIdentity, Option.mem_def.mp ho, Option.mem_def.mp ho', Option.map_some,
    Option.some.injEq] at hobj
  exact hconf.ne hobj

/-- Two statements with one digest are the same or confused. -/
theorem statementDigest_eq (hS : Set.InjOn ext.sha1 S) (hst : st.DigestedIn ext S given)
    (hst' : st'.DigestedIn ext S given') {d : Digest}
    (h : rdfstoreDigestGetStatementDigest ext st given = some d)
    (h' : rdfstoreDigestGetStatementDigest ext st' given' = some d) :
    statementIdentity st given = statementIdentity st' given' ∨
      StatementsConfused ext st given st' given' := by
  obtain ⟨x, hx, rfl⟩ := Option.map_eq_some_iff.mp h
  obtain ⟨y, hy, hsha⟩ := Option.map_eq_some_iff.mp h'
  have hxy : y = x := hS (hst'.whole y hy) (hst.whole x hx) hsha
  rw [hxy] at hy
  obtain ⟨dds, ddp, ddo, cb, hs, hp, ho, hc, rfl⟩ := statementDigestInput_eq_some.mp hx
  obtain ⟨dds', ddp', ddo', cb', hs', hp', ho', hc', heq⟩ := statementDigestInput_eq_some.mp hy
  obtain ⟨rfl, rfl, hob, rfl⟩ := digest_parts_inj (objectDigestBytes_length _ _)
    (objectDigestBytes_length _ _) heq
  have hsubject := nodeDigestOf_resource_inj hS hst.subject hst'.subject hs hs'
  have hpredicate := nodeDigestOf_resource_inj hS hst.predicate hst'.predicate hp hp'
  have hcontext := contextDigestBytes_inj hS hst.context hst'.context hc hc'
  cases hobj : st.object with
  | none => rw [hobj] at ho; cases ho
  | some o =>
    cases hobj' : st'.object with
    | none => rw [hobj'] at ho'; cases ho'
    | some o' =>
      rw [hobj] at ho hob
      rw [hobj'] at ho' hob
      rcases objectDigestBytes_inj hS (hst.object o hobj) (hst'.object o' hobj') ho ho' hob with
        hid | hconf
      · refine Or.inl ?_
        simp only [statementIdentity, hsubject, hpredicate, hcontext, hobj, hobj', Option.map_some, hid]
      · have hlabels : ∀ c ∈ st.digestContext given, c.identifier.isSome := by
          intro c hmem
          rw [Option.mem_def.mp hmem] at hc
          obtain ⟨ddc, hddc, -⟩ := hc
          obtain ⟨s, hmem, hlabel⟩ := @label_of_nodeDigestOf ext (some c) ddc hddc
          cases hmem
          exact hlabel
        exact Or.inr ⟨hsubject, hpredicate, hcontext,
          ⟨label_of_nodeDigestOf hs, label_of_nodeDigestOf hp, hlabels⟩, o, hobj, o', hobj', hconf⟩

theorem statement_digest_iff (hS : Set.InjOn ext.sha1 S) (hst : st.DigestedIn ext S given)
    (hst' : st'.DigestedIn ext S given') :
    StatementDigestIdentifies ext st given st' given' ↔ ¬ StatementsConfused ext st given st' given' := by
  constructor
  · intro h hconf
    obtain ⟨d, hd, hd'⟩ := hconf.digest
    exact hconf.ne (h d hd hd')
  · intro h d hd hd'
    rcases statementDigest_eq hS hst hst' hd hd' with hid | hconf
    · exact hid
    · exact absurd hconf h

variable (ext S) in
/-- Where SHA-1 has no collision among what is digested, a digest identifies its node unless the
two nodes are confused, and its statement unless the two statements are. -/
theorem digest_identifies_iff (hS : Set.InjOn ext.sha1 S) :
    (∀ n m : Node, n.DigestedIn S → m.DigestedIn S →
      (NodeDigestIdentifies ext n m ↔ ¬ n.Confused m)) ∧
    ∀ (st : Statement) (given : Option Resource) (st' : Statement) (given' : Option Resource),
      st.DigestedIn ext S given → st'.DigestedIn ext S given' →
      (StatementDigestIdentifies ext st given st' given' ↔
        ¬ StatementsConfused ext st given st' given') :=
  ⟨fun _ _ hn hm => node_digest_iff hS hn hm, fun _ _ _ _ hst hst' => statement_digest_iff hS hst hst'⟩

end

/-! ## On the source's SHA-1 -/

/-- What is digested for the URI a, the literal "a" and the statements a a a and a a "a". -/
def smallInputs : List Bytes :=
  [[97, 48], [34, 97, 34]] ++
    ((statementDigestInput asciiExternals (triple (uri 97) (uri 97) (.resource (uri 97))) none).toList ++
      (statementDigestInput asciiExternals (triple (uri 97) (uri 97) (.literal (plainLiteral 97)))
        none).toList)

theorem smallInputs_injOn : Set.InjOn asciiExternals.sha1 {x | x ∈ smallInputs} := by
  have h : ∀ x ∈ smallInputs, ∀ y ∈ smallInputs, Sha1.sha1 x = Sha1.sha1 y → x = y := by
    decide +kernel
  exact fun x hx y hy heq => h x hx y hy heq

theorem triple_digestedIn {S : Set Bytes} {o : Node} (hu : [97, 48] ∈ S) (ho : o.DigestedIn S)
    (hwhole : ∀ x ∈ statementDigestInput asciiExternals (triple (uri 97) (uri 97) o) none, x ∈ S) :
    (triple (uri 97) (uri 97) o).DigestedIn asciiExternals S none := by
  have huri : ∀ s ∈ some (uri 97), (Node.resource s).DigestedIn S := by
    rintro s hs x hx
    cases hs
    cases hx
    exact hu
  exact ⟨huri, huri, fun o' ho' => Option.mem_some.mp ho' ▸ ho, nofun, hwhole⟩

/-- The URI a and the literal "a", and the statements a a a and a a "a". -/
theorem digest_identifies_small :
    NodeDigestIdentifies asciiExternals (.resource (uri 97)) (.literal (plainLiteral 97)) ∧
      (StatementDigestIdentifies asciiExternals (triple (uri 97) (uri 97) (.resource (uri 97))) none
          (triple (uri 97) (uri 97) (.literal (plainLiteral 97))) none ↔
        ¬ StatementsConfused asciiExternals (triple (uri 97) (uri 97) (.resource (uri 97))) none
          (triple (uri 97) (uri 97) (.literal (plainLiteral 97))) none) := by
  have h := digest_identifies_iff asciiExternals {x | x ∈ smallInputs} smallInputs_injOn
  have huri : (Node.resource (uri 97)).DigestedIn {x | x ∈ smallInputs} := by
    intro x hx
    cases hx
    exact List.mem_cons_self
  have hlit : (Node.literal (plainLiteral 97)).DigestedIn {x | x ∈ smallInputs} := by
    intro x hx
    cases hx
    exact List.mem_cons_of_mem _ List.mem_cons_self
  refine ⟨(h.1 _ _ huri hlit).mpr ?_, h.2 _ _ _ _ ?_ ?_⟩
  · rintro ⟨t, ht, -⟩
    cases ht
  · refine triple_digestedIn List.mem_cons_self huri fun x hx => ?_
    exact List.mem_append_right _ (List.mem_append_left _ (Option.mem_toList.mpr hx))
  · refine triple_digestedIn List.mem_cons_self hlit fun x hx => ?_
    exact List.mem_append_right _ (List.mem_append_right _ (Option.mem_toList.mpr hx))

theorem stringX_fits : ([120] : Bytes).length < 2 ^ 31 := by decide

def stringX : CBuf := ⟨[120], stringX_fits⟩

/-- A URI `"x"e`. -/
def quotedUri : CBuf := ⟨[34, 120, 34, 101], by decide⟩

def tagEn : CString := ⟨[101, 110], by decide, by decide⟩

def tagE0 : CString := ⟨[101, 48], by decide, by decide⟩

/-- "x"@en and "x"^^en share their digest and that of their statements, and so do "x"@e0 and the
URI `"x"e`. -/
theorem digest_confuses_language_and_datatype :
    ∃ l m k : Literal, ∃ r : Resource,
      rdfstoreLiteralNew (some stringX) 0 (some tagEn) none = some l ∧
      rdfstoreLiteralNew (some stringX) 0 none (some tagEn) = some m ∧
      rdfstoreLiteralNew (some stringX) 0 (some tagE0) none = some k ∧
      rdfstoreResourceNew (some quotedUri) 0 = some r ∧
      (Node.literal l).identity ≠ (Node.literal m).identity ∧
      ∀ ext : Externals,
        rdfstoreDigestGetNodeDigest ext (.literal l) true =
          rdfstoreDigestGetNodeDigest ext (.literal m) true ∧
        rdfstoreDigestGetNodeDigest ext (.literal k) true =
          rdfstoreDigestGetNodeDigest ext (.resource r) true ∧
        rdfstoreDigestGetStatementDigest ext (triple (uri 97) (uri 98) (.literal l)) none =
          rdfstoreDigestGetStatementDigest ext (triple (uri 97) (uri 98) (.literal m)) none :=
  ⟨_, _, _, _, rfl, rfl, rfl, rfl, by decide, fun _ => ⟨rfl, rfl, rfl⟩⟩

end RdfStore
