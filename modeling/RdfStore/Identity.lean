import RdfStore.Calls

/-!
# Which statement is which

The content of a node or a statement is what its digest and its table keys are
computed from, without the cached hash codes.  A statement is told from another
by subject, predicate, object and the context it is used in, not by its
reification node.  Hash codes and keys depend on the content only, and a call
whose cached hash codes are those of the content (`FreshCall`) works with them.

    statementContent st c = statementContent st' c' →
      statementHash st c = statementHash st' c'                 (statementHash_congr)
-/

namespace RdfStore

open ByteMem

/-! ## Content -/

structure ResourceContent where
  identifier : Option Bytes
  bnode : Bool
  deriving DecidableEq

structure LiteralContent where
  string : Option Bytes
  lang : Bytes
  dataType : Bytes
  digestDatatype : Bytes
  deriving DecidableEq

inductive NodeContent
  | resource (r : ResourceContent)
  | literal (l : LiteralContent)
  deriving DecidableEq

structure StatementContent where
  subject : Option ResourceContent
  predicate : Option ResourceContent
  object : Option NodeContent
  context : Option ResourceContent
  deriving DecidableEq

def Resource.content (r : Resource) : ResourceContent := ⟨r.identifier.map (·.bytes), r.bnode⟩

def Literal.content (l : Literal) : LiteralContent :=
  ⟨l.string.map (·.bytes), l.lang.bytes, l.dtBytes, l.digestDatatype⟩

def Node.content : Node → NodeContent
  | .resource r => .resource r.content
  | .literal l => .literal l.content

/-- The content of a statement used in a context. -/
def statementContent (st : Statement) (context : Option Resource) : StatementContent where
  subject := st.subject.map Resource.content
  predicate := st.predicate.map Resource.content
  object := st.object.map Node.content
  context := (st.digestContext context).map Resource.content

/-! ## Digests depend on the content -/

theorem Resource.bytes_congr {r r' : Resource} (h : r.content = r'.content) : r.bytes = r'.bytes := by
  simp only [Resource.content, ResourceContent.mk.injEq] at h
  simp only [Resource.bytes, h.1]

theorem Literal.bytes_congr {l l' : Literal} (h : l.content = l'.content) : l.bytes = l'.bytes := by
  simp only [Literal.content, LiteralContent.mk.injEq] at h
  simp only [Literal.bytes, h.1]

theorem Resource.digestInput_congr {r r' : Resource} (h : r.content = r'.content) :
    r.digestInput = r'.digestInput := by
  simp only [Resource.content, ResourceContent.mk.injEq] at h
  have hmap : ∀ s : Resource, s.digestInput =
      (s.identifier.map (·.bytes)).map (· ++ [if s.bnode then 49 else 48]) := by
    intro s
    simp [Resource.digestInput, Function.comp_def]
  rw [hmap, hmap, h.1, h.2]

theorem Literal.digestInput_congr {l l' : Literal} (h : l.content = l'.content) (unique : Bool) :
    l.digestInput unique = l'.digestInput unique := by
  have hb := Literal.bytes_congr h
  simp only [Literal.content, LiteralContent.mk.injEq] at h
  simp only [Literal.digestInput, hb, h.2.1, h.2.2.2]

theorem Node.digestInput_congr {n n' : Node} (h : n.content = n'.content) (unique : Bool) :
    n.digestInput unique = n'.digestInput unique := by
  cases n with
  | resource r =>
    cases n' with
    | resource r' => exact Resource.digestInput_congr (NodeContent.resource.inj h)
    | literal l' => cases h
  | literal l =>
    cases n' with
    | resource r' => cases h
    | literal l' => exact congrArg some (Literal.digestInput_congr (NodeContent.literal.inj h) unique)

section

variable {ext : Externals}

theorem objectHash_congr {n n' : Node} (h : n.content = n'.content) :
    objectHash ext n = objectHash ext n' := by
  simp only [objectHash, rdfstoreDigestGetNodeDigest, Node.digestInput_congr h]

theorem resourceHash_congr {r r' : Resource} (h : r.content = r'.content) :
    resourceHash ext r = resourceHash ext r' :=
  @objectHash_congr ext (.resource r) (.resource r') (congrArg NodeContent.resource h)

theorem nodeDigestOf_congr {n n' : Option Node} (h : n.map Node.content = n'.map Node.content) :
    nodeDigestOf ext n = nodeDigestOf ext n' := by
  cases n with
  | none =>
    cases n' with
    | none => rfl
    | some n' => cases h
  | some n =>
    cases n' with
    | none => cases h
    | some n' =>
      simp only [nodeDigestOf, Option.bind_some, rdfstoreDigestGetNodeDigest,
        Node.digestInput_congr (Option.some.inj h)]

theorem map_resource_content {r r' : Option Resource}
    (h : r.map Resource.content = r'.map Resource.content) :
    (r.map Node.resource).map Node.content = (r'.map Node.resource).map Node.content := by
  cases r <;> cases r' <;> simp_all [Node.content]

theorem statementDigestInput_congr {st st' : Statement} {c c' : Option Resource}
    (h : statementContent st c = statementContent st' c') :
    statementDigestInput ext st c = statementDigestInput ext st' c' := by
  simp only [statementContent, StatementContent.mk.injEq] at h
  obtain ⟨hs, hp, ho, hc⟩ := h
  simp only [statementDigestInput, nodeDigestOf_congr (map_resource_content hs),
    nodeDigestOf_congr (map_resource_content hp), nodeDigestOf_congr ho]
  -- the object is rotated on both sides or on neither
  have hrot : objectDigestBytes st.object = objectDigestBytes st'.object := by
    funext ddo
    rcases hst : st.object with _ | _ | _ <;> rcases hst' : st'.object with _ | _ | _ <;>
      simp_all [Node.content, objectDigestBytes]
  cases hd : st.digestContext c with
  | none =>
    cases hd' : st'.digestContext c' with
    | none => simp only [hrot]
    | some c₁ => simp [hd, hd'] at hc
  | some c₀ =>
    cases hd' : st'.digestContext c' with
    | none => simp [hd, hd'] at hc
    | some c₁ =>
      simp only [hd, hd', Option.map_some, Option.some.injEq] at hc
      have hdig : nodeDigestOf ext (some (.resource c₀)) = nodeDigestOf ext (some (.resource c₁)) :=
        nodeDigestOf_congr (by simp [Node.content, hc])
      simp only [hrot, hdig]

theorem statementHash_congr {st st' : Statement} {c c' : Option Resource}
    (h : statementContent st c = statementContent st' c') :
    statementHash ext st c = statementHash ext st' c' := by
  simp only [statementHash, rdfstoreDigestGetStatementDigest, statementDigestInput_congr h]

/-! ## Statements in use -/

/-- A statement together with the context it is used in. -/
abbrev Use := Statement × Option Resource

def Use.content (u : Use) : StatementContent := statementContent u.1 u.2

/-- The statement a call is about. -/
def callUse (me : Store) (st : Statement) (given : Option Resource) : Use :=
  (st, effectiveContext me st given)

variable (ext) in
def Use.hash (u : Use) : UInt32 := statementHash ext u.1 u.2

variable (ext) in
/-- The hash codes of different statements differ. -/
def NoCollision (U : Set Use) : Prop :=
  ∀ u ∈ U, ∀ v ∈ U, u.hash ext = v.hash ext → u.content = v.content

theorem NoCollision.key_iff {U : Set Use} (hcol : NoCollision ext U) {u v : Use} (hu : u ∈ U) (hv : v ∈ U) :
    hashKey (u.hash ext) = hashKey (v.hash ext) ↔ u.content = v.content :=
  ⟨fun h => hcol u hu v hv (hashKey_inj h), fun h => congrArg hashKey (statementHash_congr h)⟩

/-! ## Calls with fresh caches -/

variable (ext) in
/-- Every hash code cached in the objects of a call is the one of the content. -/
structure FreshCall (me : Store) (st : Statement) (given : Option Resource) : Prop where
  statement : st.hashcode = 0 ∨
    st.hashcode = statementHash ext st (effectiveContext me st given)
  subject : ∀ s, st.subject = some s → s.Fresh ext
  predicate : ∀ p, st.predicate = some p → p.Fresh ext
  object : ∀ o, st.object = some o → o.Fresh ext
  context : ∀ c, effectiveContext me st given = some c → c.Fresh ext

theorem callHash_eq {me : Store} {st : Statement} {given : Option Resource}
    (h : st.hashcode = 0 ∨ st.hashcode = statementHash ext st (effectiveContext me st given)) :
    callHash ext me st given = statementHash ext st (effectiveContext me st given) := by
  unfold callHash rdfstoreDigestGetStatementHashCode
  rcases h with h | h
  · rw [if_neg (by simpa using h)]
    rfl
  · split
    · exact h
    · rfl

@[simp] theorem content_cacheHash (r : Resource) : (r.cacheHash ext).content = r.content := rfl

theorem Resource.Fresh.cacheHash {r : Resource} (h : r.Fresh ext) : (r.cacheHash ext).Fresh ext := by
  refine Or.inr ?_
  show rdfstoreDigestGetNodeHashCode ext (.resource r) false = _
  rw [h.hashCode_eq]
  exact resourceHash_congr rfl

theorem checkArgs_eq_some {st : Statement} {given : Option Resource} {a : Args}
    (h : checkArgs st given = some a) :
    st.subject = some a.subject ∧ st.predicate = some a.predicate ∧ st.object = some a.object := by
  unfold checkArgs at h
  split at h
  · next s p o hs hp ho =>
    split at h
    · cases h
      exact ⟨hs, hp, ho⟩
    · cases h
  · cases h

theorem nodeKey_eq {n : Node} (h : n.Fresh ext) : nodeKey ext n = hashKey (objectHash ext n) := by
  rw [nodeKey, h.hashCode_eq]

theorem nodeKey_resource_eq {r : Resource} (h : r.Fresh ext) :
    nodeKey ext (.resource r) = hashKey (resourceHash ext r) := by
  rw [nodeKey, h.hashCode_eq]

/-! ## The objects after a call -/

/-- The objects of a call before and after it have the same content. -/
structure SameObjects (st : Statement) (given : Option Resource) (st' : Statement)
    (given' : Option Resource) : Prop where
  subject : st'.subject.map Resource.content = st.subject.map Resource.content
  predicate : st'.predicate.map Resource.content = st.predicate.map Resource.content
  object : st'.object.map Node.content = st.object.map Node.content
  context : st'.context.map Resource.content = st.context.map Resource.content
  node : st'.node.map Resource.content = st.node.map Resource.content
  given : given'.map Resource.content = given.map Resource.content

theorem SameObjects.refl (st : Statement) (given : Option Resource) : SameObjects st given st given :=
  ⟨rfl, rfl, rfl, rfl, rfl, rfl⟩

theorem SameObjects.trans {st st' st'' : Statement} {given given' given'' : Option Resource}
    (h : SameObjects st given st' given') (h' : SameObjects st' given' st'' given'') :
    SameObjects st given st'' given'' :=
  ⟨h'.1.trans h.1, h'.2.trans h.2, h'.3.trans h.3, h'.4.trans h.4, h'.5.trans h.5, h'.6.trans h.6⟩

theorem content_node_cacheHash (n : Node) : (n.cacheHash ext).content = n.content := by
  cases n <;> rfl

variable (ext) in
theorem map_cacheHash_content (r : Option Resource) :
    (r.map (Resource.cacheHash ext)).map Resource.content = r.map Resource.content := by
  cases r <;> rfl

theorem cacheStatementHash_objects (f : Frame) (hc : UInt32) :
    SameObjects f.statement f.givenContext (f.cacheStatementHash hc).statement
      (f.cacheStatementHash hc).givenContext := by
  unfold Frame.cacheStatementHash
  split <;> exact ⟨rfl, rfl, rfl, rfl, rfl, rfl⟩

theorem cacheStatementHash_hashcode (f : Frame) (hc : UInt32) :
    (f.cacheStatementHash hc).statement.hashcode = f.statement.hashcode ∨
      (f.cacheStatementHash hc).statement.hashcode = hc := by
  unfold Frame.cacheStatementHash
  split
  · exact Or.inr rfl
  · exact Or.inl rfl

theorem cacheNodeHashes_objects (f : Frame) :
    SameObjects f.statement f.givenContext (f.cacheNodeHashes ext).statement
      (f.cacheNodeHashes ext).givenContext := by
  obtain ⟨⟨_, _, _, _, _, _, _, d, _, _⟩, ⟨s, p, o, c, _, _, _⟩, g⟩ := f
  have ho : (o.map (Node.cacheHash ext)).map Node.content = o.map Node.content := by
    cases o with
    | none => rfl
    | some o => exact congrArg some (content_node_cacheHash o)
  have hs := map_cacheHash_content ext s
  have hp := map_cacheHash_content ext p
  cases g <;> cases c <;> cases d <;> exact ⟨hs, hp, ho, rfl, rfl, rfl⟩

theorem cacheNodeHashes_hashcode (f : Frame) :
    (f.cacheNodeHashes ext).statement.hashcode = f.statement.hashcode := by
  obtain ⟨⟨_, _, _, _, _, _, _, d, _, _⟩, ⟨_, _, _, c, _, _, _⟩, g⟩ := f
  cases g <;> cases c <;> cases d <;> rfl

theorem cachedContext_content (me : Store) (st : Statement) (given : Option Resource) :
    (cachedContext ext me st given).map Resource.content = me.context.map Resource.content := by
  unfold cachedContext
  split <;> simp_all

/-- What a call may do to its objects: cache hash codes, the statement's one being the one the
call worked with. -/
structure CallObjects (ext : Externals) (me : Store) (st : Statement) (given : Option Resource)
    (f : Frame) : Prop where
  same : SameObjects st given f.statement f.givenContext
  hashcode : f.statement.hashcode = st.hashcode ∨ f.statement.hashcode = callHash ext me st given
  default : f.me.context.map Resource.content = me.context.map Resource.content

/-- How a call leaves its objects: as they were, with the statement's hash code cached, or with the
hash codes of the nodes cached as well. -/
inductive CallOutcome (ext : Externals) (me : Store) (st : Statement) (given : Option Resource) : Frame → Prop
  | untouched : CallOutcome ext me st given ⟨me, st, given⟩
  | hashed (me' : Store) (h : me'.context.map Resource.content = me.context.map Resource.content) :
      CallOutcome ext me st given { callFrame ext me st given with me := me' }
  | cached (me₁ me' : Store) (h : me'.context.map Resource.content = me.context.map Resource.content) :
      CallOutcome ext me st given
        { ({ callFrame ext me st given with me := me₁ } : Frame).cacheNodeHashes ext with me := me' }

theorem CallOutcome.objects {me : Store} {st : Statement} {given : Option Resource} {f : Frame}
    (h : CallOutcome ext me st given f) : CallObjects ext me st given f := by
  have hframe : ∀ me' : Store, me'.context.map Resource.content = me.context.map Resource.content →
      CallObjects ext me st given { callFrame ext me st given with me := me' } := fun me' h =>
    ⟨cacheStatementHash_objects ⟨me, st, given⟩ _, cacheStatementHash_hashcode ⟨me, st, given⟩ _, h⟩
  cases h with
  | untouched => exact ⟨SameObjects.refl st given, Or.inl rfl, rfl⟩
  | hashed me' h => exact hframe me' h
  | cached me₁ me' h =>
    have hcall := hframe me rfl
    refine ⟨hcall.same.trans (cacheNodeHashes_objects { callFrame ext me st given with me := me₁ }), ?_, h⟩
    have hcode := @cacheNodeHashes_hashcode ext { callFrame ext me st given with me := me₁ }
    exact hcode ▸ hcall.hashcode

theorem rdfstoreInsert_outcome {now : Bytes} {me : Store} {st : Statement} {given : Option Resource}
    {r : Int} {f : Frame} (h : rdfstoreInsert ext now me st given = some (r, f)) :
    CallOutcome ext me st given f := by
  have hframe : CallOutcome ext me st given (callFrame ext me st given) :=
    .hashed (callFrame ext me st given).me (by rw [callFrame, cacheStatementHash_me])
  unfold rdfstoreInsert at h
  cases hargs : checkArgs st given with
  | none =>
    simp only [hargs, Option.some.injEq, Prod.mk.injEq] at h
    obtain ⟨rfl, rfl⟩ := h
    exact .untouched
  | some a =>
    simp only [hargs] at h
    split at h
    · simp only [Option.some.injEq, Prod.mk.injEq] at h
      obtain ⟨rfl, rfl⟩ := h
      exact hframe
    · split at h
      · simp only [Option.some.injEq, Prod.mk.injEq] at h
        obtain ⟨rfl, rfl⟩ := h
        exact .hashed _ rfl
      · split at h
        · simp only [Option.some.injEq, Prod.mk.injEq] at h
          obtain ⟨rfl, rfl⟩ := h
          exact .hashed _ rfl
        · split at h
          · cases h
          · next me' htables =>
            simp only [Option.some.injEq, Prod.mk.injEq] at h
            obtain ⟨rfl, rfl⟩ := h
            refine .cached me' _ ?_
            have hctx : me'.context = me.context := (insertTables_sameRest htables).context
            simp only [cacheNodeHashes_me]
            rw [cachedContext_content, hctx]

theorem rdfstoreRemove_outcome {now : Bytes} {me : Store} {st : Statement} {given : Option Resource}
    {r : Int} {f : Frame} (h : rdfstoreRemove ext now me st given = some (r, f)) :
    CallOutcome ext me st given f := by
  have hframe : CallOutcome ext me st given (callFrame ext me st given) :=
    .hashed (callFrame ext me st given).me (by rw [callFrame, cacheStatementHash_me])
  unfold rdfstoreRemove at h
  cases hargs : checkArgs st given with
  | none =>
    simp only [hargs, Option.some.injEq, Prod.mk.injEq] at h
    obtain ⟨rfl, rfl⟩ := h
    exact .untouched
  | some a =>
    simp only [hargs] at h
    split at h
    · simp only [Option.some.injEq, Prod.mk.injEq] at h
      obtain ⟨rfl, rfl⟩ := h
      exact hframe
    · split at h
      · simp only [Option.some.injEq, Prod.mk.injEq] at h
        obtain ⟨rfl, rfl⟩ := h
        exact hframe
      · next nodes hnode =>
        have hctx : ∀ me', SameRest (({ callFrame ext me st given with
            me := { me with nodes } } : Frame).cacheNodeHashes ext).me me' →
            me'.context.map Resource.content = me.context.map Resource.content := by
          intro me' hs
          rw [hs.context, cacheNodeHashes_me]
          exact cachedContext_content _ _ _
        split at h
        · cases h
        · next status me' htables =>
          simp only [Option.some.injEq, Prod.mk.injEq] at h
          obtain ⟨rfl, rfl⟩ := h
          exact .cached { me with nodes } me' (hctx me' (removeTables_ret htables).2)
        · next me' htables =>
          have hme' := hctx me' (removeTables_ok_sameRest htables)
          split at h
          · simp only [Option.some.injEq, Prod.mk.injEq] at h
            obtain ⟨rfl, rfl⟩ := h
            exact .cached { me with nodes } _ hme'
          · simp only [Option.some.injEq, Prod.mk.injEq] at h
            obtain ⟨rfl, rfl⟩ := h
            exact .cached { me with nodes } _ hme'

end

end RdfStore
