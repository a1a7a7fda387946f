import RdfStore.Concrete
import RdfStore.Identity

/-!
# Insert, remove and contains: which statement is meant

The three operations derive the context and the hash code of a statement each
on its own.  `rdfstore_insert` and `rdfstore_remove` fall back to the default
context of the store, `rdfstore_contains` does not; and all three return a
cached hash code without asking in which context it was computed.  `Agreeing`
is the condition under which they mean the same statement: the context does not
come from the store, and the cached hash code is the one of the context.

The abstract view of a run is the set of statements its answers say are stored
(`MemberRun`).  In a run of agreeing calls the three operations answer as that
set does:

    MemberRun … me members → Agreeing … me st given →
      (contains st given = 0 ↔ (st, given) ∈ members) ∧ …       (membership_agrees)
-/

namespace RdfStore

open ByteMem

section

variable (ext : Externals)

/-- The operations mean the same statement: the context is the given one or the statement's own
unless the store has no default context, and the cached hash code of the statement, if any, is
the one in that context. -/
structure Agreeing (me : Store) (st : Statement) (given : Option Resource) : Prop where
  context : given ≠ none ∨ st.context ≠ none ∨ me.context = none
  hashcode : st.hashcode = 0 ∨ st.hashcode = (callUse me st given).hash ext

/-- A statement is stored: its hash code is a key of the statements table. -/
def IsMember (me : Store) (u : Use) : Prop :=
  rdfstoreFlatStoreExists me.statements (hashKey (u.hash ext)) = true

/-- The runs of agreeing calls over the statements `U`, with the set of statements their answers
say are stored: 0 or 1 of an insert puts a statement in, 0 of a remove takes it out. -/
inductive MemberRun (U : Set Use) : Store → Set StatementContent → Prop
  | connect (freetext errno : Bool) (now : Bytes) : MemberRun U (rdfstoreConnect freetext errno now) ∅
  | insert {me : Store} {members : Set StatementContent} (hrun : MemberRun U me members) (now : Bytes)
      (st : Statement) (given : Option Resource) (hagree : Agreeing ext me st given)
      (hU : callUse me st given ∈ U) (r : Int) (f : Frame)
      (hcall : rdfstoreInsert ext now me st given = some (r, f)) :
      MemberRun U f.me (if r = 0 ∨ r = 1 then insert (callUse me st given).content members else members)
  | remove {me : Store} {members : Set StatementContent} (hrun : MemberRun U me members) (now : Bytes)
      (st : Statement) (given : Option Resource) (hagree : Agreeing ext me st given)
      (hU : callUse me st given ∈ U) (r : Int) (f : Frame)
      (hcall : rdfstoreRemove ext now me st given = some (r, f)) :
      MemberRun U f.me (if r = 0 then members \ {(callUse me st given).content} else members)
  | contains {me : Store} {members : Set StatementContent} (hrun : MemberRun U me members)
      (st : Statement) (given : Option Resource) :
      MemberRun U (rdfstoreContains ext me st given).2.me members
  | setContext {me : Store} {members : Set StatementContent} (hrun : MemberRun U me members)
      (c : Option Resource) : MemberRun U (rdfstoreSetContext me c).2 members
  | resetContext {me : Store} {members : Set StatementContent} (hrun : MemberRun U me members) :
      MemberRun U (rdfstoreResetContext me).2 members

variable {ext}

def identifiedContent (null : Bool) (r : Option ResourceContent) : Bool :=
  r.elim null (·.identifier.isSome)

def NodeContent.identified : NodeContent → Bool
  | .resource r => r.identifier.isSome
  | .literal _ => true

/-! ## The statements table after a call -/

section

variable {now : Bytes} {me me' : Store} {st : Statement} {given : Option Resource} {r : Int}

/-- The hash code an insert works with is a key of the statements table after 0 or 1; no other key
comes or goes. -/
theorem InsertCase.statements (h : InsertCase ext now me st given r me') (k : Bytes) :
    rdfstoreFlatStoreExists me'.statements k =
      if k = hashKey (callHash ext me st given) ∧ (r = 0 ∨ r = 1) then true
      else rdfstoreFlatStoreExists me.statements k := by
  cases h with
  | badArgs hargs => rw [if_neg (by simp)]
  | present a hargs hin =>
    split
    · next hk => rw [hk.1]; exact hin
    · rfl
  | full a hargs hout hfull => rw [if_neg (by simp)]
  | mismatch a hargs hout hroom hmis => rw [if_neg (by simp)]
  | stored a hargs hout hroom hmis me' htables =>
    have hst : me'.statements = me.statements := (insertTables_sameRest htables).statements
    simp only [storedMe, exists_store, hst, true_or, and_true]

/-- The hash code a remove works with is no key of the statements table after 0; no other key comes
or goes. -/
theorem RemoveCase.statements (h : RemoveCase ext now me st given r me') (k : Bytes) :
    rdfstoreFlatStoreExists me'.statements k =
      if k = hashKey (callHash ext me st given) ∧ r = 0 then false
      else rdfstoreFlatStoreExists me.statements k := by
  cases h with
  | badArgs hargs => rw [if_neg (by simp)]
  | absent a hargs hout => rw [if_neg (by simp)]
  | noNode a hargs data hin hnode => rw [if_neg (by simp)]
  | halfWay a hargs data hin nodes hnode _ _ htables =>
    obtain ⟨rfl, hrest⟩ := removeTables_ret htables
    have hst : me'.statements = me.statements := hrest.statements
    rw [if_neg (by simp)]
    exact congrArg (rdfstoreFlatStoreExists · k) hst
  | noStatement a hargs data hin nodes hnode me' htables hstatement =>
    have hst : me'.statements = me.statements := (removeTables_ok_sameRest htables).statements
    rw [if_neg (by simp)]
    exact congrArg (rdfstoreFlatStoreExists · k) hst
  | removed a hargs data hin nodes hnode me' htables statements hstatement =>
    have hst : me'.statements = me.statements := (removeTables_ok_sameRest htables).statements
    rw [exists_delete _ _ _ hstatement, hst]
    simp only [and_true]

end

/-! ## Agreeing calls -/

section

variable {me : Store} {st : Statement} {given : Option Resource}

theorem Agreeing.callHash_eq (h : Agreeing ext me st given) :
    callHash ext me st given = (callUse me st given).hash ext :=
  RdfStore.callHash_eq h.hashcode

/-- Contains looks for the same context. -/
theorem Agreeing.effectiveContext_eq (h : Agreeing ext me st given) :
    given.or st.context = effectiveContext me st given := by
  unfold effectiveContext
  rcases h.context with hg | hc | hd
  · cases given with
    | none => exact absurd rfl hg
    | some g => rfl
  · cases given with
    | some g => rfl
    | none =>
      cases hst : st.context with
      | none => exact absurd hst hc
      | some c => rfl
  · rw [hd]
    cases given.or st.context <;> rfl

/-- Contains tells whether the statement is stored, once the arguments are accepted. -/
theorem Agreeing.contains_eq (h : Agreeing ext me st given) {a : Args}
    (hargs : checkArgs st given = some a) :
    ((rdfstoreContains ext me st given).1 = 0 ↔ IsMember ext me (callUse me st given)) ∧
      ((rdfstoreContains ext me st given).1 = 1 ↔ ¬ IsMember ext me (callUse me st given)) := by
  have hhash : rdfstoreDigestGetStatementHashCode ext st (given.or st.context) =
      (callUse me st given).hash ext := by
    rw [h.effectiveContext_eq]
    exact h.callHash_eq
  unfold rdfstoreContains IsMember
  simp only [hargs, hhash, exists_eq_isSome]
  cases rdfstoreFlatStoreFetch me.statements (hashKey ((callUse me st given).hash ext)) with
  | none => simp
  | some v => simp

theorem checkArgs_isSome : (checkArgs st given).isSome =
    (identifiedContent false (st.subject.map Resource.content)
      && identifiedContent false (st.predicate.map Resource.content)
      && (st.object.map Node.content).any NodeContent.identified
      && identifiedContent true (given.map Resource.content)
      && identifiedContent true (st.node.map Resource.content)) := by
  have hres : ∀ r : Option Resource, identifiedContent true (r.map Resource.content) = identified r := by
    intro r
    cases r <;> simp [identifiedContent, identified, Resource.content]
  have hnode : ∀ o : Node, o.content.identified = o.identified := by
    intro o
    cases o <;> simp [Node.content, NodeContent.identified, Node.identified, Resource.content]
  rw [hres, hres]
  unfold checkArgs
  cases st.subject with
  | none => rfl
  | some s =>
    cases st.predicate with
    | none => simp [identifiedContent]
    | some p =>
      cases st.object with
      | none => simp [identifiedContent]
      | some o =>
        simp only [Option.map_some, Option.any_some, hnode, identifiedContent, Option.elim_some,
          Resource.content, Option.isSome_map]
        split
        · next h => simpa using h.symm
        · next h => simpa using h

/-- The arguments are accepted or not by their content. -/
theorem checkArgs_isSome_congr {st' : Statement} {given' : Option Resource}
    (h : SameObjects st given st' given') : (checkArgs st' given').isSome = (checkArgs st given).isSome := by
  rw [checkArgs_isSome, checkArgs_isSome, h.subject, h.predicate, h.object, h.given, h.node]

theorem eq_none_congr {r r' : Option Resource} (h : r'.map Resource.content = r.map Resource.content) :
    r' = none ↔ r = none := by
  cases r <;> cases r' <;> simp_all

theorem CallObjects.content_eq {f : Frame} (h : CallObjects ext me st given f) :
    (callUse f.me f.statement f.givenContext).content = (callUse me st given).content := by
  simp only [callUse, Use.content, statementContent, Statement.digestContext, effectiveContext,
    Option.map_or, h.same.subject, h.same.predicate, h.same.object, h.same.context, h.same.given,
    h.default]

/-- After a call the objects still mean the same statement. -/
theorem CallObjects.agreeing {f : Frame} (h : CallObjects ext me st given f)
    (hagree : Agreeing ext me st given) :
    Agreeing ext f.me f.statement f.givenContext ∧
      (callUse f.me f.statement f.givenContext).content = (callUse me st given).content := by
  have hcontent := h.content_eq
  refine ⟨⟨?_, ?_⟩, hcontent⟩
  · rw [Ne, Ne, eq_none_congr h.same.given, eq_none_congr h.same.context, eq_none_congr h.default]
    exact hagree.context
  · have hhash : (callUse f.me f.statement f.givenContext).hash ext = (callUse me st given).hash ext :=
      statementHash_congr hcontent
    rw [hhash]
    rcases h.hashcode with hh | hh
    · rw [hh]; exact hagree.hashcode
    · rw [hh]; exact Or.inr hagree.callHash_eq

end

/-! ## One call and the members -/

section

variable {U : Set Use} {now : Bytes} {me me' : Store} {st : Statement} {given : Option Resource} {r : Int}

/-- 0 or 1 of an insert puts its statement in and leaves every other one where it is. -/
theorem InsertCase.isMember_iff (h : InsertCase ext now me st given r me') (hcol : NoCollision ext U)
    (hagree : Agreeing ext me st given) (hU : callUse me st given ∈ U) {u : Use} (hu : u ∈ U) :
    IsMember ext me' u ↔
      ((r = 0 ∨ r = 1) ∧ u.content = (callUse me st given).content) ∨ IsMember ext me u := by
  have hkey := hcol.key_iff hu hU
  rw [IsMember, h.statements, hagree.callHash_eq, IsMember]
  by_cases hk : hashKey (u.hash ext) = hashKey ((callUse me st given).hash ext)
  · have hc := hkey.1 hk
    by_cases hr : r = 0 ∨ r = 1
    · simp [hk, hr, hc]
    · simp [hr]
  · have hc : ¬ u.content = (callUse me st given).content := fun h => hk (hkey.2 h)
    simp [hk, hc]

/-- 0 of a remove takes its statement out and leaves every other one where it is. -/
theorem RemoveCase.isMember_iff (h : RemoveCase ext now me st given r me') (hcol : NoCollision ext U)
    (hagree : Agreeing ext me st given) (hU : callUse me st given ∈ U) {u : Use} (hu : u ∈ U) :
    IsMember ext me' u ↔
      ¬ (r = 0 ∧ u.content = (callUse me st given).content) ∧ IsMember ext me u := by
  have hkey := hcol.key_iff hu hU
  rw [IsMember, h.statements, hagree.callHash_eq, IsMember]
  by_cases hk : hashKey (u.hash ext) = hashKey ((callUse me st given).hash ext)
  · have hc := hkey.1 hk
    by_cases hr : r = 0
    · simp [hk, hr, hc]
    · simp [hr]
  · have hc : ¬ u.content = (callUse me st given).content := fun h => hk (hkey.2 h)
    simp [hk, hc]

/-- Contains changes no table. -/
theorem rdfstoreContains_me (me : Store) (st : Statement) (given : Option Resource) :
    (rdfstoreContains ext me st given).2.me = me := by
  unfold rdfstoreContains
  split
  · rfl
  · simp only
    split <;> rw [cacheStatementHash_me]

theorem InsertCase.args (h : InsertCase ext now me st given r me') (hr : r = 0 ∨ r = 1) :
    (checkArgs st given).isSome := by
  cases h with
  | badArgs hargs => simp at hr
  | present a hargs hin => rw [hargs]; rfl
  | full a hargs hout hfull => simp at hr
  | mismatch a hargs hout hroom hmis => simp at hr
  | stored a hargs hout hroom hmis me' htables => rw [hargs]; rfl

theorem RemoveCase.args (h : RemoveCase ext now me st given 0 me') : (checkArgs st given).isSome := by
  cases hargs : checkArgs st given with
  | some a => rfl
  | none => cases h <;> simp_all

/-- Contains on the objects a call leaves behind, in the store it leaves behind. -/
theorem CallObjects.contains_eq {f : Frame} (h : CallObjects ext me st given f)
    (hagree : Agreeing ext me st given) (hargs : (checkArgs st given).isSome) :
    ((rdfstoreContains ext f.me f.statement f.givenContext).1 = 0 ↔
        IsMember ext f.me (callUse me st given)) ∧
      ((rdfstoreContains ext f.me f.statement f.givenContext).1 = 1 ↔
        ¬ IsMember ext f.me (callUse me st given)) := by
  obtain ⟨hagree', hcontent⟩ := h.agreeing hagree
  rw [← checkArgs_isSome_congr h.same] at hargs
  obtain ⟨a, ha⟩ := Option.isSome_iff_exists.1 hargs
  have hhash : (callUse f.me f.statement f.givenContext).hash ext = (callUse me st given).hash ext :=
    statementHash_congr hcontent
  have hcontains := hagree'.contains_eq ha
  unfold IsMember at hcontains ⊢
  rwa [hhash] at hcontains

end

/-! ## Runs of agreeing calls -/

/-- The statements table holds the hash codes of the members. -/
theorem MemberRun.isMember_iff {U : Set Use} (hcol : NoCollision ext U) {me : Store}
    {members : Set StatementContent} (hrun : MemberRun ext U me members) (u : Use) (hu : u ∈ U) :
    IsMember ext me u ↔ u.content ∈ members := by
  induction hrun with
  | connect freetext errno now => simp [IsMember, rdfstoreConnect, exists_eq_isSome]
  | insert hrun now st given hagree hU r f hcall ih =>
    rw [(rdfstoreInsert_cases hcall).isMember_iff hcol hagree hU hu, ih]
    by_cases hr : r = 0 ∨ r = 1
    · simp [hr]
    · simp [hr]
  | remove hrun now st given hagree hU r f hcall ih =>
    rw [(rdfstoreRemove_cases hcall).isMember_iff hcol hagree hU hu, ih]
    by_cases hr : r = 0
    · simp [hr, and_comm]
    · simp [hr]
  | contains hrun st given ih => rw [← ih, IsMember, rdfstoreContains_me, IsMember]
  | setContext hrun c ih =>
    rw [← ih]
    unfold rdfstoreSetContext IsMember
    split <;> rfl
  | resetContext hrun ih =>
    rw [← ih]
    unfold rdfstoreResetContext IsMember
    split <;> rfl

/-- What it means that the three operations agree on a statement in a store. -/
structure OperationsAgree (ext : Externals) (U : Set Use) (me : Store) (st : Statement)
    (given : Option Resource) : Prop where
  /-- after an insert that answers 0 or 1 contains answers 0 -/
  inserted : ∀ now r f, rdfstoreInsert ext now me st given = some (r, f) → r = 0 ∨ r = 1 →
    (rdfstoreContains ext f.me f.statement f.givenContext).1 = 0
  /-- after a remove that answers 0 contains answers 1 -/
  removed : ∀ now f, rdfstoreRemove ext now me st given = some (0, f) →
    (rdfstoreContains ext f.me f.statement f.givenContext).1 = 1
  /-- an insert moves no other statement in or out -/
  insertOther : ∀ now r f, rdfstoreInsert ext now me st given = some (r, f) →
    ∀ u ∈ U, u.content ≠ (callUse me st given).content → (IsMember ext f.me u ↔ IsMember ext me u)
  /-- a remove moves no other statement in or out -/
  removeOther : ∀ now r f, rdfstoreRemove ext now me st given = some (r, f) →
    ∀ u ∈ U, u.content ≠ (callUse me st given).content → (IsMember ext f.me u ↔ IsMember ext me u)

/-- In every state a run of agreeing calls reaches, contains answers as the answers so far say,
and the three operations agree on every statement they are asked about in an agreeing call. -/
theorem membership_agrees {U : Set Use} (hcol : NoCollision ext U) {me : Store}
    {members : Set StatementContent} (hrun : MemberRun ext U me members) {st : Statement}
    {given : Option Resource} (hagree : Agreeing ext me st given) (hU : callUse me st given ∈ U) :
    ((checkArgs st given).isSome →
      ((rdfstoreContains ext me st given).1 = 0 ↔ (callUse me st given).content ∈ members)) ∧
    OperationsAgree ext U me st given := by
  refine ⟨fun hargs => ?_, ?_, ?_, ?_, ?_⟩
  · obtain ⟨a, ha⟩ := Option.isSome_iff_exists.1 hargs
    rw [(hagree.contains_eq ha).1, hrun.isMember_iff hcol _ hU]
  · intro now r f hcall hr
    have hcase := rdfstoreInsert_cases hcall
    rw [((rdfstoreInsert_outcome hcall).objects.contains_eq hagree (hcase.args hr)).1,
      hcase.isMember_iff hcol hagree hU hU]
    exact Or.inl ⟨hr, rfl⟩
  · intro now f hcall
    have hcase := rdfstoreRemove_cases hcall
    rw [((rdfstoreRemove_outcome hcall).objects.contains_eq hagree hcase.args).2,
      hcase.isMember_iff hcol hagree hU hU]
    exact fun h => h.1 ⟨rfl, rfl⟩
  · intro now r f hcall u hu hne
    rw [(rdfstoreInsert_cases hcall).isMember_iff hcol hagree hU hu]
    simp [hne]
  · intro now r f hcall u hu hne
    rw [(rdfstoreRemove_cases hcall).isMember_iff hcol hagree hU hu]
    simp [hne]

end

/-! ## A default context -/

/-- With a default context an inserted statement is not found again: insert puts it in the
default context, contains looks for it without one. -/
theorem rdfstoreContains_misses_default_context :
    ((rdfstoreInsert asciiExternals [] (rdfstoreSetContext (rdfstoreConnect false false []) (some (uri 100))).2
        (triple (uri 97) (uri 98) (.resource (uri 99))) none).map fun x =>
      (x.1, (rdfstoreContains asciiExternals x.2.me x.2.statement x.2.givenContext).1)) = some (0, 1) := by
  decide +kernel

/-- A statement and the same statement in a context of its own. -/
def firstUse : Use := (triple (uri 97) (uri 98) (.resource (uri 99)), none)

def secondUse : Use := ({ firstUse.1 with context := some (uri 100) }, some (uri 100))

/-- After the first was inserted into an empty store the operations agree on the second. -/
theorem membership_agrees_second :
    ∃ f, rdfstoreInsert asciiExternals [] (rdfstoreConnect false false []) firstUse.1 none = some (0, f) ∧
      OperationsAgree asciiExternals {firstUse, secondUse} f.me secondUse.1 none := by
  have hne : firstUse.hash asciiExternals ≠ secondUse.hash asciiExternals := by decide +kernel
  have hcol : NoCollision asciiExternals {firstUse, secondUse} := by
    rintro u (rfl | rfl) v (rfl | rfl) h
    · rfl
    · exact absurd h hne
    · exact absurd h.symm hne
    · rfl
  have hanswer : (rdfstoreInsert asciiExternals [] (rdfstoreConnect false false []) firstUse.1 none).map
      (·.1) = some 0 := by decide
  obtain ⟨⟨r, f⟩, hcall, rfl⟩ := Option.map_eq_some_iff.1 hanswer
  have hrun := (MemberRun.connect (U := {firstUse, secondUse}) false false []).insert [] firstUse.1 none
    ⟨Or.inr (Or.inr rfl), Or.inl rfl⟩ (Or.inl rfl) _ f hcall
  have huse : callUse f.me secondUse.1 none = secondUse := rfl
  exact ⟨f, hcall, (membership_agrees hcol hrun ⟨Or.inr (Or.inl (by decide)), Or.inl rfl⟩
    (Or.inr huse)).2⟩

end RdfStore
