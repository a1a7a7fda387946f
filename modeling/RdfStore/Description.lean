import RdfStore.Consistency
import RdfStore.FetchObject

/-!
# The concise bounded description of a resource

The description of a resource is the least set of live statements, in a context
if one is given, with all statements about the resource and, for a statement
whose object is a bNode, all statements about that bNode.  The recursion of
`rdfstore_fetch_object` marks a statement after everything below it: where
statements lead back to themselves it goes round until it is too deep, and what
hangs off the loop is marked there without being followed.

    fewer than 20 bNodes, no loop →
      results = the description                                 (fetchObject_described)
    fewer than 20 bNodes → (the limit is met ↔ there is a loop) (fetchObject_limit_iff)
-/

namespace RdfStore

open ByteMem LimitedVisit

/-! ## Descriptions -/

/-- The bNode that the object of an entry is. -/
def Entry.bnode (e : Entry) : Option Resource := e.statement.object.bind Node.asBnode

/-- A statement with this subject, in the context if there is one. -/
structure Entry.IsAbout (e : Entry) (context : Option ResourceContent) (subject : ResourceContent) : Prop where
  subject : e.statement.subject.map Resource.content = some subject
  context : ∀ c ∈ context, e.context.map Resource.content = some c

section

variable (live : Nat → Option Entry) (context : Option ResourceContent)

/-- The ids of the description of a resource. -/
inductive Described (r : ResourceContent) : Nat → Prop
  | subject {i : Nat} {e : Entry} (he : live i = some e) (habout : e.IsAbout context r) : Described r i
  | bnode {i j : Nat} {e e' : Entry} {b : Resource} (hi : Described r i) (he : live i = some e)
      (hb : e.bnode = some b) (he' : live j = some e') (habout : e'.IsAbout context b.content) : Described r j

/-- A statement whose object is the bNode another one is about. -/
def LeadsOn (i j : Nat) : Prop :=
  ∃ e b e', live i = some e ∧ e.bnode = some b ∧ live j = some e' ∧ e'.IsAbout context b.content

/-- The bNodes that can be reached from a resource through bNode objects. -/
def reachableBnodes (r : ResourceContent) : Set ResourceContent :=
  {c | ∃ i e b, Described live context r i ∧ live i = some e ∧ e.bnode = some b ∧ b.content = c}

end

theorem Described.live {live : Nat → Option Entry} {context : Option ResourceContent} {r : ResourceContent}
    {i : Nat} (h : Described live context r i) : ∃ e, live i = some e := by
  cases h with
  | subject he => exact ⟨_, he⟩
  | bnode _ _ _ he' => exact ⟨_, he'⟩

theorem Described.leadsOn {live : Nat → Option Entry} {context : Option ResourceContent} {r : ResourceContent}
    {i j : Nat} (hi : Described live context r i) (hij : LeadsOn live context i j) : Described live context r j := by
  obtain ⟨e, b, e', he, hb, he', habout⟩ := hij
  exact .bnode hi he hb he' habout

/-! ## Stores and hash codes -/

variable (ext : Externals)

/-- The hash code that a content has. -/
def ResourceContent.hash (c : ResourceContent) : UInt32 :=
  hashOf ((c.identifier.map fun id => id ++ [if c.bnode then 49 else 48]).map ext.sha1)

/-- The key of a content in the tables. -/
def ResourceContent.key (c : ResourceContent) : Bytes := hashKey (c.hash ext)

/-- The tables that a fetch reads hold the live entries. -/
structure StoresLive (me : Store) (live : Nat → Option Entry) : Prop where
  nodes : ∀ i e, live i = some e → e.record.isSome ∧ rdfstoreFlatStoreFetch me.nodes (packInt i) = e.record
  indexed : ∀ t, t = .subjects ∨ t = .contexts → ∀ k i,
    i ∈ ids ext me t k ↔ ∃ e, live i = some e ∧ e.HasKey ext me.freetext t k
  identified : ∀ i e r, live i = some e → e.statement.object = some (.resource r) → r.identifier.isSome

/-- No other subject has the hash code of one that is looked for, no other context that of the
given one. -/
structure HashesApart (live : Nat → Option Entry) (context : Option ResourceContent) (r : ResourceContent) :
    Prop where
  subjects : ∀ b, b = r ∨ b ∈ reachableBnodes live context r → ∀ i e s, live i = some e →
    e.statement.subject = some s → s.content.hash ext = b.hash ext → s.content = b
  contexts : ∀ c ∈ context, ∀ i e c', live i = some e → e.context = some c' →
    c'.content.hash ext = c.hash ext → c'.content = c

variable {ext}

theorem resourceHash_eq (r : Resource) : resourceHash ext r = r.content.hash ext := by
  obtain ⟨identifier, bnode, hashcode⟩ := r
  cases identifier <;> rfl

theorem nodeKey_eq_key {r : Resource} (h : r.Fresh ext) : nodeKey ext (.resource r) = r.content.key ext := by
  rw [nodeKey_resource_eq h, resourceHash_eq]
  rfl

theorem Resource.fetched_content {r : Resource} (h : r.identifier.isSome) : r.fetched.content = r.content := by
  obtain ⟨id, hid⟩ := Option.isSome_iff_exists.1 h
  simp only [Resource.content, Resource.fetched, Resource.bytes, hid, Option.map_some, Option.getD_some]

theorem Node.asBnode_eq_some {n : Node} {r : Resource} (h : n.asBnode = some r) : n = .resource r := by
  cases n with
  | literal l => cases h
  | resource r' =>
    simp only [Node.asBnode, Option.ite_none_right_eq_some, Option.some.injEq] at h
    rw [h.2]

theorem Node.asBnode_fetched (n : Node) : n.fetched.asBnode = n.asBnode.map Resource.fetched := by
  cases n with
  | literal l => rfl
  | resource r =>
    show (if r.bnode then some r.fetched else none) = _
    cases hb : r.bnode <;> simp [Node.asBnode, hb]

section

variable {me : Store} {live : Nat → Option Entry} (hme : StoresLive ext me live)
include hme

theorem StoresLive.storedObject {i : Nat} {e : Entry} (he : live i = some e) :
    ∃ o, e.statement.object = some o ∧ storedObject me i = some o.fetched := by
  obtain ⟨hsome, hfetch⟩ := hme.nodes i e he
  cases hs : e.statement.subject with
  | none => simp [Entry.record, hs] at hsome
  | some s =>
    cases hp : e.statement.predicate with
    | none => simp [Entry.record, hs, hp] at hsome
    | some p =>
      cases ho : e.statement.object with
      | none => simp [Entry.record, hs, hp, ho] at hsome
      | some o =>
        have hrecord : e.record = some (statementRecord ⟨s, p, o⟩ e.statement e.context) := by
          simp only [Entry.record, hs, hp, ho]
        refine ⟨o, rfl, ?_⟩
        rw [RdfStore.storedObject, hfetch, hrecord, Option.bind_some, fetchRecord_statementRecord]
        rfl

theorem StoresLive.readable : Readable ext me := by
  intro key i hi
  obtain ⟨e, he, -⟩ := (hme.indexed .subjects (Or.inl rfl) key i).1 hi
  obtain ⟨o, -, ho⟩ := hme.storedObject he
  rw [ho]
  rfl

/-- A statement is followed to the key of its bNode. -/
theorem StoresLive.bnodeKey {i : Nat} {e : Entry} (he : live i = some e) :
    bnodeKey ext me i = e.bnode.map fun b => b.content.key ext := by
  obtain ⟨o, ho, hstored⟩ := hme.storedObject he
  rw [RdfStore.bnodeKey, hstored, Option.bind_some, Node.asBnode_fetched, Entry.bnode, ho, Option.bind_some,
    Option.map_map]
  cases hb : o.asBnode with
  | none => rfl
  | some b =>
    have hid := hme.identified i e b he (ho.trans (congrArg some (Node.asBnode_eq_some hb)))
    have hfresh : b.fetched.Fresh ext := Or.inl rfl
    show some (nodeKey ext (.resource b.fetched)) = some (b.content.key ext)
    rw [nodeKey_eq_key hfresh, Resource.fetched_content hid]

theorem StoresLive.mem_subjectIds {context : Option Resource} (hc : ∀ c ∈ context, c.Fresh ext) {k : Bytes}
    {i : Nat} : i ∈ subjectIds ext me context k ↔ ∃ e, live i = some e ∧
      (∃ s, e.statement.subject = some s ∧ k = s.content.key ext) ∧
      ∀ c ∈ context, ∃ c', e.context = some c' ∧ c.content.key ext = c'.content.key ext := by
  have hkey : ∀ r : Resource, hashKey (resourceHash ext r) = r.content.key ext := fun r => by
    rw [resourceHash_eq]
    rfl
  have hsubject := hme.indexed .subjects (Or.inl rfl) k i
  simp only [Entry.HasKey, hkey] at hsubject
  unfold subjectIds
  cases context with
  | none => simp [hsubject]
  | some c =>
    have hcontext := hme.indexed .contexts (Or.inr rfl) (nodeKey ext (.resource c)) i
    simp only [Entry.HasKey, hkey, nodeKey_eq_key (hc c rfl)] at hcontext
    simp only [Finset.mem_inter, hsubject, nodeKey_eq_key (hc c rfl), hcontext, Option.mem_def,
      Option.some.injEq, forall_eq']
    constructor
    · rintro ⟨⟨e, he, hs⟩, e', he', hc'⟩
      cases he.symm.trans he'
      exact ⟨e, he, hs, hc'⟩
    · rintro ⟨e, he, hs, hc'⟩
      exact ⟨⟨e, he, hs⟩, e, he, hc'⟩

/-! ## The visit and the description -/

variable {r : Resource} {context : Option Resource} (hc : ∀ c ∈ context, c.Fresh ext)
include hc

theorem StoresLive.mem_of_isAbout {b : ResourceContent} {i : Nat} {e : Entry} (he : live i = some e)
    (habout : e.IsAbout (context.map Resource.content) b) : i ∈ subjectIds ext me context (b.key ext) := by
  refine (hme.mem_subjectIds hc).2 ⟨e, he, ?_, fun c hmem => ?_⟩
  · obtain ⟨s, hs, rfl⟩ := Option.map_eq_some_iff.1 habout.subject
    exact ⟨s, hs, rfl⟩
  · obtain ⟨c', hc', hcontent⟩ := Option.map_eq_some_iff.1 (habout.context c.content (Option.mem_map_of_mem _ hmem))
    exact ⟨c', hc', by rw [hcontent]⟩

variable (hapart : HashesApart ext live (context.map Resource.content) r.content)
include hapart

/-- Under the key of a subject that is looked for are the statements about it. -/
theorem StoresLive.mem_subjectIds_iff {b : ResourceContent}
    (hb : b = r.content ∨ b ∈ reachableBnodes live (context.map Resource.content) r.content) {i : Nat} :
    i ∈ subjectIds ext me context (b.key ext) ↔
      ∃ e, live i = some e ∧ e.IsAbout (context.map Resource.content) b := by
  constructor
  · intro hi
    obtain ⟨e, he, ⟨s, hs, hkey⟩, hcontext⟩ := (hme.mem_subjectIds hc).1 hi
    refine ⟨e, he, ?_, fun c hmem => ?_⟩
    · rw [hs, Option.map_some, hapart.subjects b hb i e s he hs (hashKey_inj hkey.symm)]
    · obtain ⟨c₀, hc₀, rfl⟩ := Option.mem_map.1 hmem
      obtain ⟨c', hc', hkey⟩ := hcontext c₀ hc₀
      rw [hc', Option.map_some, hapart.contexts _ hmem i e c' he hc' (hashKey_inj hkey.symm)]
  · rintro ⟨e, he, habout⟩
    exact hme.mem_of_isAbout hc he habout

/-- Over a statement that is described, following its bNode is being led on. -/
theorem StoresLive.leads_iff {i j : Nat}
    (hi : Described live (context.map Resource.content) r.content i) :
    Leads (subjectIds ext me context) (RdfStore.bnodeKey ext me) i j ↔
      LeadsOn live (context.map Resource.content) i j := by
  obtain ⟨e, he⟩ := hi.live
  unfold Leads LeadsOn
  rw [hme.bnodeKey he]
  constructor
  · rintro ⟨m, hm, hj⟩
    obtain ⟨b, hb, rfl⟩ := Option.map_eq_some_iff.1 hm
    obtain ⟨e', he', habout⟩ := (hme.mem_subjectIds_iff hc hapart (Or.inr ⟨i, e, b, hi, he, hb, rfl⟩)).1 hj
    exact ⟨e, b, e', he, hb, he', habout⟩
  · rintro ⟨e₁, b, e', he₁, hb, he', habout⟩
    cases he.symm.trans he₁
    exact ⟨_, congrArg (Option.map fun b => b.content.key ext) hb, hme.mem_of_isAbout hc he' habout⟩

/-- What can be found from the key of the resource is its description. -/
theorem StoresLive.found_iff {i : Nat} :
    Found (subjectIds ext me context) (RdfStore.bnodeKey ext me) (r.content.key ext) i ↔
      Described live (context.map Resource.content) r.content i := by
  constructor
  · intro h
    induction h with
    | entry hi =>
      obtain ⟨e, he, habout⟩ := (hme.mem_subjectIds_iff hc hapart (Or.inl rfl)).1 hi
      exact .subject he habout
    | next _ hm hj ih =>
      obtain ⟨e, b, e', he, hb, he', habout⟩ := (hme.leads_iff hc hapart ih).1 ⟨_, hm, hj⟩
      exact .bnode ih he hb he' habout
  · intro h
    induction h with
    | subject he habout => exact .entry (hme.mem_of_isAbout hc he habout)
    | @bnode i j e e' b _ he hb he' habout ih =>
      have hm : RdfStore.bnodeKey ext me i = some (b.content.key ext) := by rw [hme.bnodeKey he, hb, Option.map_some]
      exact .next ih hm (hme.mem_of_isAbout hc he' habout)

/-- A described statement leads back to itself exactly if one that is found does. -/
theorem StoresLive.loops_iff :
    (∃ i, Found (subjectIds ext me context) (RdfStore.bnodeKey ext me) (r.content.key ext) i ∧
        Relation.TransGen (Leads (subjectIds ext me context) (RdfStore.bnodeKey ext me)) i i) ↔
      ∃ i, Described live (context.map Resource.content) r.content i ∧
        Relation.TransGen (LeadsOn live (context.map Resource.content)) i i := by
  constructor
  · rintro ⟨i, hi, hloop⟩
    have hi := (hme.found_iff hc hapart).1 hi
    refine ⟨i, hi, (transGen_of_steps (fun i j hi hij => ?_) hi hloop).1⟩
    have hlead := (hme.leads_iff hc hapart hi).1 hij
    exact ⟨hlead, hi.leadsOn hlead⟩
  · rintro ⟨i, hi, hloop⟩
    refine ⟨i, (hme.found_iff hc hapart).2 hi, (transGen_of_steps (fun i j hi hij => ?_) hi hloop).1⟩
    exact ⟨(hme.leads_iff hc hapart hi).2 hij, hi.leadsOn hij⟩

/-- There are no more keys to visit than bNodes. -/
theorem StoresLive.targets_le :
    (targets (subjectIds ext me context) (RdfStore.bnodeKey ext me) (r.content.key ext)).encard ≤
      (reachableBnodes live (context.map Resource.content) r.content).encard := by
  have hsub : targets (subjectIds ext me context) (RdfStore.bnodeKey ext me) (r.content.key ext) ⊆
      ResourceContent.key ext '' reachableBnodes live (context.map Resource.content) r.content := by
    rintro m ⟨i, hi, hm⟩
    have hi := (hme.found_iff hc hapart).1 hi
    obtain ⟨e, he⟩ := hi.live
    rw [hme.bnodeKey he] at hm
    obtain ⟨b, hb, rfl⟩ := Option.map_eq_some_iff.1 hm
    exact ⟨b.content, ⟨i, e, b, hi, he, hb, rfl⟩, rfl⟩
  exact (Set.encard_le_encard hsub).trans (Set.encard_image_le _ _)

/-- With fewer bNodes than levels the limit is met, before all is in the results, exactly if a
described statement leads back to itself. -/
theorem StoresLive.limit_iff (hr : r.Fresh ext)
    (hfew : (reachableBnodes live (context.map Resource.content) r.content).encard < maxFetchObjectDeepness) :
    Cut (subjectIds ext me context) (RdfStore.bnodeKey ext me) maxFetchObjectDeepness
        (nodeKey ext (.resource r)) ∅ ↔
      ∃ i, Described live (context.map Resource.content) r.content i ∧
        Relation.TransGen (LeadsOn live (context.map Resource.content)) i i := by
  rw [nodeKey_eq_key hr, ← hme.loops_iff hc hapart]
  exact cut_iff_loops ((hme.targets_le hc hapart).trans_lt hfew)

end

/-! ## Reachable stores -/

theorem checkArgs_identified {st : Statement} {given : Option Resource} {a : Args}
    (h : checkArgs st given = some a) : a.object.identified = true := by
  unfold checkArgs at h
  split at h
  · split at h
    · next hok =>
      cases h
      simp only [Bool.and_eq_true] at hok
      exact hok.1.1.2
    · cases h
  · cases h

/-- What was inserted has an object that the checks let through. -/
theorem StoreRun.identified {U : Set Use} {freetext : Bool}
    {safe : Store → Statement → Option Resource → Prop} {me : Store} {h : History}
    (hrun : StoreRun ext U freetext safe me h) :
    ∀ i e o, h.live i = some e → e.statement.object = some o → o.identified = true := by
  induction hrun with
  | connect errno now => exact fun _ _ _ he => by cases he
  | insert _ now st given hfresh hU r f hcall hr ih =>
    intro i e o he ho
    by_cases hr0 : r = 0
    · rw [if_pos hr0, live_insert] at he
      split at he
      · cases he
        have hcase := rdfstoreInsert_cases hcall
        rw [hr0] at hcase
        generalize f.me = me' at hcase
        cases hcase with
        | stored a hargs _ _ _ _ _ =>
          cases ho.symm.trans (checkArgs_eq_some hargs).2.2
          exact checkArgs_identified hargs
      · exact ih i e o he ho
    · rw [if_neg hr0] at he
      exact ih i e o he ho
  | remove _ now st given hfresh hU hsafe r f hcall hr ih =>
    intro i e o he ho
    by_cases hr0 : r = 0
    · rw [if_pos hr0] at he
      exact ih i e o (live_remove_eq_some.1 he).1 ho
    · rw [if_neg hr0] at he
      exact ih i e o he ho

/-- In every state reached with free-text off, the tables that a fetch reads hold the live
statements. -/
theorem StoreRun.storesLive (hl : ext.Lossless) {U : Set Use} (hcol : NoCollision ext U) {me : Store} {h : History}
    (hrun : StoreRun ext U false (fun _ _ _ => True) me h) : StoresLive ext me h.live := by
  obtain ⟨hh, -⟩ := hrun.holds hl hcol fun _ st given hfree _ => removalSafe_of_freetext hfree st given
  refine ⟨fun i e he => ⟨hh.recorded i e he, ?_⟩, fun t ht k i => hh.indexed t k i ?_,
    fun i e r he ho => hrun.identified i e _ he ho⟩
  · obtain ⟨data, hdata⟩ := Option.isSome_iff_exists.1 (hh.recorded i e he)
    rw [hdata]
    exact (hh.nodes _ data).2 ⟨i, e, he, rfl, hdata⟩
  · rcases ht with rfl | rfl <;> rfl

/-! ## Stores that statements were inserted into -/

/-- Statements inserted one after the other, as long as the answer is 0. -/
def insertAll (ext : Externals) (me : Store) (sts : List Statement) : Option Store :=
  sts.foldlM (fun me st =>
    (rdfstoreInsert ext [] me st none).bind fun x => if x.1 = 0 then some x.2.me else none) me

/-- A statement in no context with nothing cached. -/
structure Plain (st : Statement) : Prop where
  context : st.context = none
  statement : st.hashcode = 0
  subject : ∀ s, st.subject = some s → s.hashcode = 0
  predicate : ∀ p, st.predicate = some p → p.hashcode = 0
  object : ∀ o, st.object = some o → o.hashcode = 0

theorem triple_plain {s p : Resource} {o : Node} (hs : s.hashcode = 0) (hp : p.hashcode = 0)
    (ho : o.hashcode = 0) : Plain (triple s p o) := by
  refine ⟨rfl, rfl, fun s' h => ?_, fun p' h => ?_, fun o' h => ?_⟩
  · cases h; exact hs
  · cases h; exact hp
  · cases h; exact ho

theorem Plain.freshCall {st : Statement} (h : Plain st) {me : Store} (hme : me.context = none) :
    FreshCall ext me st none := by
  refine ⟨Or.inl h.statement, fun s hs => Or.inl (h.subject s hs), fun p hp => Or.inl (h.predicate p hp),
    fun o ho => Or.inl (h.object o ho), fun c hc => ?_⟩
  simp [effectiveContext, h.context, hme] at hc

/-- The store that inserting a list of plain statements ends in has them under the ids from 0 on. -/
theorem exists_run_of_insertAll (hl : ext.Lossless) {U : Set Use} (hcol : NoCollision ext U) {me' : Store}
    (sts done : List Statement) {me : Store} {h : History} (hplain : ∀ st ∈ sts, Plain st ∧ (st, none) ∈ U)
    (hrun : StoreRun ext U false (fun _ _ _ => True) me h)
    (hdone : ∀ i, (h.live i).map Entry.statement = done[i]?) (hcount : me.counter.toNat = done.length)
    (hins : insertAll ext me sts = some me') :
    ∃ h', StoreRun ext U false (fun _ _ _ => True) me' h' ∧
      ∀ i, (h'.live i).map Entry.statement = (done ++ sts)[i]? := by
  induction sts generalizing me h done with
  | nil =>
    cases hins
    exact ⟨h, hrun, by simpa using hdone⟩
  | cons st sts ih =>
    obtain ⟨hh, -⟩ := hrun.holds hl hcol fun _ st given hfree _ => removalSafe_of_freetext hfree st given
    obtain ⟨hst, hU⟩ := hplain st List.mem_cons_self
    have hfresh : FreshCall ext me st none := hst.freshCall hh.context
    obtain ⟨me₁, hstep, hins⟩ := Option.bind_eq_some_iff.1 hins
    obtain ⟨⟨r, f⟩, hcall, hr⟩ := Option.bind_eq_some_iff.1 hstep
    simp only [Option.ite_none_right_eq_some, Option.some.injEq] at hr
    obtain ⟨rfl, rfl⟩ := hr
    have hstored := (rdfstoreInsert_cases hcall).stored_spec hl hh.tables hh.room hfresh
    have huse : callUse me st none = (st, none) := by
      simp [callUse, effectiveContext, hst.context, hh.context]
    have hnext := hrun.insert [] st none hfresh (huse ▸ hU) 0 f hcall (Or.inl rfl)
    have hid : statementId f.me ((callUse me st none).hash ext) = me.counter.toNat :=
      hstored.statementId me.counter.toNat_lt
    rw [if_pos rfl, hid] at hnext
    have hlength : (done ++ [st]).length = done.length + 1 := List.length_append
    have hdone' : ∀ i, ((h.insert me.counter.toNat (Entry.ofCall me st none)).live i).map Entry.statement =
        (done ++ [st])[i]? := by
      intro i
      rw [live_insert, hcount]
      by_cases hi : i = done.length
      · rw [if_pos hi, hi, List.getElem?_concat_length]
        rfl
      · rw [if_neg hi, hdone]
        by_cases hlt : i < done.length
        · rw [List.getElem?_append_left hlt]
        · rw [List.getElem?_eq_none (by omega), List.getElem?_eq_none (by omega)]
    obtain ⟨h', hrun', hlive⟩ := ih (done ++ [st]) (fun st' hmem => hplain st' (List.mem_cons_of_mem _ hmem)) hnext
      hdone' (by rw [hstored.counter, hcount, hlength]) hins
    exact ⟨h', hrun', by simpa using hlive⟩

/-- What a store has that a list of plain statements was inserted into. -/
structure HoldsList (ext : Externals) (sts : List Statement) (me : Store) (live : Nat → Option Entry) : Prop where
  tables : StoresLive ext me live
  live : ∀ i, (live i).map Entry.statement = sts[i]?

/-- The subject, by its content, and the bNode object of the statements in a list. -/
def subjectIn (sts : List Statement) (i : Nat) : Option ResourceContent :=
  ((sts[i]?).bind (·.subject)).map Resource.content

def bnodeIn (sts : List Statement) (i : Nat) : Option ResourceContent :=
  (((sts[i]?).bind (·.object)).bind Node.asBnode).map Resource.content

section

variable {sts : List Statement} {me : Store} {live : Nat → Option Entry} (h : HoldsList ext sts me live)
include h

theorem HoldsList.isAbout_iff {i : Nat} {b : ResourceContent} :
    (∃ e, live i = some e ∧ e.IsAbout none b) ↔ subjectIn sts i = some b := by
  rw [subjectIn, ← h.live i]
  constructor
  · rintro ⟨e, he, habout⟩
    rw [he]
    exact habout.subject
  · intro hb
    cases he : live i with
    | none => rw [he] at hb; cases hb
    | some e =>
      rw [he] at hb
      exact ⟨e, rfl, hb, fun c hc => by cases hc⟩

theorem HoldsList.bnode_iff {i : Nat} {c : ResourceContent} :
    (∃ e b, live i = some e ∧ e.bnode = some b ∧ b.content = c) ↔ bnodeIn sts i = some c := by
  rw [bnodeIn, Option.map_eq_some_iff, ← h.live i]
  cases he : live i with
  | none => simp
  | some e => simp [Entry.bnode]

theorem HoldsList.leadsOn_iff {i j : Nat} :
    LeadsOn live none i j ↔ ∃ c, bnodeIn sts i = some c ∧ subjectIn sts j = some c := by
  constructor
  · rintro ⟨e, b, e', he, hb, he', habout⟩
    exact ⟨b.content, h.bnode_iff.1 ⟨e, b, he, hb, rfl⟩, h.isAbout_iff.1 ⟨e', he', habout⟩⟩
  · rintro ⟨c, hi, hj⟩
    obtain ⟨e, b, he, hb, rfl⟩ := h.bnode_iff.2 hi
    obtain ⟨e', he', habout⟩ := h.isAbout_iff.2 hj
    exact ⟨e, b, e', he, hb, he', habout⟩

theorem HoldsList.described_subject {r : ResourceContent} {i : Nat} (hi : subjectIn sts i = some r) :
    Described live none r i := by
  obtain ⟨e, he, habout⟩ := h.isAbout_iff.2 hi
  exact .subject he habout

theorem HoldsList.described_next {r c : ResourceContent} {i j : Nat} (hi : Described live none r i)
    (hc : bnodeIn sts i = some c) (hj : subjectIn sts j = some c) : Described live none r j :=
  hi.leadsOn (h.leadsOn_iff.2 ⟨c, hc, hj⟩)

theorem HoldsList.lt_length {r : ResourceContent} {i : Nat} (hi : Described live none r i) : i < sts.length := by
  obtain ⟨e, he⟩ := hi.live
  have hlive := h.live i
  rw [he, Option.map_some] at hlive
  exact (List.getElem?_eq_some_iff.1 hlive.symm).1

/-- There are no more bNodes to reach than statements. -/
theorem HoldsList.reachable_le {r : ResourceContent} : (reachableBnodes live none r).encard ≤ sts.length := by
  have hsub : (some '' reachableBnodes live none r : Set (Option ResourceContent)) ⊆
      ((Finset.range sts.length).image (bnodeIn sts) : Finset _) := by
    rintro - ⟨c, ⟨i, e, b, hi, he, hb, hc⟩, rfl⟩
    refine Finset.mem_coe.2 (Finset.mem_image.2 ⟨i, Finset.mem_range.2 (h.lt_length hi), ?_⟩)
    exact h.bnode_iff.1 ⟨e, b, he, hb, hc⟩
  calc (reachableBnodes live none r).encard = (some '' reachableBnodes live none r).encard :=
        ((Option.some_injective _).encard_image _).symm
    _ ≤ ((Finset.range sts.length).image (bnodeIn sts)).card := by
        rw [← Set.encard_coe_eq_coe_finsetCard]
        exact Set.encard_le_encard hsub
    _ ≤ sts.length := by
        refine Nat.cast_le.2 (Finset.card_image_le.trans_eq ?_)
        exact Finset.card_range _

/-- The subjects and the bNodes of the list are told apart by their hash codes. -/
structure ListApart (ext : Externals) (sts : List Statement) (cs : List ResourceContent) : Prop where
  nodup : (cs.map (ResourceContent.hash ext)).Nodup
  subjects : ∀ i < sts.length, ∀ c ∈ subjectIn sts i, c ∈ cs
  bnodes : ∀ i < sts.length, ∀ c ∈ bnodeIn sts i, c ∈ cs

variable {cs : List ResourceContent} (hcs : ListApart ext sts cs)
include hcs

theorem HoldsList.subject_eq {i : Nat} {e : Entry} {s : Resource} {b : ResourceContent} (hb : b ∈ cs)
    (he : live i = some e) (hs : e.statement.subject = some s) (hhash : s.content.hash ext = b.hash ext) :
    s.content = b := by
  have hlive := h.live i
  rw [he, Option.map_some] at hlive
  have hi : subjectIn sts i = some s.content := by
    rw [subjectIn, ← hlive, Option.bind_some, hs, Option.map_some]
  have hlt := (List.getElem?_eq_some_iff.1 hlive.symm).1
  exact List.inj_on_of_nodup_map hcs.nodup (hcs.subjects i hlt _ hi) hb hhash

theorem HoldsList.apart {r : ResourceContent} (hr : r ∈ cs) : HashesApart ext live none r := by
  refine ⟨fun b hb i e s he hs hhash => ?_, fun c hc => by cases hc⟩
  refine h.subject_eq hcs ?_ he hs hhash
  rcases hb with rfl | ⟨j, e', b', hj, he', hb', hc⟩
  · exact hr
  · exact hcs.bnodes j (h.lt_length hj) b (h.bnode_iff.1 ⟨e', b', he', hb', hc⟩)

theorem HoldsList.subjectIds_eq {b : ResourceContent} (hb : b ∈ cs) : subjectIds ext me none (b.key ext) =
    (Finset.range sts.length).filter fun i => subjectIn sts i = some b := by
  ext i
  have hnone : ∀ c ∈ (none : Option Resource), c.Fresh ext := fun c hc => by cases hc
  rw [h.tables.mem_subjectIds hnone, Finset.mem_filter, Finset.mem_range]
  constructor
  · rintro ⟨e, he, ⟨s, hs, hkey⟩, -⟩
    have hsb := h.subject_eq hcs hb he hs (hashKey_inj hkey).symm
    have hi : subjectIn sts i = some b := by
      refine h.isAbout_iff.1 ⟨e, he, ?_, fun c hc => by cases hc⟩
      rw [hs, Option.map_some, hsb]
    exact ⟨h.lt_length (h.described_subject hi), hi⟩
  · rintro ⟨-, hi⟩
    obtain ⟨e, he, habout⟩ := h.isAbout_iff.2 hi
    obtain ⟨s, hs, rfl⟩ := Option.map_eq_some_iff.1 habout.subject
    exact ⟨e, he, ⟨s, hs, rfl⟩, fun c hc => by cases hc⟩

omit hcs in
theorem HoldsList.bnodeKey_eq {i : Nat} {c : ResourceContent} (hi : bnodeIn sts i = some c) :
    bnodeKey ext me i = some (c.key ext) := by
  obtain ⟨e, b, he, hb, rfl⟩ := h.bnode_iff.2 hi
  rw [h.tables.bnodeKey he, hb, Option.map_some]

end

/-- The store that inserting a list of plain statements ends in holds it. -/
theorem holdsList_of_insertAll (hl : ext.Lossless) {sts : List Statement} {me : Store}
    (hplain : ∀ st ∈ sts, Plain st) (hnodup : (sts.map fun st => statementHash ext st none).Nodup)
    (hins : insertAll ext (rdfstoreConnect false false []) sts = some me) : ∃ live, HoldsList ext sts me live := by
  have hcol : NoCollision ext {u | u.2 = none ∧ u.1 ∈ sts} := by
    rintro ⟨st, c⟩ ⟨hc, hst⟩ ⟨st', c'⟩ ⟨hc', hst'⟩ hhash
    cases hc
    cases hc'
    exact congrArg (Use.content ⟨·, none⟩) (List.inj_on_of_nodup_map hnodup hst hst' hhash)
  obtain ⟨h, hrun, hlive⟩ := exists_run_of_insertAll hl hcol sts [] (fun st hst => ⟨hplain st hst, rfl, hst⟩)
    (.connect false []) (fun _ => rfl) rfl hins
  exact ⟨h.live, hrun.storesLive hl hcol, hlive⟩

/-! ## The fetch -/

section

variable {me : Store} {live : Nat → Option Entry} {r : Resource} {context : Option Resource}

/-- Without loops the results are the description. -/
theorem fetchObject_described (hme : StoresLive ext me live) (hid : r.identifier.isSome) (hr : r.Fresh ext)
    (hctx : ∀ c ∈ context, c.identifier.isSome ∧ c.Fresh ext)
    (hapart : HashesApart ext live (context.map Resource.content) r.content)
    (hfew : (reachableBnodes live (context.map Resource.content) r.content).encard < maxFetchObjectDeepness)
    (hloop : ∀ i, Described live (context.map Resource.content) r.content i →
      ¬ Relation.TransGen (LeadsOn live (context.map Resource.content)) i i) :
    ∃ fetched, rdfstoreFetchObject ext me (some (.resource r)) context = some fetched ∧
      (∀ i, i ∈ fetched.results.found ↔ Described live (context.map Resource.content) r.content i) ∧
      fetched.results.size = fetched.results.found.card := by
  have hc : ∀ c ∈ context, c.Fresh ext := fun c hmem => (hctx c hmem).2
  have hidentified : identified context := by
    cases context with
    | none => rfl
    | some c => exact (hctx c rfl).1
  obtain ⟨fetched, hfetch, hfound, hsize, -⟩ := rdfstoreFetchObject_spec hme.readable hid hidentified
  have hcut : ¬ Cut (subjectIds ext me context) (RdfStore.bnodeKey ext me) maxFetchObjectDeepness
      (nodeKey ext (.resource r)) ∅ := by
    rw [hme.limit_iff hc hapart hr hfew]
    rintro ⟨i, hi, hback⟩
    exact hloop i hi hback
  refine ⟨fetched, hfetch, fun i => ?_, hsize⟩
  rw [hfound, (visit_of_not_cut hcut).1 i, nodeKey_eq_key hr, hme.found_iff hc hapart]

end

/-! ## Examples -/

theorem byte_fits (c : UInt8) : ([c] : Bytes).length < 2 ^ 31 := by simp

/-- A one byte bNode. -/
def bnode (c : UInt8) : Resource := ⟨some ⟨[c], byte_fits c⟩, true, 0⟩

/-- A statement that leads on to another. -/
def chainStatements : List Statement :=
  [triple (uri 114) (uri 112) (.resource (bnode 97)), triple (bnode 97) (uri 112) (.resource (uri 120))]

theorem chainStatements_plain : ∀ st ∈ chainStatements, Plain st := by
  simp only [chainStatements, List.forall_mem_cons, List.not_mem_nil, false_imp_iff, implies_true, and_true]
  exact ⟨triple_plain rfl rfl rfl, triple_plain rfl rfl rfl⟩

theorem chainStatements_apart : ListApart asciiExternals chainStatements
    [(uri 114).content, (bnode 97).content] :=
  ⟨by decide +kernel, by decide, by decide⟩

theorem exists_holds_chain : ∃ me live, insertAll asciiExternals (rdfstoreConnect false false []) chainStatements =
    some me ∧ HoldsList asciiExternals chainStatements me live := by
  have hsome : (insertAll asciiExternals (rdfstoreConnect false false []) chainStatements).isSome = true := by
    decide +kernel
  have hnodup : (chainStatements.map fun st => statementHash asciiExternals st none).Nodup := by decide +kernel
  obtain ⟨me, hins⟩ := Option.isSome_iff_exists.1 hsome
  obtain ⟨live, h⟩ := holdsList_of_insertAll asciiExternals_lossless chainStatements_plain hnodup hins
  exact ⟨me, live, hins, h⟩

/-- Both statements are fetched. -/
theorem fetchObject_described_chain : ∃ me fetched,
    insertAll asciiExternals (rdfstoreConnect false false []) chainStatements = some me ∧
      rdfstoreFetchObject asciiExternals me (some (.resource (uri 114))) none = some fetched ∧
      fetched.results.found = {0, 1} ∧ fetched.results.size = 2 := by
  obtain ⟨me, live, hins, h⟩ := exists_holds_chain
  have hfew : (reachableBnodes live none (uri 114).content).encard < maxFetchObjectDeepness :=
    h.reachable_le.trans_lt (Nat.cast_lt.2 (by decide))
  have hstep : ∀ i < 2, ∀ j < 2, ∀ c ∈ bnodeIn chainStatements i, subjectIn chainStatements j = some c → i < j := by
    decide
  have hlt : ∀ i j, Described live none (uri 114).content i → LeadsOn live none i j →
      i < j ∧ Described live none (uri 114).content j := by
    intro i j hi hij
    have hj := hi.leadsOn hij
    obtain ⟨c, hc, hs⟩ := h.leadsOn_iff.1 hij
    exact ⟨hstep i (h.lt_length hi) j (h.lt_length hj) c hc hs, hj⟩
  have hloop : ∀ i, Described live none (uri 114).content i → ¬ Relation.TransGen (LeadsOn live none) i i := by
    intro i hi hback
    have hback := (transGen_of_steps hlt hi hback).1
    rw [Relation.transGen_eq_self] at hback
    exact lt_irrefl i hback
  have hctx : ∀ c ∈ (none : Option Resource), c.identifier.isSome ∧ c.Fresh asciiExternals := fun c hc => by cases hc
  obtain ⟨fetched, hfetch, hfound, hsize⟩ := fetchObject_described h.tables rfl (Or.inl rfl) hctx
    (h.apart chainStatements_apart (by decide)) hfew hloop
  have hset : fetched.results.found = {0, 1} := by
    ext i
    rw [hfound]
    constructor
    · intro hi
      have := h.lt_length hi
      have hlength : chainStatements.length = 2 := rfl
      simp only [Finset.mem_insert, Finset.mem_singleton]
      omega
    · intro hi
      have h0 : Described live none (uri 114).content 0 := h.described_subject rfl
      simp only [Finset.mem_insert, Finset.mem_singleton] at hi
      rcases hi with rfl | rfl
      · exact h0
      · exact h.described_next h0 rfl rfl
  exact ⟨me, fetched, hins, hfetch, hset, by rw [hsize, hset]; rfl⟩

def loopStatements : List Statement :=
  [triple (bnode 97) (uri 112) (.resource (bnode 97)), triple (bnode 97) (uri 112) (.resource (bnode 110)),
   triple (bnode 110) (uri 112) (.resource (bnode 109)), triple (bnode 109) (uri 112) (.resource (uri 120))]

/-- A node that leads back to itself before it leads on: what is two nodes on is not put out,
however many levels there are. -/
theorem visit_loop {N : Type*} {entries : N → Finset Nat} {next : Nat → Option N} {a n m : N}
    (ha : entries a = {0, 1}) (hn : entries n = {2}) (h0 : next 0 = some a) (h1 : next 1 = some n)
    (h2 : next 2 = some m) (k : Nat) : visit entries next (k + 2) a ∅ = {0, 1, 2} := by
  have hsort : ({0, 1} : Finset Nat).sort = [0, 1] := by
    rw [Finset.sort_insert _ (by decide) (by decide), Finset.sort_singleton]
  have hstep : ∀ k, visit entries next (k + 1) a ∅ =
      visit entries next k n (visit entries next k a ∅) ∪ {0, 1} := by
    intro k
    rw [visit_succ, ha, Finset.sdiff_empty, hsort, visitAll_cons_some h0, visitAll_cons_some h1]
    rfl
  induction k with
  | zero =>
    have hnew : ({2} : Finset Nat) \ {0, 1} = {2} := by decide
    have hone : visit entries next 1 a ∅ = {0, 1} := hstep 0
    rw [hstep 1, hone, visit_succ, hn, hnew, Finset.sort_singleton, visitAll_cons_some h2]
    show ({0, 1} ∪ {2} ∪ {0, 1} : Finset Nat) = {0, 1, 2}
    decide
  | succ k ih =>
    have hnew : ({2} : Finset Nat) \ {0, 1, 2} = ∅ := by decide
    rw [hstep (k + 2), ih, visit_succ, hn, hnew, Finset.sort_empty]
    show ({0, 1, 2} ∪ ∅ ∪ {0, 1} : Finset Nat) = {0, 1, 2}
    decide

theorem loopStatements_plain : ∀ st ∈ loopStatements, Plain st := by
  simp only [loopStatements, List.forall_mem_cons, List.not_mem_nil, false_imp_iff, implies_true, and_true]
  exact ⟨triple_plain rfl rfl rfl, triple_plain rfl rfl rfl, triple_plain rfl rfl rfl, triple_plain rfl rfl rfl⟩

theorem loopStatements_apart : ListApart asciiExternals loopStatements
    [(bnode 97).content, (bnode 110).content, (bnode 109).content] :=
  ⟨by decide +kernel, by decide, by decide⟩

theorem exists_holds_loop : ∃ me live, insertAll asciiExternals (rdfstoreConnect false false []) loopStatements =
    some me ∧ HoldsList asciiExternals loopStatements me live := by
  have hsome : (insertAll asciiExternals (rdfstoreConnect false false []) loopStatements).isSome = true := by
    decide +kernel
  have hnodup : (loopStatements.map fun st => statementHash asciiExternals st none).Nodup := by decide +kernel
  obtain ⟨me, hins⟩ := Option.isSome_iff_exists.1 hsome
  obtain ⟨live, h⟩ := holdsList_of_insertAll asciiExternals_lossless loopStatements_plain hnodup hins
  exact ⟨me, live, hins, h⟩

/-- With three bNodes only, the statement about the last one is not among the results. -/
theorem fetchObject_misses_branch : ∃ me live fetched,
    insertAll asciiExternals (rdfstoreConnect false false []) loopStatements = some me ∧
      HoldsList asciiExternals loopStatements me live ∧
      HashesApart asciiExternals live none (bnode 97).content ∧
      (reachableBnodes live none (bnode 97).content).encard < maxFetchObjectDeepness ∧
      rdfstoreFetchObject asciiExternals me (some (.resource (bnode 97))) none = some fetched ∧
      Described live none (bnode 97).content 3 ∧ 3 ∉ fetched.results.found := by
  obtain ⟨me, live, hins, h⟩ := exists_holds_loop
  have hidentified : identified none := rfl
  obtain ⟨fetched, hfetch, hfound, -⟩ := rdfstoreFetchObject_spec h.tables.readable (r := bnode 97) rfl
    hidentified
  have hfew : (reachableBnodes live none (bnode 97).content).encard < maxFetchObjectDeepness :=
    h.reachable_le.trans_lt (Nat.cast_lt.2 (by decide))
  have hdescribed : Described live none (bnode 97).content 3 := by
    have h1 : Described live none (bnode 97).content 1 := h.described_subject rfl
    have h2 : Described live none (bnode 97).content 2 := h.described_next h1 rfl rfl
    exact h.described_next h2 rfl rfl
  refine ⟨me, live, fetched, hins, h, h.apart loopStatements_apart (by decide), hfew, hfetch, hdescribed, ?_⟩
  have hkey : nodeKey asciiExternals (.resource (bnode 97)) = (bnode 97).content.key asciiExternals :=
    nodeKey_eq_key (Or.inl rfl)
  have ha : subjectIds asciiExternals me none ((bnode 97).content.key asciiExternals) = {0, 1} := by
    rw [h.subjectIds_eq loopStatements_apart (by decide)]
    decide
  have hn : subjectIds asciiExternals me none ((bnode 110).content.key asciiExternals) = {2} := by
    rw [h.subjectIds_eq loopStatements_apart (by decide)]
    decide
  rw [hfound, hkey, maxFetchObjectDeepness,
    visit_loop ha hn (h.bnodeKey_eq rfl) (h.bnodeKey_eq rfl) (h.bnodeKey_eq rfl) 18]
  decide

end RdfStore
