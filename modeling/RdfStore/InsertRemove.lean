import RdfStore.Atomicity
import RdfStore.CachedHashes
import RdfStore.History
import RdfStore.LiveIds
import RdfStore.Membership

/-!
# Inserting a statement and removing it again

In a reached store no table knows an id that the counter has not given out, so
the id of a new statement stands under the keys of that statement only.  Removing
works the keys out again: the number keys are looked for with the `errno` that
inserting left, and are found again because a literal that has one leaves `errno`
as it was.

    every id in a table was given out                          (ReachedStore.idsGivenOut)
    the scan that removes finds what the one that inserted did (scanObject_again)
    insert and remove answer 0 and leave every table as it was (insert_remove)
-/

namespace RdfStore

open ByteMem

section

variable {ext : Externals}

/-! ## What a removal leaves, however it ends -/

/-- The states that a removal comes back with, at the end or half-way. -/
def Leaves (P : Store → Prop) : Except Exit Store → Prop
  | .ok me => P me
  | .error (.ret _ me) => P me
  | .error .abort => True

theorem Leaves.bind {P : Store → Prop} {x : Except Exit Store} {f : Store → Except Exit Store}
    (hx : Leaves P x) (hf : ∀ me, P me → Leaves P (f me)) : Leaves P (x >>= f) := by
  cases x with
  | ok me => exact hf me hx
  | error e => exact hx

variable (ext) in
/-- Every entry of the bitmap tables is in order, and every id in them is below `n`. -/
structure IdsUnder (n : Nat) (me : Store) : Prop where
  tables : TablesOk ext me
  lt : ∀ t k, ∀ i ∈ ids ext me t k, i < n

theorem IdsUnder.congr {n : Nat} {me me' : Store} (h : IdsUnder ext n me) (hindex : me'.index = me.index) :
    IdsUnder ext n me' := by
  refine ⟨h.tables.congr hindex, fun t k i hi => ?_⟩
  rw [ids_congr hindex] at hi
  exact h.lt t k i hi

theorem IdsUnder.withErrno {n : Nat} {me : Store} (h : IdsUnder ext n me) (errno : Bool) :
    IdsUnder ext n { me with errno } := h.congr rfl

theorem IdsUnder.subset {n : Nat} {me me' : Store} (h : IdsUnder ext n me) (hok : TablesOk ext me')
    (hsub : ∀ t k, ids ext me' t k ⊆ ids ext me t k) : IdsUnder ext n me' :=
  ⟨hok, fun t k i hi => h.lt t k i (hsub t k hi)⟩

section

variable {n i : Nat} {me : Store}

/-- Taking an id out of a key, whether it is there or not. -/
theorem indexRemove_leaves (hl : ext.Lossless) (h : IdsUnder ext n me) (hi : i < maxRecords) (a : Access)
    (t : Index) (key : Bytes) : Leaves (IdsUnder ext n) (indexRemove ext a me t key i) := by
  obtain ⟨hsize, hones⟩ := indexFetch_spec hl h.tables t key
  obtain ⟨m, b, change, hset, -, hm, hb⟩ := rdfstoreBitsSetmask_clear _ _ i
    (indexFetch ext me t key).2 hsize (byte_lt_max hi) STEP_dvd_max
  rw [hones] at hb
  have hb' : IdsUnder ext n { me with bitsDecode := b } := h.congr rfl
  unfold indexRemove
  simp only [hset]
  split
  · next hpos =>
    have hshort := ones_rdfstoreBitsShorten m b
    have hne : (ones (rdfstoreBitsShorten m b) b).Nonempty := by
      rw [Finset.nonempty_iff_ne_empty, hshort]
      exact fun he => absurd ((rdfstoreBitsShorten_eq_zero_iff m b).2 he) hpos.ne'
    obtain ⟨data, hdata, hentry, hdec⟩ := encodedEntry_spec hl a ((rdfstoreBitsShorten_le m b).trans hm) hne
    obtain ⟨hok, -, hids⟩ := putEntry_spec hb'.tables t key data hentry
    rw [hdata]
    refine hb'.subset hok fun t' k => ?_
    rw [hids, hdec, hshort, hb]
    split
    · next hk =>
      rw [hk.1, hk.2]
      exact Finset.erase_subset _ _
    · exact Finset.Subset.refl _
  · cases hdelete : rdfstoreFlatStoreDelete (me.index t) key with
    | none => exact hb'
    | some db =>
      obtain ⟨hok, -, hids⟩ := deleteKey_spec hb'.tables t key hdelete
      refine hb'.subset hok fun t' k => ?_
      rw [hids]
      split
      · exact Finset.empty_subset _
      · exact Finset.Subset.refl _

theorem removeOpt_leaves (hl : ext.Lossless) (h : IdsUnder ext n me) (hi : i < maxRecords) (t : Index)
    (key : Option Bytes) : Leaves (IdsUnder ext n) (removeOpt ext t i me key) := by
  cases key with
  | none => exact h
  | some k => exact indexRemove_leaves hl h hi .compressed t k

theorem removeWindex_leaves (hl : ext.Lossless) (hi : i < maxRecords) (keys : List WindexKey)
    (h : IdsUnder ext n me) :
    Leaves (IdsUnder ext n) (orAbort (keys.foldlM (fun me k => windexRemove ext me k.bytes i) me)) := by
  induction keys generalizing me with
  | nil => exact h
  | cons k keys ih =>
    obtain ⟨me₁, h₁, hok, -, -, hids⟩ := windexRemove_spec hl h.tables hi k.bytes
    have hunder : IdsUnder ext n me₁ := by
      refine h.subset hok fun t k' => ?_
      rw [hids]
      split
      · next hk =>
        rw [hk.1, hk.2]
        split
        · exact Finset.erase_subset _ _
        · exact Finset.empty_subset _
      · exact Finset.Subset.refl _
    rw [List.foldlM_cons, h₁]
    exact ih hunder

theorem removeLiteral_leaves (hl : ext.Lossless) (h : IdsUnder ext n me) (hi : i < maxRecords) (l : Literal) :
    Leaves (IdsUnder ext n) (removeLiteral ext me l i) := by
  unfold removeLiteral
  have hwindex : Leaves (IdsUnder ext n) (orAbort ((literalWindexKeys ext me.freetext me.errno l).2.foldlM
      (fun me k => windexRemove ext me k.bytes i)
      { me with errno := (literalWindexKeys ext me.freetext me.errno l).1 })) :=
    removeWindex_leaves hl hi _ (h.withErrno _)
  refine hwindex.bind fun me₁ h₁ => ?_
  refine (removeOpt_leaves hl h₁ hi _ _).bind fun me₂ h₂ => ?_
  refine (removeOpt_leaves hl h₂ hi _ _).bind fun me₃ h₃ => ?_
  cases dateKey ext me₃.errno l with
  | none => trivial
  | some d =>
    refine (removeOpt_leaves hl (h₃.withErrno _) hi _ _).bind fun me₄ h₄ => ?_
    refine (removeOpt_leaves hl (h₄.withErrno _) hi _ _).bind fun me₅ h₅ => ?_
    exact removeOpt_leaves hl (h₅.withErrno _) hi _ _

theorem removeTables_leaves (hl : ext.Lossless) (h : IdsUnder ext n me) (hi : i < maxRecords) (a : Args)
    (context : Option Resource) : Leaves (IdsUnder ext n) (removeTables ext me a context i) := by
  unfold removeTables
  refine (indexRemove_leaves hl h hi _ _ _).bind fun me₁ h₁ => ?_
  refine (indexRemove_leaves hl h₁ hi _ _ _).bind fun me₂ h₂ => ?_
  refine (indexRemove_leaves hl h₂ hi _ _ _).bind fun me₃ h₃ => ?_
  refine (removeOpt_leaves hl h₃ hi _ _).bind fun me₄ h₄ => ?_
  cases a.object with
  | resource r => exact h₄
  | literal l => exact removeLiteral_leaves hl h₄ hi l

end

/-! ## Ids are given out by the counter -/

theorem IdsUnder.mono {n m : Nat} {me : Store} (h : IdsUnder ext n me) (hle : n ≤ m) : IdsUnder ext m me :=
  ⟨h.tables, fun t k i hi => (h.lt t k i hi).trans_le hle⟩

variable (ext) in
/-- The ids in the bitmap tables and in the nodes table were given out by the counter. -/
structure IdsGivenOut (me : Store) : Prop where
  under : IdsUnder ext me.counter.toNat me
  nodes : ∀ k, (rdfstoreFlatStoreFetch me.nodes k).isSome → ∃ i < me.counter.toNat, k = packInt i

theorem IdsGivenOut.congr {me me' : Store} (h : IdsGivenOut ext me) (hindex : me'.index = me.index)
    (hnodes : me'.nodes = me.nodes) (hcounter : me'.counter = me.counter) : IdsGivenOut ext me' := by
  refine ⟨?_, ?_⟩
  · rw [hcounter]
    exact h.under.congr hindex
  · rw [hcounter, hnodes]
    exact h.nodes

theorem delete_isSome {db db' : FlatDb} {key : Bytes} (h : rdfstoreFlatStoreDelete db key = some db') (k : Bytes)
    (hk : (rdfstoreFlatStoreFetch db' k).isSome) : (rdfstoreFlatStoreFetch db k).isSome := by
  rw [fetch_delete h] at hk
  split at hk
  · cases hk
  · exact hk

section

variable {now : Bytes} {me me' : Store} {st : Statement} {given : Option Resource} {r : Int}

theorem IdsGivenOut.insert (hl : ext.Lossless) (h : IdsGivenOut ext me) (hissued : IdsIssued me)
    (hcase : InsertCase ext now me st given r me') : IdsGivenOut ext me' := by
  have hsucc := toNat_succ_counter hissued.counter
  have hle : me.counter.toNat ≤ (me.counter + 1).toNat := by omega
  cases hcase with
  | badArgs => exact h
  | present => exact h
  | full => exact h
  | mismatch a hargs hout hroom hmis =>
    refine ⟨(h.under.mono hle).congr rfl, fun k hk => ?_⟩
    obtain ⟨i, hi, rfl⟩ := h.nodes k hk
    exact ⟨i, hi.trans_le hle, rfl⟩
  | stored a hargs hout hroom hmis me₁ htables =>
    have hok : TablesOk ext { me with counter := me.counter + 1 } := h.under.tables.congr rfl
    obtain ⟨sc, -, -, hadds⟩ := insertTables_spec hl hok (by omega) a st _ htables
    have hcounter : me₁.counter = me.counter + 1 := hadds.rest.counter
    have hunder : IdsUnder ext me₁.counter.toNat me₁ := by
      refine ⟨hadds.ok, fun t k i hi => ?_⟩
      rw [hcounter, hsucc]
      rw [hadds.ids] at hi
      have hold : ∀ j ∈ ids ext me t k, j < me.counter.toNat + 1 := fun j hj => (h.under.lt t k j hj).trans (by omega)
      split at hi
      · obtain rfl | hi := Finset.mem_insert.1 hi
        · exact Nat.lt_succ_self _
        · exact hold i hi
      · exact hold i hi
    refine ⟨hunder.congr rfl, fun k hk => ?_⟩
    have hnodes : (rdfstoreFlatStoreFetch me₁.nodes k).isSome := hk
    rw [hadds.rest.nodes, fetch_store] at hnodes
    show ∃ i < me₁.counter.toNat, k = packInt i
    rw [hcounter, hsucc]
    split at hnodes
    · next hk => exact ⟨me.counter.toNat, Nat.lt_succ_self _, hk⟩
    · obtain ⟨i, hi, rfl⟩ := h.nodes k hnodes
      exact ⟨i, hi.trans (Nat.lt_succ_self _), rfl⟩

/-- The tables after a removal that got as far as them. -/
theorem IdsGivenOut.removeTables (hl : ext.Lossless) (h : IdsGivenOut ext me) (hissued : IdsIssued me) {key : Bytes}
    {data : Bytes} (hin : rdfstoreFlatStoreFetch me.statements key = some data) {nodes : FlatDb}
    (hnode : rdfstoreFlatStoreDelete me.nodes (packInt (unpackInt data)) = some nodes) (a : Args)
    (context default : Option Resource) :
    Leaves (fun me' => SameRest { me with nodes, context := default } me' → IdsGivenOut ext me')
      (RdfStore.removeTables ext { me with nodes, context := default } a context (unpackInt data)) := by
  obtain ⟨i, hi, rfl⟩ := hissued.entries key data hin
  have hmax := maxRecords_lt
  have hcount := hissued.counter
  have hid : unpackInt (packInt i) = i := unpackInt_packInt_of_lt (by omega)
  rw [hid] at hnode ⊢
  have hunder : IdsUnder ext me.counter.toNat { me with nodes, context := default } := h.under.congr rfl
  have hleaves := removeTables_leaves hl hunder (by omega : i < maxRecords) a context
  have hgiven : ∀ me', IdsUnder ext me.counter.toNat me' → SameRest { me with nodes, context := default } me' →
      IdsGivenOut ext me' := by
    intro me' hunder' hrest
    have hcounter : me'.counter = me.counter := hrest.counter
    refine ⟨hcounter ▸ hunder', fun k hk => ?_⟩
    rw [hrest.nodes] at hk
    rw [hcounter]
    exact h.nodes k (delete_isSome hnode k hk)
  cases hx : RdfStore.removeTables ext { me with nodes, context := default } a context i with
  | ok me' =>
    rw [hx] at hleaves
    exact hgiven me' hleaves
  | error e =>
    cases e with
    | abort => trivial
    | ret status me' =>
      rw [hx] at hleaves
      exact hgiven me' hleaves

theorem IdsGivenOut.remove (hl : ext.Lossless) (h : IdsGivenOut ext me) (hissued : IdsIssued me)
    (hcase : RemoveCase ext now me st given r me') : IdsGivenOut ext me' := by
  cases hcase with
  | badArgs => exact h
  | absent => exact h
  | noNode => exact h
  | halfWay a hargs data hin nodes hnode status me₁ htables =>
    have hleaves := h.removeTables hl hissued hin hnode a (effectiveContext me st given) (cachedContext ext me st given)
    rw [htables] at hleaves
    exact hleaves (removeTables_ret htables).2
  | noStatement a hargs data hin nodes hnode me₁ htables hstatement =>
    have hleaves := h.removeTables hl hissued hin hnode a (effectiveContext me st given) (cachedContext ext me st given)
    rw [htables] at hleaves
    exact (hleaves (removeTables_ok_sameRest htables)).congr rfl rfl rfl
  | removed a hargs data hin nodes hnode me₁ htables statements hstatement =>
    have hleaves := h.removeTables hl hissued hin hnode a (effectiveContext me st given) (cachedContext ext me st given)
    rw [htables] at hleaves
    exact (hleaves (removeTables_ok_sameRest htables)).congr rfl rfl rfl

end

theorem ReachedStore.idsGivenOut (hl : ext.Lossless) {me : Store} (h : ReachedStore ext me) : IdsGivenOut ext me := by
  induction h with
  | connect freetext errno now =>
    refine ⟨⟨fun t key data hd => ?_, fun t k i hi => ?_⟩, fun k hk => ?_⟩
    · simp [rdfstoreConnect] at hd
    · simp [rdfstoreConnect, RdfStore.ids] at hi
    · simp [rdfstoreConnect] at hk
  | insert h now st given r f hcall ih => exact ih.insert hl h.idsIssued (rdfstoreInsert_cases hcall)
  | remove h now st given r f hcall ih => exact ih.remove hl h.idsIssued (rdfstoreRemove_cases hcall)
  | looks h hsame ih => exact ih.congr hsame.index hsame.nodes hsame.counter

/-! ## The keys are worked out twice -/

/-- A number is recognised with `errno` left as it was. -/
theorem acceptNumber_errno {c : Conversion} {errno : Bool} {s v : Bytes} (h : (acceptNumber c errno s).2 = some v) :
    (acceptNumber c errno s).1 = false := by
  obtain ⟨⟨-, -, herrno⟩, -⟩ := Option.ite_none_right_eq_some.1 h
  exact herrno

theorem deserializeInteger_errno {errno : Bool} {s : Option Bytes} {v : Bytes}
    (h : (rdfstoreXsdDeserializeInteger ext errno s).2 = some v) :
    (rdfstoreXsdDeserializeInteger ext errno s).1 = false := by
  cases s with
  | none => cases h
  | some s => exact acceptNumber_errno h

theorem deserializeDouble_errno {errno : Bool} {s : Option Bytes} {v : Bytes}
    (h : (rdfstoreXsdDeserializeDouble ext errno s).2 = some v) :
    (rdfstoreXsdDeserializeDouble ext errno s).1 = false := by
  cases s with
  | none => cases h
  | some s => exact acceptNumber_errno h

theorem doubleKey_errno {errno islval : Bool} {l : Literal} {v : Bytes}
    (h : (doubleKey ext errno l islval).2 = some v) : (doubleKey ext errno l islval).1 = false := by
  cases islval with
  | true => cases h
  | false => exact deserializeDouble_errno h

/-- A scan that leaves `errno` set has found no number. -/
theorem scanLiteral_number {freetext errno : Bool} {l : Literal} {sc : ObjectScan}
    (h : scanLiteral ext freetext errno l = some sc) (herrno : sc.errno = true) {t : Index} (ht : t.isNumber = true)
    (k : Bytes) : (t, k) ∉ sc.others := by
  obtain ⟨w, d, iv, dv, -, -, hiv, hdv, rfl⟩ := scanLiteral_eq_some h
  have hdouble : dv.2 = none := by
    by_contra hsome
    obtain ⟨v, hv⟩ := Option.ne_none_iff_exists'.1 hsome
    rw [← hdv] at hv herrno
    rw [doubleKey_errno hv] at herrno
    cases herrno
  have hinteger : iv.2 = none := by
    by_contra hsome
    obtain ⟨v, hv⟩ := Option.ne_none_iff_exists'.1 hsome
    have hfalse : iv.1 = false := by
      rw [← hiv] at hv ⊢
      exact deserializeInteger_errno hv
    -- with an integer the double is not tried
    have hdv' : dv.1 = iv.1 := by
      rw [← hdv, hv]
      rfl
    rw [hdv', hfalse] at herrno
    cases herrno
  rw [hdouble, hinteger]
  simp only [List.mem_append, mem_optKey, optKey_none, List.not_mem_nil, or_false]
  rintro ((⟨rfl, -⟩ | ⟨rfl, -⟩) | ⟨rfl, -⟩) <;> cases ht

/-- With the `errno` that a scan leaves, the next one finds the same keys. -/
theorem scanObject_again {freetext errno : Bool} {o : Node} {sc : ObjectScan}
    (h : scanObject ext freetext errno o = some sc) :
    ∃ sc', scanObject ext freetext sc.errno o = some sc' ∧ ∀ p, p ∈ sc'.others ↔ p ∈ sc.others := by
  cases o with
  | resource r =>
    cases h
    exact ⟨_, rfl, fun _ => Iff.rfl⟩
  | literal l =>
    have hl : scanLiteral ext freetext errno l = some sc := h
    cases herrno : sc.errno with
    | false =>
      cases errno with
      | false => exact ⟨sc, h, fun _ => Iff.rfl⟩
      | true =>
        rw [scanObject_errno h] at herrno
        cases herrno
    | true =>
      obtain ⟨sc', hsc', -, hlater⟩ := scanLiteral_later hl
      refine ⟨sc', hsc', fun p => ?_⟩
      obtain ⟨t, k⟩ := p
      cases ht : t.isNumber with
      | false => exact hlater.same t k ht
      | true =>
        have hnot := scanLiteral_number hl herrno ht k
        exact ⟨fun hp => absurd (hlater.fewer _ hp) hnot, fun hp => absurd hp hnot⟩

/-- Only a date literal has to have a string. -/
theorem scanObject_isSome {o : Node} (freetext errno : Bool)
    (h : ∀ l, o = .literal l → l.dtBytes = xsdDateUri ∨ l.dtBytes = xsdDateTimeUri → l.string.isSome = true) :
    ∃ sc, scanObject ext freetext errno o = some sc := by
  cases o with
  | resource r => exact ⟨_, rfl⟩
  | literal l =>
    have hdate : ∀ e, (dateKey ext e l).isSome := by
      intro e
      unfold dateKey
      split
      · next hdt =>
        rw [Option.isSome_map]
        exact h l rfl hdt
      · rfl
    obtain ⟨d, hd⟩ := Option.isSome_iff_exists.1 (hdate (literalWindexKeys ext freetext errno l).1)
    exact ⟨_, by rw [scanObject, scanLiteral, hd, Option.map_some]⟩

theorem hasKey_number_iff {freetext : Bool} {e : Entry} {o : Node} {sc : ObjectScan} (ho : e.statement.object = some o)
    (hsc : scanObject ext freetext e.errno o = some sc) {t : Index} (ht : t.isNumber = true) (k : Bytes) :
    e.HasKey ext freetext t k ↔ (t, k) ∈ sc.others := by
  have hiff : (∃ o sc, e.statement.object = some o ∧ scanObject ext freetext e.errno o = some sc ∧
      (t, k) ∈ sc.others) ↔ (t, k) ∈ sc.others := by
    constructor
    · rintro ⟨o', sc', ho', hsc', hmem⟩
      cases ho.symm.trans ho'
      cases hsc.symm.trans hsc'
      exact hmem
    · exact fun hmem => ⟨o, sc, ho, hsc, hmem⟩
  cases t with
  | xsdInteger => exact hiff
  | xsdDouble => exact hiff
  | _ => cases ht

/-- The same statement with the `errno` that its scan left has the same keys. -/
theorem LaterEntry.hasKey_again {freetext : Bool} {e e' : Entry} (h : LaterEntry e e') {o : Node} {sc : ObjectScan}
    (ho : e.statement.object = some o) (hsc : scanObject ext freetext e.errno o = some sc)
    (herrno : e'.errno = sc.errno) {t : Index} (hw : t ≠ .windex) (k : Bytes) :
    e'.HasKey ext freetext t k ↔ e.HasKey ext freetext t k := by
  cases ht : t.isNumber with
  | false => exact (h.hasKey_iff ht hw).symm
  | true =>
    have hobjects := h.objects
    rw [ho, Option.map_some] at hobjects
    obtain ⟨o', ho', hcontent⟩ := Option.map_eq_some_iff.1 hobjects.symm
    obtain ⟨sc', hsc', hothers⟩ := scanObject_again hsc
    rw [← scanObject_congr hcontent, ← herrno] at hsc'
    rw [hasKey_number_iff ho' hsc' ht, hasKey_number_iff ho hsc ht, hothers]

/-! ## The objects of the second call -/

section

variable {me : Store} {st : Statement} {given : Option Resource} {f : Frame}

theorem MayCache.or {a a' b b' : Option Resource} (ha : MayCache (Resource.cacheHash ext) a a')
    (hb : MayCache (Resource.cacheHash ext) b b') : MayCache (Resource.cacheHash ext) (a.or b) (a'.or b') := by
  cases a with
  | some r =>
    rcases ha with rfl | rfl
    · exact Or.inl rfl
    · exact Or.inr rfl
  | none =>
    have hnone : a' = none := by rcases ha with rfl | rfl <;> rfl
    rw [hnone, Option.none_or, Option.none_or]
    exact hb

theorem MayCache.fresh {r r' : Option Resource} (h : MayCache (Resource.cacheHash ext) r r')
    (hfresh : ∀ x, r = some x → x.Fresh ext) : ∀ x, r' = some x → x.Fresh ext := by
  rintro x rfl
  rcases h with h | h
  · exact hfresh x h.symm
  · obtain ⟨y, hy, rfl⟩ := Option.map_eq_some_iff.1 h.symm
    exact (hfresh y hy).cacheHash

theorem cachedContext_mayCache (me : Store) (st : Statement) (given : Option Resource) :
    MayCache (Resource.cacheHash ext) me.context (cachedContext ext me st given) := by
  unfold cachedContext
  split
  · next h => exact Or.inr (by rw [h]; rfl)
  · exact Or.inl rfl

theorem Node.Fresh.cacheHash {n : Node} (h : n.Fresh ext) : (n.cacheHash ext).Fresh ext := by
  refine Or.inr ?_
  rw [h.cacheHash_right]
  exact objectHash_congr (content_node_cacheHash n).symm

/-- The hash codes that a call leaves in its objects are right for the next one. -/
theorem FreshCall.after (hfresh : FreshCall ext me st given) (h : CallOutcome ext me st given f)
    (hdefault : MayCache (Resource.cacheHash ext) me.context f.me.context) :
    FreshCall ext f.me f.statement f.givenContext := by
  have hnodes := h.nodesCached
  have hcontent := h.objects.content_eq
  have hhash : (callUse f.me f.statement f.givenContext).hash ext = (callUse me st given).hash ext :=
    statementHash_congr hcontent
  refine ⟨?_, hnodes.subject.fresh hfresh.subject, hnodes.predicate.fresh hfresh.predicate, ?_,
    ((hnodes.givenContext.or hnodes.context).or hdefault).fresh hfresh.context⟩
  · show _ ∨ _ = (callUse f.me f.statement f.givenContext).hash ext
    rw [hhash]
    rcases h.objects.hashcode with hcode | hcode
    · rw [hcode]
      exact hfresh.statement
    · rw [hcode]
      exact Or.inr (callHash_eq hfresh.statement)
  · intro o ho
    rcases hnodes.object with hobject | hobject
    · exact hfresh.object o (hobject.symm.trans ho)
    · obtain ⟨o', ho', rfl⟩ := Option.map_eq_some_iff.1 (hobject.symm.trans ho)
      exact (hfresh.object o' ho').cacheHash

end

/-! ## Insert, then remove -/

variable (ext) in
/-- A new statement that insert takes: its parts are there, parse type and datatype agree, a date has a
string, and there is a number left for it. -/
structure Insertable (me : Store) (st : Statement) (given : Option Resource) (a : Args) : Prop where
  args : checkArgs st given = some a
  typed : parseTypeMismatch a.object = false
  dated : ∀ l, a.object = .literal l → l.dtBytes = xsdDateUri ∨ l.dtBytes = xsdDateTimeUri → l.string.isSome = true
  room : (me.counter + 1).toNat ≤ maxRecords
  new : ¬ IsMember ext me (callUse me st given)

variable (ext) in
/-- The tables of two stores decode to the same ids under the same keys. -/
structure SameIndexes (me me' : Store) : Prop where
  nodes : ∀ k, rdfstoreFlatStoreFetch me'.nodes k = rdfstoreFlatStoreFetch me.nodes k
  statements : ∀ k, rdfstoreFlatStoreFetch me'.statements k = rdfstoreFlatStoreFetch me.statements k
  keys : ∀ t k, (rdfstoreFlatStoreFetch (me'.index t) k).isSome = (rdfstoreFlatStoreFetch (me.index t) k).isSome
  ids : ∀ t k, ids ext me' t k = ids ext me t k

section

variable {now now' : Bytes} {me : Store} {st : Statement} {given : Option Resource} {a : Args}

/-- A new statement is looked for in the statements table, and not found. -/
theorem Insertable.not_exists (h : Insertable ext me st given a) (hfresh : FreshCall ext me st given) :
    rdfstoreFlatStoreExists me.statements (hashKey (callHash ext me st given)) = false := by
  rw [callHash_eq hfresh.statement]
  exact Bool.eq_false_iff.2 h.new

/-- Inserting comes back. -/
theorem insert_returns (now : Bytes) (hl : ext.Lossless) (hok : TablesOk ext me)
    (hroom : me.counter.toNat ≤ maxRecords) (h : Insertable ext me st given a) :
    ∃ r f, rdfstoreInsert ext now me st given = some (r, f) := by
  cases hcall : rdfstoreInsert ext now me st given with
  | some x => exact ⟨x.1, x.2, rfl⟩
  | none =>
    obtain ⟨sc, hsc⟩ := scanObject_isSome me.freetext me.errno h.dated
    have hsucc := toNat_succ_counter hroom
    have hmax := h.room
    have hok₁ : TablesOk ext { me with counter := me.counter + 1 } := hok.congr rfl
    obtain ⟨me₁, htables, -⟩ := insertTables_adds hl hok₁ (by omega : me.counter.toNat < maxRecords) a st
      (effectiveContext me st given) hsc
    unfold rdfstoreInsert at hcall
    simp only [h.args, UInt32.add_sub_cancel, htables] at hcall
    split_ifs at hcall

/-- Inserting a new statement goes all the way, and leaves the `errno` of its scan. -/
theorem InsertCase.insertable {r : Int} {me' : Store} (hcase : InsertCase ext now me st given r me')
    (hl : ext.Lossless) (hok : TablesOk ext me) (hroom : me.counter.toNat ≤ maxRecords)
    (hfresh : FreshCall ext me st given) (h : Insertable ext me st given a) :
    r = 0 ∧ (∃ sc, scanObject ext me.freetext me.errno a.object = some sc ∧ me'.errno = sc.errno) ∧
      me'.context = cachedContext ext me st given := by
  have hnew := h.not_exists hfresh
  have hmax := h.room
  cases hcase with
  | badArgs hargs =>
    rw [h.args] at hargs
    cases hargs
  | present a' hargs hin =>
    rw [hnew] at hin
    cases hin
  | full a' hargs hout hfull => exact absurd hfull (Nat.not_lt_of_le hmax)
  | mismatch a' hargs hout hroom' hmis =>
    rw [h.args] at hargs
    cases hargs
    rw [h.typed] at hmis
    cases hmis
  | stored a' hargs hout hroom' hmis me₁ htables =>
    rw [h.args] at hargs
    cases hargs
    have hsucc := toNat_succ_counter hroom
    have hok₁ : TablesOk ext { me with counter := me.counter + 1 } := hok.congr rfl
    obtain ⟨sc, hsc, herrno, hadds⟩ := insertTables_spec hl hok₁ (by omega) a st _ htables
    have hcontext : me₁.context = me.context := hadds.rest.context
    refine ⟨rfl, ⟨sc, hsc, herrno⟩, ?_⟩
    show cachedContext ext me₁ st given = _
    unfold cachedContext
    rw [hcontext]

theorem RemoveCase.status {r : Int} {me' : Store} (hcase : RemoveCase ext now me st given r me')
    (hargs : checkArgs st given = some a) : r = 0 ∨ r = 1 := by
  cases hcase with
  | badArgs hbad =>
    rw [hargs] at hbad
    cases hbad
  | halfWay _ _ _ _ _ _ _ _ htables => exact Or.inr (removeTables_ret htables).1
  | removed => exact Or.inl rfl
  | _ => exact Or.inr rfl

/-- Removing a statement whose id is under all its keys comes back. -/
theorem remove_returns (now : Bytes) (hl : ext.Lossless) (hok : TablesOk ext me) (hargs : checkArgs st given = some a)
    {i : Nat} (hi : i < maxRecords)
    (hin : rdfstoreFlatStoreFetch me.statements (hashKey (callHash ext me st given)) = some (packInt i))
    {sc : ObjectScan} (hsc : scanObject ext me.freetext me.errno a.object = some sc)
    (hmem : ∀ t k, (t, k) ∈ adjacencyKeys ext a (effectiveContext me st given) ++ sc.others → i ∈ ids ext me t k) :
    ∃ r f, rdfstoreRemove ext now me st given = some (r, f) := by
  cases hcall : rdfstoreRemove ext now me st given with
  | some x => exact ⟨x.1, x.2, rfl⟩
  | none =>
    have hmax := maxRecords_lt
    have hid : unpackInt (packInt i) = i := unpackInt_packInt_of_lt (by omega)
    have htables : ∀ nodes, ∃ me₁, removeTables ext { me with nodes, context := cachedContext ext me st given } a
        (effectiveContext me st given) i = .ok me₁ := by
      intro nodes
      have hok₁ : TablesOk ext { me with nodes, context := cachedContext ext me st given } := hok.congr rfl
      obtain ⟨me₁, h₁, -⟩ := removeTables_spec hl hok₁ hi a (effectiveContext me st given) hsc hmem
      exact ⟨me₁, h₁⟩
    have hin' : rdfstoreFlatStoreFetch me.statements
        (hashKey (rdfstoreDigestGetStatementHashCode ext st (effectiveContext me st given))) = some (packInt i) := hin
    unfold rdfstoreRemove at hcall
    simp only [hargs, hin', hid] at hcall
    split at hcall
    · cases hcall
    · next nodes hnodes =>
      obtain ⟨me₁, h₁⟩ := htables nodes
      simp only [cacheNodeHashes_me, cacheStatementHash_givenContext, cachedContext_cacheStatementHash] at hcall
      split at hcall
      · next habort =>
        have hcontra := habort.symm.trans h₁
        cases hcontra
      · cases hcall
      · split at hcall <;> cases hcall

/-- Taking out what was put in under an id that nobody had. -/
theorem Stored.undone (hl : ext.Lossless) {me₁ me₂ : Store} {e e' : Entry} {i : Nat} (hgiven : IdsGivenOut ext me)
    (hi : me.counter.toNat ≤ i) (hi32 : i < 2 ^ 32) (hs : Stored ext me me₁ i e) (hr : Removed ext me₁ me₂ i e' [])
    (hnew : rdfstoreFlatStoreFetch me.statements (hashKey (e.use.hash ext)) = none)
    (hhash : e'.use.hash ext = e.use.hash ext)
    (hkey : ∀ t k, t ≠ .windex → (e'.HasKey ext me₁.freetext t k ↔ e.HasKey ext me.freetext t k))
    (hwindex : ∀ k, ¬ e.HasKey ext me.freetext .windex k) : SameIndexes ext me me₂ := by
  have hfree : rdfstoreFlatStoreFetch me.nodes (packInt i) = none := by
    by_contra hsome
    obtain ⟨j, hj, hpack⟩ := hgiven.nodes (packInt i) (Option.isSome_iff_ne_none.2 hsome)
    have heq := packInt_inj hi32 (by omega) hpack
    omega
  have hids : ∀ t k, ids ext me₂ t k = ids ext me t k := by
    intro t k
    ext j
    by_cases ht : t = .windex
    · subst ht
      rw [hr.windexed, List.foldl_nil, hs.indexed]
      exact or_iff_right fun hj => hwindex k hj.2
    · have hold : j ∈ ids ext me t k → j ≠ i := fun hj heq => by
        have hlt := hgiven.under.lt t k j hj
        omega
      rw [hr.indexed t k j ht, hs.indexed, hkey t k ht]
      constructor
      · rintro ⟨hput | hj, hnot⟩
        · exact absurd hput hnot
        · exact hj
      · exact fun hj => ⟨Or.inr hj, fun hput => hold hj hput.1⟩
  refine ⟨fun k => ?_, fun k => ?_, fun t k => ?_, hids⟩
  · rw [hr.nodes, hs.nodes]
    split
    · next hk => rw [hk, hfree]
    · rfl
  · rw [hr.statements, hs.statements, hhash]
    split
    · next hk => rw [hk, hnew]
    · rfl
  · rw [Bool.eq_iff_iff, fetch_isSome_iff hl hr.tables, fetch_isSome_iff hl hgiven.under.tables, hids]

/-- In a reached store, a new statement that is inserted and removed again leaves nothing behind: both
calls answer 0, every table has the entries that it had, and the size is what it was. -/
theorem insert_remove (hl : ext.Lossless) (hreached : ReachedStore ext me) (hfree : me.freetext = false)
    (hfresh : FreshCall ext me st given) (h : Insertable ext me st given a) :
    ∃ f f', rdfstoreInsert ext now me st given = some (0, f) ∧
      rdfstoreRemove ext now' f.me f.statement f.givenContext = some (0, f') ∧
      SameIndexes ext me f'.me ∧ rdfstoreSize f'.me = rdfstoreSize me := by
  have hgiven := hreached.idsGivenOut hl
  have hroom := hreached.idsIssued.counter
  have hmax := maxRecords_lt
  -- the insert
  obtain ⟨r, f, hinsert⟩ := insert_returns now hl hgiven.under.tables hroom h
  have hcase := rdfstoreInsert_cases hinsert
  obtain ⟨rfl, ⟨sc, hsc, herrno⟩, hcontext⟩ := hcase.insertable hl hgiven.under.tables hroom hfresh h
  have hs := hcase.stored_spec hl hgiven.under.tables hroom hfresh
  have hlt : me.counter.toNat < maxRecords := by
    have hle := hs.room
    rw [hs.counter] at hle
    omega
  -- the objects of the remove
  have houtcome := rdfstoreInsert_outcome hinsert
  have hfresh' : FreshCall ext f.me f.statement f.givenContext := by
    refine hfresh.after houtcome ?_
    rw [hcontext]
    exact cachedContext_mayCache me st given
  have hcontent := houtcome.objects.content_eq
  have hhash : (callUse f.me f.statement f.givenContext).hash ext = (callUse me st given).hash ext :=
    statementHash_congr hcontent
  have hlater : LaterEntry (Entry.ofCall me st given) (Entry.ofCall f.me f.statement f.givenContext) :=
    ⟨hcontent.symm, hs.errno⟩
  have hkey : ∀ t k, t ≠ .windex → ((Entry.ofCall f.me f.statement f.givenContext).HasKey ext f.me.freetext t k ↔
      (Entry.ofCall me st given).HasKey ext me.freetext t k) := by
    intro t k ht
    rw [hs.freetext]
    exact hlater.hasKey_again (checkArgs_eq_some h.args).2.2 hsc herrno ht k
  have hin : rdfstoreFlatStoreFetch f.me.statements
      (hashKey ((callUse f.me f.statement f.givenContext).hash ext)) = some (packInt me.counter.toNat) := by
    rw [hs.statements, hhash]
    exact if_pos rfl
  have hput : ∀ t k, t ≠ .windex → (Entry.ofCall f.me f.statement f.givenContext).HasKey ext f.me.freetext t k →
      me.counter.toNat ∈ ids ext f.me t k := fun t k ht hk =>
    (hs.indexed t k _).2 (Or.inl ⟨rfl, (hkey t k ht).1 hk⟩)
  have hnode : (rdfstoreFlatStoreFetch f.me.nodes (packInt me.counter.toNat)).isSome := by
    rw [hs.nodes, if_pos rfl]
    exact hs.recorded
  -- its arguments and its scan
  have hsome : (checkArgs f.statement f.givenContext).isSome := by
    rw [checkArgs_isSome_congr houtcome.objects.same, h.args]
    rfl
  obtain ⟨a', hargs'⟩ := Option.isSome_iff_exists.1 hsome
  have hobjects := hlater.objects
  have ho : (Entry.ofCall me st given).statement.object = some a.object := (checkArgs_eq_some h.args).2.2
  have ho' : (Entry.ofCall f.me f.statement f.givenContext).statement.object = some a'.object :=
    (checkArgs_eq_some hargs').2.2
  rw [ho, ho', Option.map_some, Option.map_some] at hobjects
  obtain ⟨sc', hsc', -⟩ := scanObject_again hsc
  rw [scanObject_congr (Option.some.inj hobjects), ← herrno, ← hs.freetext] at hsc'
  -- the remove
  have hmem : ∀ t k, (t, k) ∈ adjacencyKeys ext a' (effectiveContext f.me f.statement f.givenContext) ++ sc'.others →
      me.counter.toNat ∈ ids ext f.me t k := by
    intro t k hk
    have hhas := (Entry.hasKey_ofCall hfresh' hargs' hsc' t k).2 (by
      simp only [List.mem_append] at hk ⊢
      tauto)
    refine hput t k ?_ hhas
    rintro rfl
    rcases List.mem_append.1 hk with hk | hk
    · simp [adjacencyKeys, mem_optKey] at hk
    · exact windex_notMem_others hsc' k hk
  have hin' : rdfstoreFlatStoreFetch f.me.statements (hashKey (callHash ext f.me f.statement f.givenContext)) =
      some (packInt me.counter.toNat) := by
    rw [callHash_eq hfresh'.statement]
    exact hin
  obtain ⟨r, f', hremove⟩ := remove_returns now' hl hs.tables hargs' hlt hin' hsc' hmem
  have hcase' := rdfstoreRemove_cases hremove
  obtain ⟨rfl, hr⟩ := hcase'.removed_spec hl hs.tables hfresh' hlt hin hnode
    (fun a₁ hargs₁ => by
      cases hargs'.symm.trans hargs₁
      rw [hsc']
      rfl) hput (hcase'.status hargs')
  have hfree' : f.me.freetext = false := hs.freetext.trans hfree
  rw [callWindexKeys_of_freetext hfree'] at hr
  refine ⟨f, f', hinsert, hremove, ?_, ?_⟩
  · refine hs.undone hl hgiven (Nat.le_refl _) me.counter.toNat_lt hr ?_ hhash hkey fun k hk => ?_
    · have hnone := h.new
      rw [IsMember, exists_eq_isSome, Bool.not_eq_true, Option.isSome_eq_false_iff, Option.isNone_iff_eq_none] at hnone
      exact hnone
    · rw [← mem_callWindexKeys, callWindexKeys_of_freetext hfree] at hk
      cases hk
  · have hcounter : f.me.counter = me.counter + 1 := by
      apply UInt32.toNat_inj.1
      rw [hs.counter, toNat_succ_counter hroom]
    have hcancel : ∀ c d : UInt32, (c + 1) - (d + 1) = c - d := fun c d => by grind
    rw [rdfstoreSize, hr.counter, hr.counterRemoved, hs.counterRemoved, hcounter, hcancel]
    rfl

end

end

/-! ## Two statements -/

/-- The literal `12` in a context of its own. -/
def twelveStatement : Statement :=
  { triple (uri 97) (uri 98) (.literal { plainLiteral 49 with string := some ⟨[49, 50], by decide⟩ }) with
    context := some (uri 100) }

theorem insert_remove_twelve :
    ∃ f f', rdfstoreInsert asciiExternals [] (rdfstoreConnect false false []) twelveStatement none = some (0, f) ∧
      rdfstoreRemove asciiExternals [] f.me f.statement f.givenContext = some (0, f') ∧
      SameIndexes asciiExternals (rdfstoreConnect false false []) f'.me ∧
      rdfstoreSize f'.me = rdfstoreSize (rdfstoreConnect false false []) := by
  have hfresh : FreshCall asciiExternals (rdfstoreConnect false false []) twelveStatement none := by
    refine ⟨Or.inl rfl, fun s hs => ?_, fun p hp => ?_, fun o ho => ?_, fun c hc => ?_⟩
    · cases hs; exact Or.inl rfl
    · cases hp; exact Or.inl rfl
    · cases ho; exact Or.inl rfl
    · cases hc; exact Or.inl rfl
  have hinsertable : Insertable asciiExternals (rdfstoreConnect false false []) twelveStatement none
      ⟨uri 97, uri 98, .literal { plainLiteral 49 with string := some ⟨[49, 50], by decide⟩ }⟩ := by
    refine ⟨rfl, rfl, fun l hl _ => ?_, by decide, by simp [IsMember, exists_eq_isSome, rdfstoreConnect]⟩
    cases hl
    rfl
  exact insert_remove asciiExternals_lossless (ReachedStore.connect false false []) rfl hfresh hinsertable

/-- A literal whose datatype is XMLLiteral but which was built with parse type 0 is refused: -1 and not 0,
in an empty store. -/
theorem insert_remove_xmlLiteral :
    ReachedStore asciiExternals (rdfstoreConnect false false []) ∧
      FreshCall asciiExternals (rdfstoreConnect false false []) xmlLiteralStatement none ∧
      ¬ IsMember asciiExternals (rdfstoreConnect false false [])
        (callUse (rdfstoreConnect false false []) xmlLiteralStatement none) ∧
      (checkArgs xmlLiteralStatement none).isSome = true ∧
      (rdfstoreInsert asciiExternals [] (rdfstoreConnect false false []) xmlLiteralStatement none).map (·.1) =
        some (-1) := by
  refine ⟨ReachedStore.connect false false [], ⟨Or.inl rfl, fun s hs => ?_, fun p hp => ?_, fun o ho => ?_, nofun⟩,
    by simp [IsMember, exists_eq_isSome, rdfstoreConnect], rfl, by decide⟩
  · cases hs; exact Or.inl rfl
  · cases hp; exact Or.inl rfl
  · cases ho; exact Or.inl rfl

end RdfStore
