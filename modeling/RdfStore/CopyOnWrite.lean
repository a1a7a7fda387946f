import RdfStore.InsertRemove
import RdfStore.IteratorMembers
import RdfStore.NTriples.Reader
import RdfStore.StatementRecord

/-!
# Copy on write (`RDFStore::Model::_copyOnWrite`)

A derived model shares the statements of another one until the first write.  Then
it goes through its elements, has the factory make each statement anew out of the
labels that Perl sees, and adds it to a store of its own, which is empty but may
have a default context.

    contents of the copy = contents of what the model shows                  (copyOnWrite_run)
    after add: in the iterator, or in the copy of what the model shows       (add_run)
-/

namespace RdfStore

open ByteMem NTriples

/-! ## A statement through Perl -/

/-- A resource that the factory makes of the label of another one; what Perl sees of a label ends at a NUL. -/
def recreateResource (r : Resource) : Option Resource :=
  if r.bnode then createbNode (cstr r.bytes) else createResource (cstr r.bytes)

/-- The same for an object: a literal with its parse type, language and datatype. -/
def recreateNode : Node → Option Node
  | .resource r => (recreateResource r).map .resource
  | .literal l => createLiteral (cstr l.bytes) (if l.parseType = .literal then 1 else 0) l.lang.bytes l.dtBytes

/-- Nodes whose labels come back from Perl as they were. -/
structure Resource.Text (r : Resource) : Prop where
  nonempty : r.bytes ≠ []
  noNul : 0 ∉ r.bytes
  isTrue : r.bnode = false → r.bytes ≠ ascii "0"

def Node.Text : Node → Prop
  | .resource r => r.Text
  | .literal l => l.Built ∧ (Node.literal l).ParseTypeKept ∧ 0 ∉ l.bytes

def Resource.uncached (r : Resource) : Resource := { r with hashcode := 0 }

def Node.uncached : Node → Node
  | .resource r => .resource r.uncached
  | .literal l => .literal { l with hashcode := 0 }

theorem Node.uncached_content (n : Node) : n.uncached.content = n.content := by
  cases n <;> rfl

theorem CString.ofBytes_bytes (s : CString) : CString.ofBytes s.bytes = some s := by
  have hcstr : cstr s.bytes = s.bytes := cstr_of_not_mem s.noNul
  have hfits : (cstr s.bytes).length < 2 ^ 31 := by rw [hcstr]; exact s.fits
  rw [CString.ofBytes, dif_pos hfits]
  exact congrArg some (CString.ext hcstr)

theorem CBuf.ofBytes_label (b : CBuf) (h0 : 0 ∉ b.bytes) : CBuf.ofBytes (cstr (cstr b.bytes)) = some b := by
  rw [cstr_of_not_mem h0, cstr_of_not_mem h0, CBuf.ofBytes, dif_pos b.fits]

theorem CBuf.nonEmpty_some {b : CBuf} (h : b.bytes ≠ []) : CBuf.nonEmpty (some b) = some b := by
  rw [CBuf.nonEmpty, Option.filter_some, if_pos (by simpa using List.length_pos_iff.2 h)]

theorem Resource.Text.recreate {r : Resource} (h : r.Text) : recreateResource r.fetched = some r.uncached := by
  obtain ⟨identifier, bnode, hashcode⟩ := r
  cases identifier with
  | none => exact absurd rfl h.nonempty
  | some b =>
    have hne : b.bytes ≠ [] := h.nonempty
    have h0 : 0 ∉ b.bytes := h.noNul
    unfold recreateResource
    cases bnode with
    | true =>
      show createbNode (cstr b.bytes) = _
      rw [createbNode, CBuf.ofBytes_label b h0, rdfstoreResourceNew, if_neg (by decide), CBuf.nonEmpty_some hne]
      rfl
    | false =>
      have htrue : ¬ (cstr b.bytes = [] ∨ cstr b.bytes = ascii "0") := by
        rw [cstr_of_not_mem h0]
        exact not_or.2 ⟨hne, h.isTrue rfl⟩
      show createResource (cstr b.bytes) = _
      rw [createResource, if_neg htrue, CBuf.ofBytes_label b h0, rdfstoreResourceNew, if_neg (by decide),
        CBuf.nonEmpty_some hne]
      rfl

/-- What the constructor sees to. -/
structure Literal.Proper (l : Literal) : Prop where
  string : CBuf.nonEmpty l.string = l.string
  lang : l.lang.bytes.length ≤ maxLangLength
  dataType : CString.nonEmpty l.dataType = l.dataType
  parseType : l.parseType = .literal → l.dataType = some xmlLiteral

theorem Literal.Built.proper {l : Literal} (h : l.Built) : l.Proper := by
  obtain ⟨string, parseType, lang, dt, l₀, hnew, hl⟩ := h
  unfold rdfstoreLiteralNew at hnew
  split at hnew
  · cases hnew
  split at hnew
  · cases hnew
  split at hnew
  · cases hnew
  next hlang =>
    cases hnew
    rw [hl]
    refine ⟨?_, ?_, ?_, fun hliteral => ?_⟩
    · simp [CBuf.nonEmpty]
    · cases hlast : CString.nonEmpty lang with
      | none => exact Nat.zero_le _
      | some s => exact not_lt.1 fun hlong => hlang ⟨s, hlast, hlong⟩
    · simp [CString.nonEmpty]
    · by_cases hone : parseType = 1
      · simp only [hone, if_true]
        rfl
      · simp [hone] at hliteral

theorem Literal.Proper.string_again {l : Literal} (h : l.Proper) (h0 : 0 ∉ l.bytes) :
    CBuf.nonEmpty (CBuf.ofBytes (cstr (cstr l.bytes))) = l.string := by
  have hstring := h.string
  unfold Literal.bytes at h0 ⊢
  cases hs : l.string with
  | none => rfl
  | some b =>
    rw [hs] at hstring h0
    show CBuf.nonEmpty (CBuf.ofBytes (cstr (cstr b.bytes))) = some b
    rw [CBuf.ofBytes_label b h0, hstring]

theorem Literal.Proper.dataType_again {l : Literal} (h : l.Proper) :
    CString.nonEmpty (CString.ofBytes l.dtBytes) = l.dataType := by
  have hdt := h.dataType
  unfold Literal.dtBytes
  cases hd : l.dataType with
  | none => rfl
  | some d =>
    rw [hd] at hdt
    show CString.nonEmpty (CString.ofBytes d.bytes) = some d
    rw [CString.ofBytes_bytes, hdt]

theorem CString.nonEmpty_getD (s : CString) : (CString.nonEmpty (some s)).getD CString.empty = s := by
  rw [CString.nonEmpty, Option.filter_some]
  split
  · rfl
  · next h => exact CString.ext (by simpa [CString.empty, eq_comm] using h)

/-- What `rdfstore_literal_new` makes of a literal that it has made. -/
theorem Literal.Proper.again {l : Literal} (h : l.Proper) (h0 : 0 ∉ l.bytes) :
    rdfstoreLiteralNew (CBuf.ofBytes (cstr (cstr l.bytes))) (if l.parseType = .literal then 1 else 0)
      (CString.ofBytes l.lang.bytes) (CString.ofBytes l.dtBytes) = some { l with hashcode := 0 } := by
  have hlang : ¬ ∃ s ∈ CString.nonEmpty (some l.lang), maxLangLength < s.bytes.length := by
    rintro ⟨s, hs, hlong⟩
    have hs := (Option.filter_eq_some_iff.1 hs).1
    cases hs
    exact absurd h.lang (not_le.2 hlong)
  unfold rdfstoreLiteralNew
  rw [h.string_again h0, h.dataType_again, CString.ofBytes_bytes, CString.nonEmpty_getD]
  obtain ⟨string, parseType, lang, dataType, hashcode⟩ := l
  cases parseType with
  | literal =>
    have hdt : dataType = some xmlLiteral := h.parseType rfl
    subst hdt
    rw [if_neg, if_neg (by simp), if_neg hlang]
    · rfl
    · rintro ⟨-, d, hd, hne⟩
      cases hd
      exact hne rfl
  | normal =>
    rw [if_neg (by simp), if_neg (by simp), if_neg hlang]
    show some (Literal.mk string .normal lang (CString.nonEmpty (CString.ofBytes _)) 0) = _
    rw [h.dataType_again]

theorem Node.Text.recreate {n : Node} (h : n.Text) : recreateNode n.fetched = some n.uncached := by
  cases n with
  | resource r =>
    show (recreateResource r.fetched).map Node.resource = _
    rw [Resource.Text.recreate h]
    rfl
  | literal l =>
    obtain ⟨hbuilt, hkept, h0⟩ := h
    have hparse : l.fetched.parseType = l.parseType :=
      (NodeFields.literal.inj ((Node.Built.fetched_iff (n := .literal l) hbuilt).2 hkept)).2.2.2
    show createLiteral (cstr l.fetched.bytes) (if l.fetched.parseType = .literal then 1 else 0) l.fetched.lang.bytes
      l.fetched.dtBytes = _
    rw [hparse, l.fetched_dtBytes]
    exact congrArg (Option.map Node.literal) (hbuilt.proper.again h0)

section

variable (ext : Externals)

/-- `RDFStore::Model::Iterator::next` and `first` on a statement of the store; `none` is undef. -/
def recreateStatement (st : Statement) : Option Statement :=
  rdfstoreStatementNew ext (st.subject.bind recreateResource) (st.predicate.bind recreateResource)
    (st.object.bind recreateNode) (st.context.bind recreateResource) none 0

/-! ## The copy -/

/-- `{rdfstore}->insert` of parts and a context: a statement without context is made of the parts. -/
def insertParts (now : Bytes) (me : Store) (s p : Resource) (o : Node) (context : Option Resource) :
    Option (Int × Store) :=
  (rdfstoreStatementNew ext (some s) (some p) (some o) none none 0).bind fun st =>
    (rdfstoreInsert ext now me st context).map fun x => (x.1, x.2.me)

/-- `add` of what the iterator returns, on a model that does not share any more; `none` is a croak or a crash.
The answer of the insert is not looked at. -/
def addNext (now : Bytes) (me : Store) (s : Option Statement) : Option Store := do
  let ss ← s.bind (recreateStatement ext)
  let x ← insertParts ext now me (← ss.subject) (← ss.predicate) (← ss.object) ss.context
  some x.2

/-- `for ($ss = $shares->first; $shares->hasnext; $ss = $shares->next) { $class->add($ss) }`, at the times of
`clock`; `none` also when the fuel is used up. -/
def copyLoop (store : Store) (clock : Nat → Bytes) : Nat → Cursor × Option Statement → Nat → Store → Option Store
  | 0, _, _, _ => none
  | fuel + 1, r, n, me =>
    if rdfstoreIteratorHasnext r.1 then
      (addNext ext (clock n) me r.2).bind (copyLoop store clock fuel (rdfstoreIteratorNext store r.1) (n + 1))
    else some me

variable (walk : ∀ db : FlatDb, KeyWalk db)

/-- `_copyOnWrite`: the store of the model itself, from what it is before; a model that shares with none has
nothing to copy. -/
def Models.copyOnWrite (ms : Models) (ids : Buf) (clock : Nat → Bytes) (own : Store) (i : Nat) : Option Store :=
  (ms.objects[i]?).bind fun m =>
    match m.shared with
    | none => some own
    | some _ =>
      (ms.elements walk ids ms.objects.length i).bind fun shares =>
        copyLoop ext ms.me clock (shares.size + 2) (rdfstoreIteratorFirst ms.me shares) 0 own

/-- `add` of a statement given by its parts to a model, and the store of the model itself afterwards: none as long as
it shares.  "simply use the iterator we got from last query to quickly (??) check whether or not the st_id exists in
the rdfstore". -/
def Models.add (ms : Models) (ids : Buf) (clock : Nat → Bytes) (now : Bytes) (own : Store) (i : Nat) (s p : Resource)
    (o : Node) (context : Option Resource) : Option (Int × Option Store) :=
  (ms.objects[i]?).bind fun m =>
    let inserted (own : Store) :=
      (insertParts ext now own s p o context).map fun x => ((if x.1 = 0 then 1 else 0 : Int), some x.2)
    match m.shared with
    | none => inserted own
    | some _ =>
      let contained (c : Cursor) := (rdfstoreStatementNew ext (some s) (some p) (some o) none none 0).any fun st =>
        decide ((rdfstoreIteratorContains ext ms.me c.toIterator st context).1 ≠ 0)
      if m.queryIterator.any contained then some (0, none)
      else (ms.copyOnWrite ext walk ids clock own i).bind inserted

/-- The loop with the statements laid out. -/
def copyAll (clock : Nat → Bytes) : List (Option Statement) → Nat → Store → Option Store
  | [], _, me => some me
  | s :: l, n, me => (addNext ext (clock n) me s).bind (copyAll clock l (n + 1))

variable {ext}

theorem copyLoop_eq (store : Store) (clock : Nat → Bytes) (fuel : Nat) (r : Cursor × Option Statement) (n : Nat)
    (me : Store) {l : List (Option Statement)} {me' : Cursor} (h : forStatements store fuel r = some (l, me')) :
    copyLoop ext store clock fuel r n me = copyAll ext clock l n me := by
  induction fuel generalizing r n me l with
  | zero => cases h
  | succ fuel ih =>
    rw [forStatements] at h
    rw [copyLoop]
    split
    · next hhas =>
      rw [if_pos hhas] at h
      obtain ⟨⟨l', c⟩, hrest, hl⟩ := Option.map_eq_some_iff.1 h
      cases hl
      rw [copyAll]
      exact congrArg _ (funext fun me => ih _ (n + 1) me hrest)
    · next hhas =>
      rw [if_neg hhas] at h
      cases h
      rfl

end

/-! ## What is copied -/

/-- A content in its own context, or in the default one. -/
def StatementContent.inContext (c : StatementContent) (default : Option ResourceContent) : StatementContent :=
  { c with context := c.context.or default }

/-- The contents of the statements that live. -/
def History.contents (h : History) : Set StatementContent := {c | ∃ i e, h.live i = some e ∧ e.content = c}

/-- The contents of the statements under some ids, put in a default context. -/
def History.copied (h : History) (s : Set Nat) (default : Option ResourceContent) : Set StatementContent :=
  {c | ∃ i ∈ s, ∃ e, h.live i = some e ∧ e.content.inContext default = c}

/-- An entry all nodes of which come back from Perl. -/
structure Entry.Text (e : Entry) : Prop where
  subject : ∀ s ∈ e.statement.subject, s.Text
  predicate : ∀ p ∈ e.statement.predicate, p.Text
  object : ∀ o ∈ e.statement.object, o.Text
  context : ∀ c ∈ e.context, c.Text

/-- A statement that was made of its parts. -/
def partsStatement (s p : Resource) (o : Node) : Statement := ⟨some s, some p, some o, none, none, 0, false⟩

theorem Entry.record_isSome {e : Entry} (h : e.record.isSome) :
    ∃ s p o, e.statement.subject = some s ∧ e.statement.predicate = some p ∧ e.statement.object = some o ∧
      e.record = some (statementRecord ⟨s, p, o⟩ e.statement e.context) := by
  unfold Entry.record at h ⊢
  split at h
  · next s p o hs hp ho => exact ⟨s, p, o, hs, hp, ho, rfl⟩
  · cases h

theorem fetchedOptional_text {r : Option Resource} (h : ∀ c ∈ r, c.Text) :
    (fetchedOptional r).bind recreateResource = r.map Resource.uncached := by
  cases r with
  | none => rfl
  | some c =>
    have hc := h c rfl
    rw [fetchedOptional, Option.filter_some, if_pos (by simpa using hc.nonempty)]
    exact hc.recreate

section

variable {ext : Externals} {U V : Set Use} {me : Store} {h : History}

/-- A live statement as the iterator of the model returns it. -/
theorem Holds.recreated (hh : Holds ext U me h) {i : Nat} {e : Entry} (he : h.live i = some e) (htext : e.Text)
    {it : Iterator} (hit : it.size ≠ 0) :
    ∃ s p o, e.statement.subject = some s ∧ e.statement.predicate = some p ∧ e.statement.object = some o ∧
      (rdfstoreIteratorFetchStatement it me i).bind (recreateStatement ext) =
        some { partsStatement s.uncached p.uncached o.uncached with context := e.context.map Resource.uncached } := by
  obtain ⟨s, p, o, hs, hp, ho, hrecord⟩ := Entry.record_isSome (hh.recorded i e he)
  refine ⟨s, p, o, hs, hp, ho, ?_⟩
  have hnode := (hh.nodes (packInt i) _).2 ⟨i, e, he, rfl, hrecord⟩
  rw [rdfstoreIteratorFetchStatement, if_neg hit, hnode, Option.bind_some, fetchRecord_statementRecord,
    Option.bind_some]
  unfold recreateStatement fetchedStatement
  simp only [Option.bind_some, (htext.subject s hs).recreate, (htext.predicate p hp).recreate,
    (htext.object o ho).recreate, fetchedOptional_text htext.context]
  rfl

/-- A statement made of the parts of an entry and put in its context, by default in another one, has the content of
the entry there. -/
theorem partsStatement_content {e : Entry} {s p : Resource} {o : Node} (hs : e.statement.subject = some s)
    (hp : e.statement.predicate = some p) (ho : e.statement.object = some o) (default : Option Resource) :
    Use.content (partsStatement s.uncached p.uncached o.uncached, (e.context.map Resource.uncached).or default) =
      e.content.inContext (default.map Resource.content) := by
  have hcontext : e.content.context = e.context.map Resource.content := by
    show ((e.context.or e.statement.context).map Resource.content) = _
    cases hc : e.context with
    | none => rw [e.own hc]; rfl
    | some c => rfl
  have hcopied : (((e.context.map Resource.uncached).or default).or none).map Resource.content =
      (e.context.map Resource.content).or (default.map Resource.content) := by
    cases e.context <;> cases default <;> rfl
  unfold StatementContent.inContext
  rw [hcontext, ← hcopied]
  show _ = StatementContent.mk (e.statement.subject.map _) (e.statement.predicate.map _) (e.statement.object.map _) _
  rw [hs, hp, ho, Option.map_some, Option.map_some, Option.map_some, ← o.uncached_content]
  rfl

/-! ## The store of its own -/

variable (ext V) in
/-- A store with the default context `default` and at most `n` ids given out: its tables hold the history. -/
structure OwnStore (default : Option ResourceContent) (n : Nat) (me : Store) (h : History) : Prop where
  holds : Holds ext V { me with context := none } h
  context : me.context.map Resource.content = default
  fresh : ∀ c ∈ me.context, c.identifier.isSome ∧ c.Fresh ext
  counter : me.counter.toNat ≤ n

theorem OwnStore.connect (errno : Bool) (created : Bytes) {default : Option Resource}
    (hfresh : ∀ c ∈ default, c.identifier.isSome ∧ c.Fresh ext) :
    OwnStore ext V (default.map Resource.content) 0 { rdfstoreConnect false errno created with context := default }
      History.empty :=
  ⟨holds_connect V false errno created, rfl, hfresh, Nat.le_refl _⟩

/-- The context of the store decides nothing but the context of a call. -/
theorem Stored.withoutContext {me me' : Store} {i : Nat} {e : Entry} (hs : Stored ext me me' i e) :
    Stored ext { me with context := none } { me' with context := none } i e where
  tables := hs.tables.congr rfl
  context := fun _ => rfl
  freetext := hs.freetext
  errno := hs.errno
  scanned := hs.scanned
  recorded := hs.recorded
  counter := hs.counter
  room := hs.room
  counterRemoved := hs.counterRemoved
  statements := hs.statements
  nodes := hs.nodes
  indexed := hs.indexed

theorem cachedContext_default {me : Store} (st : Statement) (given : Option Resource)
    (hfresh : ∀ c ∈ me.context, c.identifier.isSome ∧ c.Fresh ext) :
    (cachedContext ext me st given).map Resource.content = me.context.map Resource.content ∧
      ∀ c ∈ cachedContext ext me st given, c.identifier.isSome ∧ c.Fresh ext := by
  unfold cachedContext
  split
  · next c _ hc =>
    obtain ⟨hid, hfresh⟩ := hfresh c hc
    rw [hc]
    refine ⟨rfl, fun c' hc' => ?_⟩
    cases hc'
    exact ⟨hid, hfresh.cacheHash⟩
  · exact ⟨rfl, hfresh⟩

theorem contents_insert {e : Entry} {i : Nat} (hfree : h.live i = none) :
    (h.insert i e).contents = insert e.content h.contents := by
  ext c
  constructor
  · rintro ⟨j, e', he', rfl⟩
    rw [live_insert] at he'
    split at he'
    · cases he'
      exact Or.inl rfl
    · exact Or.inr ⟨j, e', he', rfl⟩
  · rintro (rfl | ⟨j, e', he', rfl⟩)
    · exact ⟨i, e, by rw [live_insert, if_pos rfl], rfl⟩
    · refine ⟨j, e', ?_, rfl⟩
      rw [live_insert, if_neg, he']
      rintro rfl
      rw [hfree] at he'
      cases he'

/-- An insert into such a store: its content is among those of the store afterwards, nothing else is new, and the
answer is 0 if it was not there. -/
theorem OwnStore.afterInsert (hl : ext.Lossless) (hcol : NoCollision ext V) {default : Option ResourceContent} {n : Nat}
    (hown : OwnStore ext V default n me h) (hn : n < maxRecords) {st : Statement} {given : Option Resource} {a : Args}
    (hargs : checkArgs st given = some a) (htyped : parseTypeMismatch a.object = false)
    (hdated : ∀ l, a.object = .literal l → l.dtBytes = xsdDateUri ∨ l.dtBytes = xsdDateTimeUri →
      l.string.isSome = true)
    (hfresh : FreshCall ext me st given) (hV : callUse me st given ∈ V) (now : Bytes) :
    ∃ r f h', rdfstoreInsert ext now me st given = some (r, f) ∧ OwnStore ext V default (n + 1) f.me h' ∧
      h'.contents = insert (callUse me st given).content h.contents ∧
      (r = 0 ↔ (callUse me st given).content ∉ h.contents) := by
  obtain ⟨hholds, hcontext, hfreshc, hcounter⟩ := hown
  have hhash : callHash ext me st given = (callUse me st given).hash ext := callHash_eq hfresh.statement
  cases hin : rdfstoreFlatStoreExists me.statements (hashKey (callHash ext me st given)) with
  | true =>
    have hcall : rdfstoreInsert ext now me st given = some (1, callFrame ext me st given) := by
      unfold rdfstoreInsert
      simp only [hargs]
      exact if_pos hin
    have hme : (callFrame ext me st given).me = me := cacheStatementHash_me _ _
    have hmem : (callUse me st given).content ∈ h.contents := by
      obtain ⟨data, hdata⟩ := Option.isSome_iff_exists.1 (hin : (rdfstoreFlatStoreFetch _ _).isSome = true)
      obtain ⟨i, e, he, hkey, -⟩ := (hholds.statements _ data).1 hdata
      rw [hhash] at hkey
      have hcontent := (hcol.key_iff hV (hholds.used i e he)).1 hkey
      exact ⟨i, e, he, hcontent.symm⟩
    refine ⟨1, _, h, hcall, ?_, (Set.insert_eq_of_mem hmem).symm, iff_of_false (by decide) (not_not_intro hmem)⟩
    rw [hme]
    exact ⟨hholds, hcontext, hfreshc, hcounter.trans (Nat.le_succ n)⟩
  | false =>
    have htables : TablesOk ext me := hholds.tables.congr rfl
    have hroom : me.counter.toNat ≤ maxRecords := hcounter.trans hn.le
    have hinsertable : Insertable ext me st given a := by
      refine ⟨hargs, htyped, hdated, ?_, ?_⟩
      · rw [toNat_succ_counter hroom]
        omega
      · unfold IsMember
        rw [← hhash, hin]
        decide
    obtain ⟨r, f, hcall⟩ := insert_returns now hl htables hroom hinsertable
    have hcase := rdfstoreInsert_cases hcall
    obtain ⟨rfl, -, hcached⟩ := hcase.insertable hl htables hroom hfresh hinsertable
    have hs := hcase.stored_spec hl htables hroom hfresh
    have hdefault := cachedContext_default st given hfreshc
    rw [← hcached] at hdefault
    have hnew : ∀ i e, h.live i = some e → e.content ≠ (callUse me st given).content := by
      intro i e he hcontent
      have hkey : hashKey (callHash ext me st given) = hashKey (e.use.hash ext) := by
        rw [hhash]
        exact congrArg hashKey (statementHash_congr hcontent.symm)
      have hfetch := (hholds.statements _ (packInt i)).2 ⟨i, e, he, hkey, rfl⟩
      rw [exists_eq_isSome, hfetch] at hin
      cases hin
    have hfree : h.live me.counter.toNat = none := by
      cases hlive : h.live me.counter.toNat with
      | none => rfl
      | some e => exact absurd (hholds.lt hlive) (lt_irrefl _)
    have hstored := hholds.stored hs.withoutContext hV hnew hcol rfl
    refine ⟨0, f, _, hcall, ⟨hstored, hdefault.1.trans hcontext, hdefault.2, ?_⟩, contents_insert hfree,
      iff_of_true rfl ?_⟩
    · rw [hs.counter]
      exact Nat.succ_le_succ hcounter
    · rintro ⟨i, e, he, hcontent⟩
      exact hnew i e he hcontent

/-! ## The loop -/

theorem Resource.Text.identified {r : Resource} (h : r.Text) : r.identifier.isSome = true := by
  cases hid : r.identifier with
  | some b => rfl
  | none => exact absurd (by rw [Resource.bytes, hid]; rfl) h.nonempty

theorem Node.Text.identified {n : Node} (h : n.Text) : n.uncached.identified = true := by
  cases n with
  | resource r =>
    have hr : r.Text := h
    exact hr.identified
  | literal l => rfl

/-- Parse type and datatype agree. -/
theorem Node.Text.typed {n : Node} (h : n.Text) : parseTypeMismatch n.uncached = false := by
  cases n with
  | resource r => rfl
  | literal l =>
    obtain ⟨hbuilt, hkept, -⟩ := h
    show ((l.parseType = .literal && l.dataType.any (·.bytes ≠ xmlLiteralUri)) ||
      (l.parseType ≠ .literal && l.dataType.any (·.bytes = xmlLiteralUri)) : Bool) = false
    cases hp : l.parseType with
    | literal =>
      rw [hbuilt.proper.parseType hp]
      rfl
    | normal =>
      cases hd : l.dataType with
      | none => rfl
      | some d =>
        have hdt : l.dtBytes = d.bytes := by rw [Literal.dtBytes, hd]; rfl
        have hne : d.bytes ≠ xmlLiteralUri := by
          rintro hxml
          rw [← hdt] at hxml
          have hsome : l.dtBytes ≠ [] := by rw [hxml]; decide
          exact hkept hp hsome (hxml ▸ List.prefix_refl _)
        simp [hne]

/-- An object that was scanned has a string if it is a date. -/
theorem string_of_scanned {freetext errno : Bool} {n : Node} (h : (scanObject ext freetext errno n).isSome)
    (l : Literal) (hn : n.uncached = .literal l) (hdt : l.dtBytes = xsdDateUri ∨ l.dtBytes = xsdDateTimeUri) :
    l.string.isSome = true := by
  cases n with
  | resource r => cases hn
  | literal l' =>
    cases hn
    have hdate : (dateKey ext (literalWindexKeys ext freetext errno l').1 l').isSome = true := by
      rw [scanObject, scanLiteral, Option.isSome_map] at h
      exact h
    have hdt : l'.dtBytes = xsdDateUri ∨ l'.dtBytes = xsdDateTimeUri := hdt
    rw [dateKey, if_pos hdt, Option.isSome_map] at hdate
    exact hdate

/-- One statement is copied. -/
theorem OwnStore.afterNext (hl : ext.Lossless) (hcol : NoCollision ext V) {default : Option ResourceContent} {n : Nat}
    {own : Store} {h' : History} (hown : OwnStore ext V default n own h') (hn : n < maxRecords) (hh : Holds ext U me h)
    {i : Nat} {e : Entry} (he : h.live i = some e) (htext : e.Text)
    (hV : ∀ u : Use, u.content = e.content.inContext default → u ∈ V) {it : Iterator} (hit : it.size ≠ 0)
    (now : Bytes) :
    ∃ own' h'', addNext ext now own (rdfstoreIteratorFetchStatement it me i) = some own' ∧
      OwnStore ext V default (n + 1) own' h'' ∧ h''.contents = insert (e.content.inContext default) h'.contents := by
  obtain ⟨s, p, o, hs, hp, ho, hrecreated⟩ := hh.recreated he htext hit
  have hcontent := partsStatement_content hs hp ho own.context
  rw [hown.context] at hcontent
  have hgiven : identified (e.context.map Resource.uncached) = true := by
    cases hc : e.context with
    | none => rfl
    | some c => exact (htext.context c hc).identified
  have hargs : checkArgs (partsStatement s.uncached p.uncached o.uncached) (e.context.map Resource.uncached) =
      some ⟨s.uncached, p.uncached, o.uncached⟩ := by
    have hids : s.uncached.identifier.isSome = true := (htext.subject s hs).identified
    have hidp : p.uncached.identifier.isSome = true := (htext.predicate p hp).identified
    simp only [checkArgs, partsStatement, hids, hidp, (htext.object o ho).identified, hgiven]
    rfl
  have hfresh : FreshCall ext own (partsStatement s.uncached p.uncached o.uncached)
      (e.context.map Resource.uncached) := by
    refine ⟨Or.inl rfl, fun s' hs' => ?_, fun p' hp' => ?_, fun o' ho' => ?_, fun c hc => ?_⟩
    · cases hs'; exact Or.inl rfl
    · cases hp'; exact Or.inl rfl
    · cases ho'
      cases o <;> exact Or.inl rfl
    · unfold effectiveContext at hc
      cases hctx : e.context with
      | none =>
        rw [hctx] at hc
        exact (hown.fresh c hc).2
      | some c' =>
        rw [hctx] at hc
        cases hc
        exact Or.inl rfl
  have huse : (callUse own (partsStatement s.uncached p.uncached o.uncached)
      (e.context.map Resource.uncached)).content = e.content.inContext default := by
    rw [← hcontent, callUse, effectiveContext]
    cases e.context <;> rfl
  obtain ⟨r, f, h'', hcall, hown', hcontents, -⟩ := hown.afterInsert hl hcol hn hargs (htext.object o ho).typed
    (string_of_scanned (hh.scanned i e he o ho)) hfresh (hV _ huse) now
  refine ⟨f.me, h'', ?_, hown', huse ▸ hcontents⟩
  have hparts : insertParts ext now own s.uncached p.uncached o.uncached (e.context.map Resource.uncached) =
      some (r, f.me) := by
    show (rdfstoreInsert ext now own (partsStatement _ _ _) _).map _ = _
    rw [hcall]
    rfl
  unfold addNext
  rw [hrecreated]
  show (insertParts ext now own s.uncached p.uncached o.uncached (e.context.map Resource.uncached)).bind _ = _
  rw [hparts]
  rfl

theorem copied_cons {i : Nat} {e : Entry} (he : h.live i = some e) (l : List Nat)
    (default : Option ResourceContent) :
    h.copied {j | j ∈ i :: l} default = insert (e.content.inContext default) (h.copied {j | j ∈ l} default) := by
  ext c
  constructor
  · rintro ⟨j, hj, e', he', rfl⟩
    rcases List.mem_cons.1 hj with rfl | hj
    · rw [he] at he'
      cases he'
      exact Or.inl rfl
    · exact Or.inr ⟨j, hj, e', he', rfl⟩
  · rintro (rfl | ⟨j, hj, e', he', rfl⟩)
    · exact ⟨i, List.mem_cons_self, e, he, rfl⟩
    · exact ⟨j, List.mem_cons_of_mem i hj, e', he', rfl⟩

/-- All statements are copied, as long as there is room for them. -/
theorem OwnStore.afterAll (hl : ext.Lossless) (hcol : NoCollision ext V) {default : Option ResourceContent} {n : Nat}
    {own : Store} {h' : History} (hown : OwnStore ext V default n own h') (hh : Holds ext U me h) {it : Iterator}
    (clock : Nat → Bytes) (k : Nat) (l : List Nat) (hit : ∀ i ∈ l, it.size ≠ 0) (hroom : n + l.length ≤ maxRecords)
    (hlive : ∀ i ∈ l, ∃ e, h.live i = some e ∧ e.Text)
    (hV : ∀ u : Use, u.content ∈ h.copied {i | i ∈ l} default → u ∈ V) :
    ∃ own' h'', copyAll ext clock (l.map (rdfstoreIteratorFetchStatement it me)) k own = some own' ∧
      OwnStore ext V default (n + l.length) own' h'' ∧
      h''.contents = h'.contents ∪ h.copied {i | i ∈ l} default := by
  induction l generalizing n k own h' with
  | nil =>
    refine ⟨own, h', rfl, hown, ?_⟩
    have hnone : h.copied {i | i ∈ []} default = ∅ :=
      Set.eq_empty_iff_forall_notMem.2 fun c ⟨i, hi, _⟩ => List.not_mem_nil hi
    rw [hnone, Set.union_empty]
  | cons i l ih =>
    rw [List.length_cons] at hroom
    obtain ⟨e, he, htext⟩ := hlive i List.mem_cons_self
    have hcons := copied_cons he l default
    rw [hcons] at hV
    obtain ⟨own₁, h₁, hnext, hown₁, hcontents₁⟩ := hown.afterNext hl hcol (by omega) hh he htext
      (fun u hu => hV u (Or.inl hu)) (hit i List.mem_cons_self) (clock k)
    obtain ⟨own', h'', hrest, hown', hcontents⟩ := ih hown₁ (k + 1) (fun j hj => hit j (List.mem_cons_of_mem _ hj))
      (by omega) (fun j hj => hlive j (List.mem_cons_of_mem _ hj)) fun u hu => hV u (Or.inr hu)
    refine ⟨own', h'', ?_, ?_, ?_⟩
    · rw [List.map_cons, copyAll, hnext]
      exact hrest
    · rw [List.length_cons, show n + (l.length + 1) = n + 1 + l.length by omega]
      exact hown'
    · rw [hcontents, hcontents₁, hcons, Set.insert_union, Set.union_insert]

/-! ## Over a run -/

/-- As many statements live as there are contents. -/
theorem Holds.ncard_contents (hh : Holds ext U me h) : h.contents.ncard = h.liveIds.ncard := by
  refine (Set.ncard_congr (fun i hi => ((h.live i).get hi).content) (fun i hi => ?_) (fun i j hi hj hij => ?_) ?_).symm
  · exact ⟨i, _, (Option.some_get hi).symm, rfl⟩
  · exact hh.unique i j _ _ (Option.some_get hi).symm (Option.some_get hj).symm hij
  · rintro c ⟨i, e, he, rfl⟩
    exact ⟨i, Option.isSome_iff_exists.2 ⟨e, he⟩, by simp [he]⟩

/-- A store of its own is consistent. -/
theorem OwnStore.agree (hcol : NoCollision ext V) {default : Option ResourceContent} {n : Nat}
    (hown : OwnStore ext V default n me h) :
    TablesAgree ext V me h ∧ (rdfstoreSize me).toNat = h.contents.ncard := by
  obtain ⟨hstatements, hnodes, hrecords, hindexed, hissued, hunique, hsize⟩ := hown.holds.tablesAgree hcol
  exact ⟨⟨hstatements, hnodes, hrecords, hindexed, hissued, hunique, hsize⟩, hsize.trans hown.holds.ncard_contents.symm⟩

section

variable (walk : ∀ db : FlatDb, KeyWalk db)

/-- What a model shows is copied to the store of its own. -/
theorem Sees.copyOnWrite (hl : ext.Lossless) (hcol : NoCollision ext V) {ms : Models} {vs : List View}
    (hsees : Sees me h.liveIds none ms vs) (hh : Holds ext U me h) (hissued : IdsIssued me) {i : Nat} {v : View}
    (hi : 0 < i) (hv : vs[i]? = some v) (htext : ∀ j ∈ v.elements, ∀ e, h.live j = some e → e.Text)
    {default : Option ResourceContent} (hV : ∀ u : Use, u.content ∈ h.copied v.elements default → u ∈ V)
    {own : Store} (hown : OwnStore ext V default 0 own History.empty) (ids : Buf) (clock : Nat → Bytes) :
    ∃ own' h', ms.copyOnWrite ext walk ids clock own i = some own' ∧
      OwnStore ext V default v.elements.ncard own' h' ∧ h'.contents = h.copied v.elements default := by
  have hlt : i < ms.objects.length := hsees.length ▸ (List.getElem?_eq_some_iff.1 hv).1
  obtain ⟨shares, hshares, hfound, hcount, -⟩ := hsees.elements walk hh hissued ids hlt hv
  obtain ⟨m, hm⟩ := hsees.exists_model hv
  obtain ⟨s, -, -, hshared, -⟩ := hsees.derived i m hi hm
  obtain ⟨hh', -, -⟩ := hsees.liveIds hh hissued
  have hwithin : v.elements ⊆ h.liveIds := (hsees.within v (List.mem_of_getElem? hv)).1
  obtain ⟨me', hloop, -, -⟩ := @forStatements_first ms.me shares hcount (shares.size + 2) (Nat.lt_succ_self _)
  have hmem : {j | j ∈ shares.found.sort} = v.elements := by
    rw [← hfound]
    exact Set.ext fun j => Finset.mem_sort _
  have hlength : shares.found.sort.length = v.elements.ncard := by
    rw [Finset.length_sort, ← hfound, Set.ncard_coe_finset]
  have hroom : v.elements.ncard ≤ maxRecords := by
    have hcard := Set.ncard_le_ncard hwithin hh.finite
    have hcounted := hh.count
    have hroom := hh.room
    omega
  have hsize : ∀ j ∈ shares.found.sort, shares.toIterator.size ≠ 0 := by
    intro j hj
    rw [hcount]
    exact Finset.card_ne_zero_of_mem ((Finset.mem_sort _).1 hj)
  have hlive : ∀ j ∈ shares.found.sort, ∃ e, h.live j = some e ∧ e.Text := by
    intro j hj
    have hj : j ∈ v.elements := hmem ▸ hj
    obtain ⟨e, he⟩ := Option.isSome_iff_exists.1 (hwithin hj)
    exact ⟨e, he, htext j hj e he⟩
  obtain ⟨own', h', hall, hown', hcontents⟩ := hown.afterAll hl hcol hh' clock 0 shares.found.sort hsize (by omega)
    hlive (by rwa [hmem])
  refine ⟨own', h', ?_, ?_, ?_⟩
  · unfold Models.copyOnWrite
    rw [hm, Option.bind_some]
    simp only [hshared, hshares, Option.bind_some]
    rw [copyLoop_eq _ _ _ _ _ _ hloop]
    exact hall
  · rw [Nat.zero_add, hlength] at hown'
    exact hown'
  · rw [hcontents, hmem]
    have hempty : History.empty.contents = ∅ := Set.eq_empty_iff_forall_notMem.2 fun c ⟨j, e, he, _⟩ => by cases he
    rw [hempty, Set.empty_union]

variable (ext) in
/-- The parts of a statement that an insert takes. -/
structure PartsOk (s p : Resource) (o : Node) (context : Option Resource) : Prop where
  args : checkArgs (partsStatement s p o) context = some ⟨s, p, o⟩
  typed : parseTypeMismatch o = false
  dated : ∀ l, o = .literal l → l.dtBytes = xsdDateUri ∨ l.dtBytes = xsdDateTimeUri → l.string.isSome = true
  subject : s.Fresh ext
  predicate : p.Fresh ext
  object : o.Fresh ext
  context : ∀ c ∈ context, c.Fresh ext

theorem PartsOk.freshCall {s p : Resource} {o : Node} {context : Option Resource} (hok : PartsOk ext s p o context)
    {own : Store} (hfresh : ∀ c ∈ own.context, c.identifier.isSome ∧ c.Fresh ext) :
    FreshCall ext own (partsStatement s p o) context := by
  refine ⟨Or.inl rfl, fun s' hs => ?_, fun p' hp => ?_, fun o' ho => ?_, fun c hc => ?_⟩
  · cases hs; exact hok.subject
  · cases hp; exact hok.predicate
  · cases ho; exact hok.object
  · unfold effectiveContext at hc
    cases context with
    | none => exact (hfresh c hc).2
    | some c' =>
      cases hc
      exact hok.context c rfl

/-- Only the content of the default context matters. -/
theorem partsStatement_default (s p : Resource) (o : Node) (context : Option Resource) {own own' : Store}
    (h : own'.context.map Resource.content = own.context.map Resource.content) :
    (callUse own' (partsStatement s p o) context).content =
      Use.content (partsStatement s p o, context.or own.context) := by
  have hcontext : (((context.or none).or own'.context).or none).map Resource.content =
      ((context.or own.context).or none).map Resource.content := by
    cases context with
    | none => simpa using h
    | some c => rfl
  exact congrArg (StatementContent.mk (some s.content) (some p.content) (some o.content)) hcontext

/-- A write to a model that shares: the statement is in its iterator, or what the model shows is copied and the
statement is put to it. -/
theorem Sees.add (hl : ext.Lossless) (hcolU : NoCollision ext U) (hcol : NoCollision ext V) {ms : Models}
    {vs : List View} (hsees : Sees me h.liveIds none ms vs) (hh : Holds ext U me h) (hissued : IdsIssued me) {i : Nat}
    {v : View} (hi : 0 < i) (hv : vs[i]? = some v) (htext : ∀ j ∈ v.elements, ∀ e, h.live j = some e → e.Text)
    (hroom : v.elements.ncard < maxRecords) {default : Option ResourceContent}
    {own : Store} (hown : OwnStore ext V default 0 own History.empty) {s p : Resource} {o : Node}
    {context : Option Resource} (hok : PartsOk ext s p o context) (hU : (partsStatement s p o, context) ∈ U)
    (hV : ∀ u : Use, u.content ∈ insert (Use.content (partsStatement s p o, context.or own.context))
      (h.copied v.elements default) → u ∈ V) (ids : Buf) (clock : Nat → Bytes) (now : Bytes) :
    ∃ r, ms.add ext walk ids clock now own i s p o context = some r ∧
      ((r = (0, none) ∧ Use.content (partsStatement s p o, context) ∈ h.copied v.elements none) ∨
        ∃ own' h', r.2 = some own' ∧ OwnStore ext V default (v.elements.ncard + 1) own' h' ∧
          h'.contents = insert (Use.content (partsStatement s p o, context.or own.context))
            (h.copied v.elements default) ∧
          (r.1 = 1 ↔ Use.content (partsStatement s p o, context.or own.context) ∉ h.copied v.elements default)) := by
  obtain ⟨m, hm⟩ := hsees.exists_model hv
  obtain ⟨shared, v', w, hshared, -, hv', -, hshows, -⟩ := hsees.derived i m hi hm
  rw [hv] at hv'
  cases hv'
  obtain ⟨hh', -, -⟩ := hsees.liveIds hh hissued
  unfold Models.add
  rw [hm, Option.bind_some]
  simp only [hshared]
  split
  · next hcontained =>
    refine ⟨_, rfl, Or.inl ⟨rfl, ?_⟩⟩
    have hor : context.or (partsStatement s p o).context = context := Option.or_none
    have hargs : (checkArgs (partsStatement s p o) context).isSome := by rw [hok.args]; rfl
    cases hq : m.queryIterator with
    | none =>
      rw [hq] at hcontained
      cases hcontained
    | some c =>
      rw [hq] at hcontained
      rw [Shows, hq] at hshows
      have hne : (rdfstoreIteratorContains ext ms.me c.toIterator (partsStatement s p o) context).1 ≠ 0 :=
        of_decide_eq_true hcontained
      rcases hh'.iteratorContains hcolU hargs (Or.inl rfl) (by rw [hor]; exact hU) c.toIterator with
        ⟨-, j, e, he, hcontent, hj⟩ | ⟨hzero, -⟩
      · rw [hor] at hcontent
        have hj : j ∈ v.elements := by
          rw [← hshows.1]
          exact hj
        refine ⟨j, hj, e, he, ?_⟩
        rw [StatementContent.inContext, Option.or_none]
        exact hcontent
      · exact absurd hzero hne
  · obtain ⟨own₁, h₁, hcopy, hown₁, hcontents₁⟩ := hsees.copyOnWrite walk hl hcol hh hissued hi hv htext
      (fun u hu => hV u (Or.inr hu)) hown ids clock
    have hnew : (callUse own₁ (partsStatement s p o) context).content =
        Use.content (partsStatement s p o, context.or own.context) :=
      partsStatement_default s p o context (hown₁.context.trans hown.context.symm)
    obtain ⟨a, f, h', hcall, hown', hcontents, hanswer⟩ := hown₁.afterInsert hl hcol hroom hok.args hok.typed hok.dated
      (hok.freshCall hown₁.fresh) (hV _ (Or.inl hnew)) now
    rw [hnew, hcontents₁] at hcontents hanswer
    have hparts : insertParts ext now own₁ s p o context = some (a, f.me) := by
      show (rdfstoreInsert ext now own₁ (partsStatement s p o) context).map _ = _
      rw [hcall]
      rfl
    refine ⟨((if a = 0 then 1 else 0 : Int), some f.me), ?_, Or.inr ⟨f.me, h', rfl, hown', hcontents, ?_⟩⟩
    · rw [hcopy, Option.bind_some, hparts]
      rfl
    · rw [← hanswer]
      show (if a = 0 then 1 else 0 : Int) = 1 ↔ a = 0
      split
      · next h0 => exact iff_of_true rfl h0
      · next h0 => exact iff_of_false (by decide) h0

end

/-- Whatever models are derived from one over a reached store, the first write to one of them leaves it with a store
of its own that is consistent and has what the model shows, the statements without a context now in the default one,
if there is one; the statements of the other store are read only. -/
theorem copyOnWrite_run (walk : ∀ db : FlatDb, KeyWalk db) (hl : ext.Lossless) {U : Set Use}
    (hcol : NoCollision ext U) {freetext : Bool} {me : Store} {h : History}
    (hrun : StoreRun ext U freetext (RemovalSafe ext) me h) {ds : List (Derive × Buf)}
    (hds : ∀ d ∈ ds, d.1.Ok freetext) {vs : List View}
    (hvs : View.run h.liveIds (h.matching ext freetext) [⟨h.liveIds, h.liveIds⟩] (ds.map Prod.fst) = some vs)
    {i : Nat} {v : View} (hi : 0 < i) (hv : vs[i]? = some v)
    (htext : ∀ j ∈ v.elements, ∀ e, h.live j = some e → e.Text) {default : Option Resource}
    (hfresh : ∀ c ∈ default, c.identifier.isSome ∧ c.Fresh ext)
    (hcopied : NoCollision ext {u | u.content ∈ h.copied v.elements (default.map Resource.content)}) :
    ∃ ms, (Models.new me).run ext walk ds = some ms ∧ ∀ ids clock errno created, ∃ own h',
      ms.copyOnWrite ext walk ids clock { rdfstoreConnect false errno created with context := default } i = some own ∧
        TablesAgree ext {u | u.content ∈ h.copied v.elements (default.map Resource.content)} own h' ∧
        h'.contents = h.copied v.elements (default.map Resource.content) ∧
        (rdfstoreSize own).toNat = (h.copied v.elements (default.map Resource.content)).ncard := by
  obtain ⟨hh, hfree⟩ := hrun.holds hl hcol fun _ _ _ _ hsafe => hsafe
  rw [← hfree] at hds hvs
  have hissued := hrun.idsIssued
  obtain ⟨ms, hms, hsees⟩ := Sees.run walk hl hh hissued hds (Sees.new me h.liveIds) hvs
  refine ⟨ms, hms, fun ids clock errno created => ?_⟩
  obtain ⟨own, h', hcopy, hown, hcontents⟩ := hsees.copyOnWrite walk hl hcopied hh hissued hi hv htext
    (fun u hu => hu) (OwnStore.connect errno created hfresh) ids clock
  obtain ⟨hagree, hsize⟩ := hown.agree hcopied
  exact ⟨own, h', hcopy, hagree, hcontents, hcontents ▸ hsize⟩

/-- A statement that is added to a derived model is in its iterator, and nothing is done, or the store of its own
holds it with what the model shows; the answer is 1 if it was not there. -/
theorem add_run (walk : ∀ db : FlatDb, KeyWalk db) (hl : ext.Lossless) {U : Set Use} (hcol : NoCollision ext U)
    {freetext : Bool} {me : Store} {h : History} (hrun : StoreRun ext U freetext (RemovalSafe ext) me h)
    {ds : List (Derive × Buf)} (hds : ∀ d ∈ ds, d.1.Ok freetext) {vs : List View}
    (hvs : View.run h.liveIds (h.matching ext freetext) [⟨h.liveIds, h.liveIds⟩] (ds.map Prod.fst) = some vs)
    {i : Nat} {v : View} (hi : 0 < i) (hv : vs[i]? = some v)
    (htext : ∀ j ∈ v.elements, ∀ e, h.live j = some e → e.Text) (hroom : v.elements.ncard < maxRecords)
    {default : Option Resource} (hfresh : ∀ c ∈ default, c.identifier.isSome ∧ c.Fresh ext) {s p : Resource} {o : Node}
    {context : Option Resource} (hok : PartsOk ext s p o context) (hU : (partsStatement s p o, context) ∈ U)
    (hcopied : NoCollision ext {u | u.content ∈ insert (Use.content (partsStatement s p o, context.or default))
      (h.copied v.elements (default.map Resource.content))}) :
    ∃ ms, (Models.new me).run ext walk ds = some ms ∧ ∀ ids clock now errno created,
      ∃ r, ms.add ext walk ids clock now { rdfstoreConnect false errno created with context := default } i s p o
          context = some r ∧
        ((r = (0, none) ∧ Use.content (partsStatement s p o, context) ∈ h.copied v.elements none) ∨
          ∃ own h', r.2 = some own ∧
            TablesAgree ext {u | u.content ∈ insert (Use.content (partsStatement s p o, context.or default))
              (h.copied v.elements (default.map Resource.content))} own h' ∧
            h'.contents = insert (Use.content (partsStatement s p o, context.or default))
              (h.copied v.elements (default.map Resource.content)) ∧
            (r.1 = 1 ↔ Use.content (partsStatement s p o, context.or default) ∉
              h.copied v.elements (default.map Resource.content))) := by
  obtain ⟨hh, hfree⟩ := hrun.holds hl hcol fun _ _ _ _ hsafe => hsafe
  rw [← hfree] at hds hvs
  have hissued := hrun.idsIssued
  obtain ⟨ms, hms, hsees⟩ := Sees.run walk hl hh hissued hds (Sees.new me h.liveIds) hvs
  refine ⟨ms, hms, fun ids clock now errno created => ?_⟩
  obtain ⟨r, hadd, hcase⟩ := hsees.add walk hl hcol hcopied hh hissued hi hv htext hroom
    (OwnStore.connect errno created hfresh) hok hU (fun u hu => hu) ids clock now
  refine ⟨r, hadd, hcase.imp id ?_⟩
  rintro ⟨own, h', hr, hown, hcontents, hanswer⟩
  exact ⟨own, h', hr, (hown.agree hcopied).1, hcontents, hanswer⟩

/-! ## One statement -/

theorem uri_text {c : UInt8} (h0 : c ≠ 0) (hdigit : c ≠ 0x30) : (uri c).Text where
  nonempty := nofun
  noNul := fun h => h0 (List.mem_singleton.1 h).symm
  isTrue := fun _ h => hdigit (List.cons.inj h).1

/-- The one statement. -/
def firstAdded : Use := (partsStatement (uri 97) (uri 98) (.resource (uri 99)), none)

/-- All entries of a run about one statement have its nodes. -/
theorem text_of_single {me : Store} {h : History} (hh : Holds ext {firstAdded} me h) {j : Nat} {e : Entry}
    (he : h.live j = some e) : e.Text := by
  have huse : e.use = firstAdded := hh.used j e he
  have hstatement : e.statement = partsStatement (uri 97) (uri 98) (.resource (uri 99)) := congrArg Prod.fst huse
  have hcontext : e.context = none := congrArg Prod.snd huse
  refine ⟨fun s hs => ?_, fun p hp => ?_, fun o ho => ?_, fun c hc => ?_⟩
  · rw [hstatement] at hs
    cases hs
    exact uri_text (by decide) (by decide)
  · rw [hstatement] at hp
    cases hp
    exact uri_text (by decide) (by decide)
  · rw [hstatement] at ho
    cases ho
    exact uri_text (c := 99) (by decide) (by decide)
  · rw [hcontext] at hc
    cases hc

theorem copied_of_single {me : Store} {h : History} (hh : Holds ext {firstAdded} me h) {s : Set Nat}
    {default : Option ResourceContent} {c : StatementContent} (hc : c ∈ h.copied s default) :
    c = firstAdded.content.inContext default := by
  obtain ⟨i, -, e, he, rfl⟩ := hc
  rw [← show e.use = _ from hh.used i e he]
  rfl

theorem noCollision_of_single {me : Store} {h : History} (hh : Holds ext {firstAdded} me h) {s : Set Nat} :
    NoCollision ext {u | u.content ∈ insert firstAdded.content (h.copied s none)} := by
  have hsame : ∀ u : Use, u.content ∈ insert firstAdded.content (h.copied s none) → u.content = firstAdded.content := by
    rintro u (hu | hu)
    · exact hu
    · exact copied_of_single hh hu
  exact fun u hu u' hu' _ => (hsame u hu).trans (hsame u' hu').symm

theorem ncard_of_single {me : Store} {h : History} (hh : Holds ext {firstAdded} me h) {s : Set Nat}
    (hs : s ⊆ h.liveIds) : s.ncard ≤ 1 := by
  have hone : h.contents ⊆ {firstAdded.content} := by
    rintro c ⟨i, e, he, rfl⟩
    exact congrArg Use.content (hh.used i e he : e.use = _)
  calc s.ncard ≤ h.liveIds.ncard := Set.ncard_le_ncard hs hh.finite
    _ = h.contents.ncard := hh.ncard_contents.symm
    _ ≤ 1 := (Set.ncard_le_ncard hone).trans (Set.ncard_singleton _).le

/-- The statement is looked for. -/
def findFirst : Derive × Buf := (.find 0 (findSubjectPredicate (uri 97) (uri 98)), fun _ => 0)

theorem findFirst_ok : ∀ d ∈ [findFirst], d.1.Ok false := by
  intro d hd
  rw [List.mem_singleton.1 hd]
  exact ⟨rfl, Or.inl rfl⟩

/-- One statement is found, and what was found is copied into a store with a default context. -/
theorem copyOnWrite_run_find :
    ∃ f, ∃ h : History, ∃ ms, rdfstoreInsert asciiExternals [] (rdfstoreConnect false false [])
        (triple (uri 97) (uri 98) (.resource (uri 99))) none = some (0, f) ∧
      (Models.new f.me).run asciiExternals someWalk [findFirst] = some ms ∧
      ∃ own, ∃ h' : History, ms.copyOnWrite asciiExternals someWalk (fun _ => 0) (fun _ => [])
          { rdfstoreConnect false false [] with context := some (uri 103) } 1 = some own ∧
        h'.contents = h.copied
          (h.liveIds ∩ h.matching asciiExternals false (findSubjectPredicate (uri 97) (uri 98)))
          (some (uri 103).content) := by
  obtain ⟨f, h, hcall, hrun⟩ := insert_run
  obtain ⟨hh, -⟩ := hrun.holds asciiExternals_lossless (noCollision_singleton _) fun _ _ _ _ hsafe => hsafe
  have hdefault : ∀ c ∈ some (uri 103), c.identifier.isSome ∧ c.Fresh asciiExternals := by
    intro c hc
    cases hc
    exact ⟨rfl, Or.inl rfl⟩
  obtain ⟨ms, hms, hcopy⟩ := copyOnWrite_run someWalk asciiExternals_lossless (noCollision_singleton _) hrun
    findFirst_ok rfl Nat.one_pos rfl (fun j _ e he => text_of_single hh he) hdefault
    fun u hu u' hu' _ => (copied_of_single hh hu).trans (copied_of_single hh hu').symm
  obtain ⟨own, h', hown, -, hcontents, -⟩ := hcopy (fun _ => 0) (fun _ => []) false []
  exact ⟨f, h, ms, hcall, hms, own, h', hown, hcontents⟩

/-- The statement is added to what was found, or to a copy of it. -/
theorem add_run_find :
    ∃ f, ∃ h : History, ∃ ms, rdfstoreInsert asciiExternals [] (rdfstoreConnect false false [])
        (triple (uri 97) (uri 98) (.resource (uri 99))) none = some (0, f) ∧
      (Models.new f.me).run asciiExternals someWalk [findFirst] = some ms ∧
      ∃ r, ms.add asciiExternals someWalk (fun _ => 0) (fun _ => []) [] (rdfstoreConnect false false []) 1 (uri 97)
          (uri 98) (.resource (uri 99)) none = some r ∧
        (r = (0, none) ∨ ∃ own, ∃ h' : History, r.2 = some own ∧
          h'.contents = insert firstAdded.content (h.copied
            (h.liveIds ∩ h.matching asciiExternals false (findSubjectPredicate (uri 97) (uri 98))) none)) := by
  obtain ⟨f, h, hcall, hrun⟩ := insert_run
  obtain ⟨hh, -⟩ := hrun.holds asciiExternals_lossless (noCollision_singleton _) fun _ _ _ _ hsafe => hsafe
  have hparts : PartsOk asciiExternals (uri 97) (uri 98) (.resource (uri 99)) none :=
    ⟨rfl, rfl, nofun, Or.inl rfl, Or.inl rfl, Or.inl rfl, nofun⟩
  have hroom : (h.liveIds ∩ h.matching asciiExternals false (findSubjectPredicate (uri 97) (uri 98))).ncard <
      maxRecords := Nat.lt_of_le_of_lt (ncard_of_single hh Set.inter_subset_left) (by decide)
  have hdefault : ∀ c ∈ (none : Option Resource), c.identifier.isSome ∧ c.Fresh asciiExternals := nofun
  obtain ⟨ms, hms, hadd⟩ := add_run someWalk asciiExternals_lossless (noCollision_singleton _) hrun findFirst_ok rfl
    Nat.one_pos rfl (fun j _ e he => text_of_single hh he) hroom hdefault hparts rfl (noCollision_of_single hh)
  obtain ⟨r, hr, hcase⟩ := hadd (fun _ => 0) (fun _ => []) [] false []
  refine ⟨f, h, ms, hcall, hms, r, hr, hcase.imp And.left ?_⟩
  rintro ⟨own, h', hown, -, hcontents, -⟩
  exact ⟨own, h', hown, hcontents⟩

end

end RdfStore
