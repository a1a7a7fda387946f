import RdfStore.Identity

/-!
# The keys of a stored statement

What the tables are to hold is said here without the code that fills them: an
`Entry` is a statement as its insert found it, and `Entry.HasKey` the keys under
which its id is to be found.  The keys depend on the content, but for the
numbers and stems, which also depend on `errno`: once it is set no number is
recognised any more, so a later call finds fewer numbers and more stems.

    HasKey e t k ↔ (t, k) ∈ the keys the insert went through    (Entry.hasKey_iff)
    scanObject errno …, errno → errno' gives scanObject errno' … with
      fewer numbers and more free-text keys                     (scanObject_later)
-/

namespace RdfStore

open ByteMem

variable {ext : Externals}

/-! ## Scans depend on the content -/

theorem Literal.content_eq_iff {l l' : Literal} : l.content = l'.content ↔
    l.string.map (·.bytes) = l'.string.map (·.bytes) ∧ l.lang.bytes = l'.lang.bytes ∧
      l.dtBytes = l'.dtBytes ∧ l.digestDatatype = l'.digestDatatype := by
  simp only [Literal.content, LiteralContent.mk.injEq]

theorem languageKey_congr {l l' : Literal} (h : l.content = l'.content) :
    languageKey ext l = languageKey ext l' := by
  simp only [languageKey, (Literal.content_eq_iff.1 h).2.1]

theorem datatypeKey_congr {l l' : Literal} (h : l.content = l'.content) :
    datatypeKey l = datatypeKey l' := by
  simp only [datatypeKey, (Literal.content_eq_iff.1 h).2.2.1]

theorem literalWindexKeys_congr {l l' : Literal} (h : l.content = l'.content) (freetext errno : Bool) :
    literalWindexKeys ext freetext errno l = literalWindexKeys ext freetext errno l' := by
  simp only [literalWindexKeys, Literal.bytes_congr h]

theorem dateKey_congr {l l' : Literal} (h : l.content = l'.content) (errno : Bool) :
    dateKey ext errno l = dateKey ext errno l' := by
  have hmap : ∀ m : Literal, (m.string.map fun s => deserializeDates ext errno s.bytes) =
      (m.string.map (·.bytes)).map (deserializeDates ext errno) := by
    intro m
    simp [Function.comp_def]
  obtain ⟨hs, -, hd, -⟩ := Literal.content_eq_iff.1 h
  simp only [dateKey, hd, hmap, hs]

theorem integerKey_congr {l l' : Literal} (h : l.content = l'.content) (errno : Bool) :
    integerKey ext errno l = integerKey ext errno l' := by
  rw [integerKey, integerKey, (Literal.content_eq_iff.1 h).1]

theorem doubleKey_congr {l l' : Literal} (h : l.content = l'.content) (errno islval : Bool) :
    doubleKey ext errno l islval = doubleKey ext errno l' islval := by
  rw [doubleKey, doubleKey, (Literal.content_eq_iff.1 h).1]

theorem scanObject_congr {o o' : Node} (h : o.content = o'.content) (freetext errno : Bool) :
    scanObject ext freetext errno o = scanObject ext freetext errno o' := by
  cases o with
  | resource r =>
    cases o' with
    | resource r' => rfl
    | literal l' => cases h
  | literal l =>
    cases o' with
    | resource r' => cases h
    | literal l' =>
      replace h : l.content = l'.content := NodeContent.literal.inj h
      simp only [scanObject, scanLiteral, literalWindexKeys_congr h, dateKey_congr h, languageKey_congr h,
        datatypeKey_congr h, integerKey_congr h, doubleKey_congr h]

/-! ## Scans and `errno` -/

theorem rdfstoreXsdDeserializeInteger_errno (s : Option Bytes) :
    rdfstoreXsdDeserializeInteger ext true s = (true, none) := by
  cases s <;> simp [rdfstoreXsdDeserializeInteger, acceptNumber]

theorem rdfstoreXsdDeserializeDouble_errno (s : Option Bytes) :
    rdfstoreXsdDeserializeDouble ext true s = (true, none) := by
  cases s <;> simp [rdfstoreXsdDeserializeDouble, acceptNumber]

/-- `errno` has no say in what is a date. -/
theorem deserializeDates_errno (errno : Bool) (s : Bytes) :
    deserializeDates ext true s = (true, (deserializeDates ext errno s).2) := by
  unfold deserializeDates
  simp only
  split <;> simp

theorem skipStems_errno (w : Bytes) : (skipStems ext true w).1 = true := by
  unfold skipStems
  simp only [rdfstoreXsdDeserializeInteger_errno, rdfstoreXsdDeserializeDouble_errno, Option.isSome_none,
    Bool.false_eq_true, if_false]
  rw [deserializeDates_errno true]
  split <;> rfl

/-- A word that has stems has them also once `errno` is set. -/
theorem skipStems_later {errno : Bool} {w : Bytes} (h : (skipStems ext errno w).2 = false) :
    (skipStems ext true w).2 = false := by
  unfold skipStems at h ⊢
  simp only [rdfstoreXsdDeserializeInteger_errno, rdfstoreXsdDeserializeDouble_errno] at h ⊢
  split at h
  · cases h
  · split at h
    · cases h
    · split at h
      · cases h
      · next hdate =>
        rw [deserializeDates_errno (rdfstoreXsdDeserializeDouble ext
          (rdfstoreXsdDeserializeInteger ext errno (some w)).1 (some w)).1]
        simp only [Option.isSome_none, Bool.false_eq_true, if_false]
        rw [if_neg hdate]
        exact h

theorem windexLoop_errno (ws : List Bytes) : (windexLoop ext true ws).1 = true := by
  induction ws with
  | nil => rfl
  | cons w ws ih => simp only [windexLoop, skipStems_errno, ih]

/-- The free-text keys of a literal are among those found once `errno` is set. -/
theorem windexLoop_later (ws : List Bytes) (errno : Bool) {k : WindexKey}
    (h : k ∈ (windexLoop ext errno ws).2) : k ∈ (windexLoop ext true ws).2 := by
  induction ws generalizing errno with
  | nil => exact h
  | cons w ws ih =>
    simp only [windexLoop, skipStems_errno, List.mem_cons, List.mem_append] at h ⊢
    rcases h with (h | h) | h
    · exact Or.inl (Or.inl h)
    · refine Or.inl (Or.inr ?_)
      split at h
      · cases h
      · next hskip =>
        rw [if_neg (by simpa using skipStems_later (Bool.eq_false_iff.2 hskip))]
        exact h
    · exact Or.inr (ih _ h)

theorem literalWindexKeys_errno (freetext : Bool) (l : Literal) :
    (literalWindexKeys ext freetext true l).1 = true := by
  unfold literalWindexKeys
  split
  · exact windexLoop_errno _
  · rfl

theorem literalWindexKeys_later {freetext errno : Bool} {l : Literal} {k : WindexKey}
    (h : k ∈ (literalWindexKeys ext freetext errno l).2) :
    k ∈ (literalWindexKeys ext freetext true l).2 := by
  unfold literalWindexKeys at h ⊢
  split at h
  · next hc =>
    rw [if_pos hc]
    exact windexLoop_later _ _ h
  · cases h

/-- The tables of numbers, whose keys depend on `errno`. -/
def Index.isNumber : Index → Bool
  | .xsdInteger | .xsdDouble => true
  | _ => false

/-- What a later scan of an object, with `errno` set by then or not, finds. -/
structure LaterScan (sc sc' : ObjectScan) : Prop where
  errno : sc.errno = true → sc'.errno = true
  fewer : ∀ p ∈ sc'.others, p ∈ sc.others
  same : ∀ t k, t.isNumber = false → ((t, k) ∈ sc'.others ↔ (t, k) ∈ sc.others)
  more : ∀ k ∈ sc.windex, k ∈ sc'.windex

theorem LaterScan.refl (sc : ObjectScan) : LaterScan sc sc :=
  ⟨id, fun _ h => h, fun _ _ _ => Iff.rfl, fun _ h => h⟩

theorem mem_optKey {t t' : Index} {k : Bytes} {key : Option Bytes} :
    (t', k) ∈ optKey t key ↔ t' = t ∧ key = some k := by
  cases key <;> simp [eq_comm]

theorem scanLiteral_later {freetext errno : Bool} {l : Literal} {sc : ObjectScan}
    (h : scanLiteral ext freetext errno l = some sc) :
    ∃ sc', scanLiteral ext freetext true l = some sc' ∧ sc'.errno = true ∧ LaterScan sc sc' := by
  obtain ⟨w, d, iv, dv, hw, hd, -, -, rfl⟩ := scanLiteral_eq_some h
  -- the date, if it is looked for, is the same one
  obtain ⟨d', hd', hd1, hd2⟩ : ∃ d', dateKey ext true l = some d' ∧ d'.1 = true ∧ d'.2 = d.2 := by
    unfold dateKey at hd ⊢
    split at hd
    · next hdt =>
      rw [if_pos hdt]
      cases hs : l.string with
      | none => rw [hs] at hd; cases hd
      | some s =>
        rw [hs] at hd
        cases hd
        exact ⟨_, rfl, congrArg Prod.fst (deserializeDates_errno true s.bytes),
          (congrArg Prod.snd (deserializeDates_errno w.1 s.bytes)).trans rfl⟩
    · next hdt =>
      cases hd
      exact ⟨(true, none), by rw [if_neg hdt], rfl, rfl⟩
  refine ⟨⟨true, (literalWindexKeys ext freetext true l).2, optKey .languages (languageKey ext l)
    ++ optKey .datatypes (datatypeKey l) ++ optKey .xsdDate d.2⟩, ?_, rfl, fun _ => rfl, ?_, ?_, ?_⟩
  · simp only [scanLiteral, literalWindexKeys_errno, hd', hd1, hd2, integerKey, doubleKey,
      rdfstoreXsdDeserializeInteger_errno, rdfstoreXsdDeserializeDouble_errno, Option.map_some,
      Option.isSome_none, Bool.false_eq_true, if_false, optKey_none, List.append_nil]
  · intro p hp
    simp only [List.mem_append] at hp ⊢
    exact Or.inl (Or.inl hp)
  · intro t k ht
    simp only [List.mem_append, mem_optKey]
    cases t <;> simp [Index.isNumber] at ht ⊢
  · intro k hk
    rw [← hw] at hk
    exact literalWindexKeys_later hk

theorem scanObject_later {freetext errno errno' : Bool} {o : Node} {sc : ObjectScan}
    (h : scanObject ext freetext errno o = some sc) (he : errno = true → errno' = true) :
    ∃ sc', scanObject ext freetext errno' o = some sc' ∧ (errno' = true → sc'.errno = true) ∧
      LaterScan sc sc' := by
  cases o with
  | resource r =>
    cases h
    exact ⟨_, rfl, id, he, fun _ h => h, fun _ _ _ => Iff.rfl, fun _ h => h⟩
  | literal l =>
    cases errno' with
    | true =>
      obtain ⟨sc', h', e', hlater⟩ := scanLiteral_later h
      exact ⟨sc', h', fun _ => e', hlater⟩
    | false =>
      cases errno with
      | true => exact absurd (he rfl) (by decide)
      | false => exact ⟨sc, h, nofun, LaterScan.refl sc⟩

/-- What is scanned later can be scanned before. -/
theorem scanObject_earlier {freetext errno errno' : Bool} {o : Node} {sc' : ObjectScan}
    (h : scanObject ext freetext errno' o = some sc') (he : errno = true → errno' = true) :
    ∃ sc, scanObject ext freetext errno o = some sc ∧ LaterScan sc sc' := by
  have hsome : ∀ b : Bool, (scanObject ext freetext b o).isSome = (scanObject ext freetext true o).isSome := by
    intro b
    cases o with
    | resource r => rfl
    | literal l =>
      simp only [scanObject, scanLiteral, Option.isSome_map, dateKey]
      split <;> simp
  have hsc : (scanObject ext freetext errno o).isSome := by
    rw [hsome, ← hsome errno', h]
    rfl
  obtain ⟨sc, hsc⟩ := Option.isSome_iff_exists.1 hsc
  obtain ⟨sc₁, h₁, -, hlater⟩ := scanObject_later hsc he
  rw [h] at h₁
  cases h₁
  exact ⟨sc, hsc, hlater⟩

/-- `errno` stays set. -/
theorem scanObject_errno {freetext : Bool} {o : Node} {sc : ObjectScan}
    (h : scanObject ext freetext true o = some sc) : sc.errno = true := by
  obtain ⟨sc', h', e', -⟩ := scanObject_later h id
  rw [h] at h'
  cases h'
  exact e' rfl

/-! ## Entries -/

/-- A stored statement: what its insert was called with, the context it was put in and `errno`
at that moment. -/
structure Entry where
  statement : Statement
  context : Option Resource
  errno : Bool
  /-- a statement with a context of its own is not put in none -/
  own : context = none → statement.context = none

/-- The entry a call is about. -/
def Entry.ofCall (me : Store) (st : Statement) (given : Option Resource) : Entry where
  statement := st
  context := effectiveContext me st given
  errno := me.errno
  own := by
    intro h
    simp only [effectiveContext, Option.or_eq_none_iff] at h
    exact h.1.2

def Entry.use (e : Entry) : Use := (e.statement, e.context)

def Entry.content (e : Entry) : StatementContent := e.use.content

/-- The record of an entry in the nodes table. -/
def Entry.record (e : Entry) : Option Bytes :=
  match e.statement.subject, e.statement.predicate, e.statement.object with
  | some s, some p, some o => some (statementRecord ⟨s, p, o⟩ e.statement e.context)
  | _, _, _ => none

variable (ext) in
/-- The keys an entry is found under. -/
def Entry.HasKey (freetext : Bool) (e : Entry) (t : Index) (k : Bytes) : Prop :=
  match t with
  | .subjects => ∃ s, e.statement.subject = some s ∧ k = hashKey (resourceHash ext s)
  | .predicates => ∃ p, e.statement.predicate = some p ∧ k = hashKey (resourceHash ext p)
  | .objects => ∃ o, e.statement.object = some o ∧ k = hashKey (objectHash ext o)
  | .contexts => ∃ c, e.context = some c ∧ k = hashKey (resourceHash ext c)
  | .languages => ∃ l, e.statement.object = some (.literal l) ∧ languageKey ext l = some k
  | .datatypes => ∃ l, e.statement.object = some (.literal l) ∧ datatypeKey l = some k
  | .windex => ∃ l, e.statement.object = some (.literal l) ∧
      ∃ w ∈ (literalWindexKeys ext freetext e.errno l).2, w.bytes = k
  | t => ∃ o sc, e.statement.object = some o ∧ scanObject ext freetext e.errno o = some sc ∧
      (t, k) ∈ sc.others

variable (ext) in
/-- The cached hash codes of the components are those of the content. -/
structure FreshArgs (a : Args) (context : Option Resource) : Prop where
  subject : a.subject.Fresh ext
  predicate : a.predicate.Fresh ext
  object : a.object.Fresh ext
  context : ∀ c, context = some c → c.Fresh ext

theorem FreshCall.args {me : Store} {st : Statement} {given : Option Resource} {a : Args}
    (h : FreshCall ext me st given) (hargs : checkArgs st given = some a) :
    FreshArgs ext a (effectiveContext me st given) := by
  obtain ⟨hs, hp, ho⟩ := checkArgs_eq_some hargs
  exact ⟨h.subject _ hs, h.predicate _ hp, h.object _ ho, h.context⟩

theorem mem_adjacencyKeys {a : Args} {context : Option Resource} (hfresh : FreshArgs ext a context)
    {t : Index} {k : Bytes} : (t, k) ∈ adjacencyKeys ext a context ↔
      (t = .subjects ∧ k = hashKey (resourceHash ext a.subject)) ∨
      (t = .predicates ∧ k = hashKey (resourceHash ext a.predicate)) ∨
      (t = .objects ∧ k = hashKey (objectHash ext a.object)) ∨
      (t = .contexts ∧ ∃ c, context = some c ∧ k = hashKey (resourceHash ext c)) := by
  have hctx : (t, k) ∈ optKey .contexts (context.map fun c => nodeKey ext (.resource c)) ↔
      t = .contexts ∧ ∃ c, context = some c ∧ k = hashKey (resourceHash ext c) := by
    rw [mem_optKey]
    cases context with
    | none => simp
    | some c => simp [nodeKey_resource_eq (hfresh.context c rfl), eq_comm]
  simp only [adjacencyKeys, nodeKey_resource_eq hfresh.subject, nodeKey_resource_eq hfresh.predicate,
    nodeKey_eq hfresh.object, List.mem_append, List.mem_cons, Prod.mk.injEq, List.not_mem_nil, or_false,
    hctx, or_assoc]

/-- The keys of an entry are those its insert goes through. -/
theorem Entry.hasKey_iff {freetext : Bool} {e : Entry} {a : Args} {sc : ObjectScan}
    (hs : e.statement.subject = some a.subject) (hp : e.statement.predicate = some a.predicate)
    (ho : e.statement.object = some a.object) (hfresh : FreshArgs ext a e.context)
    (hsc : scanObject ext freetext e.errno a.object = some sc) {t : Index} {k : Bytes} :
    e.HasKey ext freetext t k ↔
      (t, k) ∈ sc.windexIndexed ++ sc.others ++ adjacencyKeys ext a e.context := by
  rw [List.mem_append, List.mem_append, mem_adjacencyKeys hfresh]
  cases hobj : a.object with
  | resource r =>
    rw [hobj] at hsc ho
    cases hsc
    cases t <;> simp [Entry.HasKey, ObjectScan.windexIndexed, hs, hp, ho, scanObject]
  | literal l =>
    rw [hobj] at hsc ho
    have hsc' := hsc
    obtain ⟨w, d, iv, dv, hw, hd, hiv, hdv, rfl⟩ := scanLiteral_eq_some hsc'
    cases t <;>
      simp [Entry.HasKey, ObjectScan.windexIndexed, hs, hp, ho, hsc, mem_optKey, hw]

/-! ## The same statement later -/

theorem Entry.content_eq (e : Entry) : e.content =
    ⟨e.statement.subject.map Resource.content, e.statement.predicate.map Resource.content,
      e.statement.object.map Node.content, e.context.map Resource.content⟩ := by
  have hctx : e.statement.digestContext e.context = e.context := by
    cases h : e.context with
    | none => rw [Statement.digestContext, e.own h]; rfl
    | some c => rfl
  simp only [Entry.content, Entry.use, Use.content, statementContent, hctx]

theorem exists_resourceKey_congr {r r' : Option Resource} {k : Bytes}
    (h : r.map Resource.content = r'.map Resource.content) :
    (∃ s, r = some s ∧ k = hashKey (resourceHash ext s)) ↔
      ∃ s, r' = some s ∧ k = hashKey (resourceHash ext s) := by
  cases r with
  | none =>
    cases r' with
    | none => rfl
    | some s' => cases h
  | some s =>
    cases r' with
    | none => cases h
    | some s' =>
      have hhash : resourceHash ext s = resourceHash ext s' := resourceHash_congr (Option.some.inj h)
      simp [hhash]

theorem exists_object_congr {o o' : Option Node} {P : Node → Prop}
    (h : o.map Node.content = o'.map Node.content)
    (hP : ∀ n n' : Node, n.content = n'.content → (P n ↔ P n')) :
    (∃ n, o = some n ∧ P n) ↔ ∃ n, o' = some n ∧ P n := by
  cases o with
  | none =>
    cases o' with
    | none => rfl
    | some n' => cases h
  | some n =>
    cases o' with
    | none => cases h
    | some n' => simp [hP n n' (Option.some.inj h)]

theorem exists_literal_congr {o o' : Option Node} {P : Literal → Prop}
    (h : o.map Node.content = o'.map Node.content)
    (hP : ∀ l l' : Literal, l.content = l'.content → (P l ↔ P l')) :
    (∃ l, o = some (.literal l) ∧ P l) ↔ ∃ l, o' = some (.literal l) ∧ P l := by
  have hobj := exists_object_congr (P := fun n => ∃ l, n = .literal l ∧ P l) h ?_
  · simpa [← exists_and_left, exists_comm] using hobj
  · intro n n' hn
    cases n <;> cases n' <;> simp_all [Node.content]
    exact hP _ _ hn

/-- The same statement at a later time. -/
structure LaterEntry (e e' : Entry) : Prop where
  content : e.content = e'.content
  errno : e.errno = true → e'.errno = true

theorem LaterEntry.objects {e e' : Entry} (h : LaterEntry e e') :
    e.statement.object.map Node.content = e'.statement.object.map Node.content := by
  have hc := h.content
  rw [e.content_eq, e'.content_eq, StatementContent.mk.injEq] at hc
  exact hc.2.2.1

/-- A key from a scan and the same one later. -/
theorem LaterEntry.scanned_iff {freetext : Bool} {e e' : Entry} (h : LaterEntry e e') {p : ObjectScan → Prop}
    (hp : ∀ sc sc', LaterScan sc sc' → (p sc ↔ p sc')) :
    (∃ o, e.statement.object = some o ∧ ∃ sc, scanObject ext freetext e.errno o = some sc ∧ p sc) ↔
      ∃ o, e'.statement.object = some o ∧ ∃ sc, scanObject ext freetext e'.errno o = some sc ∧ p sc := by
  rw [exists_object_congr h.objects fun n n' hn => by rw [scanObject_congr hn]]
  constructor
  · rintro ⟨o, ho, sc, hsc, hk⟩
    obtain ⟨sc', hsc', -, hlater⟩ := scanObject_later hsc h.errno
    exact ⟨o, ho, sc', hsc', (hp sc sc' hlater).1 hk⟩
  · rintro ⟨o, ho, sc', hsc', hk⟩
    obtain ⟨sc, hsc, hlater⟩ := scanObject_earlier hsc' h.errno
    exact ⟨o, ho, sc, hsc, (hp sc sc' hlater).2 hk⟩

/-- The keys are the same, but for the numbers and the free-text keys. -/
theorem LaterEntry.hasKey_iff {freetext : Bool} {e e' : Entry} (h : LaterEntry e e') {t : Index} {k : Bytes}
    (ht : t.isNumber = false) (hw : t ≠ .windex) :
    e.HasKey ext freetext t k ↔ e'.HasKey ext freetext t k := by
  have hc := h.content
  rw [e.content_eq, e'.content_eq, StatementContent.mk.injEq] at hc
  obtain ⟨hs, hp, ho, hx⟩ := hc
  cases t with
  | subjects => exact exists_resourceKey_congr hs
  | predicates => exact exists_resourceKey_congr hp
  | objects => exact exists_object_congr ho fun n n' hn => by rw [objectHash_congr hn]
  | contexts => exact exists_resourceKey_congr hx
  | languages => exact exists_literal_congr ho fun l l' hl => by rw [languageKey_congr hl]
  | datatypes => exact exists_literal_congr ho fun l l' hl => by rw [datatypeKey_congr hl]
  | xsdDate =>
    simpa only [Entry.HasKey, exists_and_left] using
      @LaterEntry.scanned_iff ext freetext e e' h (fun sc => (.xsdDate, k) ∈ sc.others)
        fun sc sc' hlater => (hlater.same .xsdDate k rfl).symm
  | xsdInteger => cases ht
  | xsdDouble => cases ht
  | windex => exact absurd rfl hw

/-- What is a number later was one before. -/
theorem LaterEntry.number {freetext : Bool} {e e' : Entry} (h : LaterEntry e e') {t : Index} {k : Bytes}
    (ht : t.isNumber = true) (hk : e'.HasKey ext freetext t k) : e.HasKey ext freetext t k := by
  have hscan : (∃ o sc, e'.statement.object = some o ∧ scanObject ext freetext e'.errno o = some sc ∧
      (t, k) ∈ sc.others) → ∃ o sc, e.statement.object = some o ∧
      scanObject ext freetext e.errno o = some sc ∧ (t, k) ∈ sc.others := by
    rintro ⟨o, sc', ho, hsc', hmem⟩
    obtain ⟨sc, hsc, hlater⟩ := scanObject_earlier hsc' h.errno
    have hcongr : (∃ n, e.statement.object = some n ∧ scanObject ext freetext e.errno n = some sc) ↔
        ∃ n, e'.statement.object = some n ∧ scanObject ext freetext e.errno n = some sc :=
      exists_object_congr h.objects fun n n' hn => by rw [scanObject_congr hn]
    obtain ⟨o', ho', hsc⟩ := hcongr.2 ⟨o, ho, hsc⟩
    exact ⟨o', sc, ho', hsc, hlater.fewer _ hmem⟩
  cases t with
  | xsdInteger => exact hscan hk
  | xsdDouble => exact hscan hk
  | _ => cases ht

/-- What is a free-text key stays one. -/
theorem LaterEntry.windex {freetext : Bool} {e e' : Entry} (h : LaterEntry e e') {k : Bytes}
    (hk : e.HasKey ext freetext .windex k) : e'.HasKey ext freetext .windex k := by
  obtain ⟨l, ho, hw⟩ := (exists_literal_congr h.objects fun l l' hl => by
    rw [literalWindexKeys_congr hl]).1 hk
  obtain ⟨w, hw, rfl⟩ := hw
  refine ⟨l, ho, w, ?_, rfl⟩
  cases he' : e'.errno with
  | true => exact literalWindexKeys_later hw
  | false =>
    have he : e.errno = false := by
      cases he : e.errno with
      | false => rfl
      | true => rw [h.errno he] at he'; cases he'
    rwa [he] at hw

end RdfStore
