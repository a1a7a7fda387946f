import RdfStore.IndexTables

/-!
# What one call does

`rdfstore_insert` and `rdfstore_remove` leave at several places.  `InsertCase`
and `RemoveCase` list every way out with what was tested before it and what is
left behind, so that a result about a call is a case analysis and not a walk
through the code.  The keys a call touches are computed from the statement
alone (`adjacencyKeys`, `scanObject`); on the way to status 0 the call does to
each of them what `IndexTables` says of one key.

    rdfstoreInsert … = some (r, f) → InsertCase … r f           (rdfstoreInsert_cases)
    rdfstoreRemove … = some (r, f) → RemoveCase … r f           (rdfstoreRemove_cases)
    insertTables adds the id under every key                    (insertTables_adds)
    removeTables takes it out where it is                       (removeTables_spec)
-/

namespace RdfStore

open ByteMem

section

variable (ext : Externals)

/-! ## The keys of a statement -/

def optKey (t : Index) (key : Option Bytes) : List (Index × Bytes) := key.toList.map (t, ·)

@[simp] theorem optKey_none (t : Index) : optKey t none = [] := rfl

@[simp] theorem optKey_some (t : Index) (k : Bytes) : optKey t (some k) = [(t, k)] := rfl

/-- The keys of the adjacency tables. -/
def adjacencyKeys (a : Args) (context : Option Resource) : List (Index × Bytes) :=
  [(.subjects, nodeKey ext (.resource a.subject)), (.predicates, nodeKey ext (.resource a.predicate)),
    (.objects, nodeKey ext a.object)]
    ++ optKey .contexts (context.map fun c => nodeKey ext (.resource c))

/-- What the literal part of a call looks at: `errno` afterwards, the free-text keys in order and
the keys of the other literal tables. -/
structure ObjectScan where
  errno : Bool
  windex : List WindexKey
  others : List (Index × Bytes)

/-- `none` is the crash on a date literal without string. -/
def scanLiteral (freetext errno : Bool) (l : Literal) : Option ObjectScan :=
  let w := literalWindexKeys ext freetext errno l
  (dateKey ext w.1 l).map fun d =>
    let iv := integerKey ext d.1 l
    let dv := doubleKey ext iv.1 l iv.2.isSome
    { errno := dv.1
      windex := w.2
      others := optKey .languages (languageKey ext l) ++ optKey .datatypes (datatypeKey l)
        ++ optKey .xsdDate d.2 ++ optKey .xsdInteger iv.2 ++ optKey .xsdDouble dv.2 }

def scanObject (freetext errno : Bool) (o : Node) : Option ObjectScan :=
  match o with
  | .resource _ => some ⟨errno, [], []⟩
  | .literal l => scanLiteral ext freetext errno l

/-- The free-text keys as keys of the free-text table. -/
def ObjectScan.windexIndexed (sc : ObjectScan) : List (Index × Bytes) :=
  sc.windex.map fun k => (.windex, k.bytes)

variable {ext}

/-- The scan, step by step. -/
theorem scanLiteral_eq_some {freetext errno : Bool} {l : Literal} {sc : ObjectScan}
    (h : scanLiteral ext freetext errno l = some sc) :
    ∃ w d iv dv, literalWindexKeys ext freetext errno l = w ∧ dateKey ext w.1 l = some d ∧
      integerKey ext d.1 l = iv ∧ doubleKey ext iv.1 l iv.2.isSome = dv ∧
      sc = ⟨dv.1, w.2, optKey .languages (languageKey ext l) ++ optKey .datatypes (datatypeKey l)
        ++ optKey .xsdDate d.2 ++ optKey .xsdInteger iv.2 ++ optKey .xsdDouble dv.2⟩ := by
  obtain ⟨d, hd, rfl⟩ := Option.map_eq_some_iff.1 h
  exact ⟨_, d, _, _, rfl, hd, rfl, rfl, rfl⟩

/-! ## Inserting into the tables -/

theorem Adds.withErrno {i : Nat} {l : List (Index × Bytes)} {me me' : Store} {e : Bool}
    (h : Adds ext i l { me with errno := e } me') : Adds ext i l me me' :=
  ⟨h.ok, ⟨h.rest.1, h.rest.2, h.rest.3, h.rest.4, h.rest.5, h.rest.6⟩, h.ids⟩

theorem Drops.withErrno {i : Nat} {l : List (Index × Bytes)} {me me' : Store} {e : Bool}
    (h : Drops ext i l { me with errno := e } me') : Drops ext i l me me' :=
  ⟨h.ok, ⟨h.rest.1, h.rest.2, h.rest.3, h.rest.4, h.rest.5, h.rest.6⟩, h.ids⟩

theorem insertOpt_spec (hl : ext.Lossless) {me : Store} (hok : TablesOk ext me) {i : Nat}
    (hi : i < maxRecords) (t : Index) (key : Option Bytes) :
    ∃ me', insertOpt ext t i me key = some me' ∧ Adds ext i (optKey t key) me me' ∧
      me'.errno = me.errno := by
  cases key with
  | none => exact ⟨me, rfl, Adds.nil hok rfl (SameRest.refl me), rfl⟩
  | some k => exact indexInsert_spec hl hok hi .plain t k

/-- The same after `errno` was set. -/
theorem insertOpt_errno_spec (hl : ext.Lossless) {me : Store} (hok : TablesOk ext me) {i : Nat}
    (hi : i < maxRecords) (t : Index) (key : Option Bytes) (errno : Bool) :
    ∃ me', insertOpt ext t i { me with errno } key = some me' ∧ Adds ext i (optKey t key) me me' ∧
      me'.errno = errno := by
  obtain ⟨me', h, a, e⟩ := insertOpt_spec hl (show TablesOk ext { me with errno } from hok.congr rfl) hi t key
  exact ⟨me', h, a.withErrno, e⟩

theorem insertWindex_spec (hl : ext.Lossless) {i : Nat} (hi : i < maxRecords) (keys : List WindexKey)
    {me : Store} (hok : TablesOk ext me) :
    ∃ me', keys.foldlM (fun me k => indexInsert ext (windexAccess k) me .windex k.bytes i) me = some me' ∧
      Adds ext i (keys.map fun k => (.windex, k.bytes)) me me' ∧ me'.errno = me.errno := by
  induction keys generalizing me with
  | nil => exact ⟨me, rfl, Adds.nil hok rfl (SameRest.refl me), rfl⟩
  | cons k keys ih =>
    obtain ⟨me₁, h₁, hadd, he⟩ := indexInsert_spec hl hok hi (windexAccess k) .windex k.bytes
    obtain ⟨me₂, h₂, hadd', he'⟩ := ih hadd.ok
    exact ⟨me₂, by rw [List.foldlM_cons, h₁]; exact h₂, hadd.append hadd', he'.trans he⟩

theorem insertLiteral_spec (hl : ext.Lossless) {me : Store} (hok : TablesOk ext me) {i : Nat}
    (hi : i < maxRecords) (l : Literal) {sc : ObjectScan}
    (hsc : scanLiteral ext me.freetext me.errno l = some sc) :
    ∃ me', insertLiteral ext me l i = some me' ∧ Adds ext i (sc.windexIndexed ++ sc.others) me me' ∧
      me'.errno = sc.errno := by
  obtain ⟨w, d, iv, dv, hw, hd, hiv, hdv, rfl⟩ := scanLiteral_eq_some hsc
  -- one table after the other, as the code does
  obtain ⟨me₁, h₁, a₁, e₁⟩ := insertWindex_spec hl hi w.2
    (show TablesOk ext { me with errno := w.1 } from hok.congr rfl)
  obtain ⟨me₂, h₂, a₂, e₂⟩ := insertOpt_spec hl a₁.ok hi .languages (languageKey ext l)
  obtain ⟨me₃, h₃, a₃, e₃⟩ := insertOpt_spec hl a₂.ok hi .datatypes (datatypeKey l)
  have hd' : dateKey ext me₃.errno l = some d := by rw [e₃, e₂, e₁]; exact hd
  obtain ⟨me₄, h₄, a₄, e₄⟩ := insertOpt_errno_spec hl a₃.ok hi .xsdDate d.2 d.1
  obtain ⟨me₅, h₅, a₅, e₅⟩ := insertOpt_errno_spec hl a₄.ok hi .xsdInteger iv.2 iv.1
  obtain ⟨me₆, h₆, a₆, e₆⟩ := insertOpt_errno_spec hl a₅.ok hi .xsdDouble dv.2 dv.1
  have hadds := ((((a₁.withErrno.append a₂).append a₃).append a₄).append a₅).append a₆
  refine ⟨me₆, ?_, ?_, e₆⟩
  · simp only [insertLiteral, hw, h₁, h₂, h₃, hd', h₄, e₄, hiv, h₅, e₅, hdv, Option.bind_eq_bind,
      Option.bind_some]
    exact h₆
  · simpa only [ObjectScan.windexIndexed, List.append_assoc] using hadds

theorem insertLiteral_none {me : Store} {l : Literal} {i : Nat} (hl : ext.Lossless)
    (hok : TablesOk ext me) (hi : i < maxRecords)
    (hsc : scanLiteral ext me.freetext me.errno l = none) : insertLiteral ext me l i = none := by
  generalize hw : literalWindexKeys ext me.freetext me.errno l = w
  have hd : dateKey ext w.1 l = none := by
    rw [scanLiteral, hw] at hsc
    simpa using hsc
  obtain ⟨me₁, h₁, a₁, e₁⟩ := insertWindex_spec hl hi w.2
    (show TablesOk ext { me with errno := w.1 } from hok.congr rfl)
  obtain ⟨me₂, h₂, a₂, e₂⟩ := insertOpt_spec hl a₁.ok hi .languages (languageKey ext l)
  obtain ⟨me₃, h₃, a₃, e₃⟩ := insertOpt_spec hl a₂.ok hi .datatypes (datatypeKey l)
  have hd' : dateKey ext me₃.errno l = none := by rw [e₃, e₂, e₁]; exact hd
  simp only [insertLiteral, hw, h₁, h₂, h₃, hd', Option.bind_eq_bind, Option.bind_some, Option.bind_none]

/-- Adding a statement that can be scanned to all tables: the id goes under every key of the
statement. -/
theorem insertTables_adds (hl : ext.Lossless) {me : Store} (hok : TablesOk ext me) {i : Nat}
    (hi : i < maxRecords) (a : Args) (st : Statement) (context : Option Resource) {sc : ObjectScan}
    (hsc : scanObject ext me.freetext me.errno a.object = some sc) :
    ∃ me', insertTables ext me a st context i = some me' ∧ me'.errno = sc.errno ∧
      Adds ext i (sc.windexIndexed ++ sc.others ++ adjacencyKeys ext a context)
        { me with nodes := rdfstoreFlatStoreStore me.nodes (packInt i) (statementRecord a st context) } me' := by
  generalize hme₀ : ({ me with
    nodes := rdfstoreFlatStoreStore me.nodes (packInt i) (statementRecord a st context) } : Store) = me₀
  have hok₀ : TablesOk ext me₀ := hok.congr (by rw [← hme₀])
  have hf₀ : me₀.freetext = me.freetext := by rw [← hme₀]
  have he₀ : me₀.errno = me.errno := by rw [← hme₀]
  -- the literal tables
  obtain ⟨me₁, h₁, a₁, e₁⟩ : ∃ me₁, insertObjectTables ext me₀ a.object i = some me₁ ∧
      Adds ext i (sc.windexIndexed ++ sc.others) me₀ me₁ ∧ me₁.errno = sc.errno := by
    rw [← hf₀, ← he₀] at hsc
    cases ho : a.object with
    | resource r =>
      rw [ho] at hsc
      cases hsc
      exact ⟨me₀, rfl, Adds.nil hok₀ rfl (SameRest.refl me₀), rfl⟩
    | literal l =>
      rw [ho] at hsc
      exact insertLiteral_spec hl hok₀ hi l hsc
  -- the adjacency tables
  obtain ⟨me₂, h₂, a₂, e₂⟩ := indexInsert_spec hl a₁.ok hi .plain .subjects (nodeKey ext (.resource a.subject))
  obtain ⟨me₃, h₃, a₃, e₃⟩ := indexInsert_spec hl a₂.ok hi .plain .predicates (nodeKey ext (.resource a.predicate))
  obtain ⟨me₄, h₄, a₄, e₄⟩ := indexInsert_spec hl a₃.ok hi .plain .objects (nodeKey ext a.object)
  obtain ⟨me₅, h₅, a₅, e₅⟩ := insertOpt_spec hl a₄.ok hi .contexts
    (context.map fun c => nodeKey ext (.resource c))
  refine ⟨me₅, ?_, ((e₅.trans e₄).trans (e₃.trans e₂)).trans e₁, ?_⟩
  · simp only [insertTables, hme₀, h₁, h₂, h₃, h₄, h₅, Option.bind_eq_bind, Option.bind_some]
  · have hadds := (((a₁.append a₂).append a₃).append a₄).append a₅
    simpa only [adjacencyKeys, List.append_assoc, List.singleton_append, List.cons_append,
      List.nil_append] using hadds

/-- Whenever a statement gets into the tables, it can be scanned. -/
theorem insertTables_spec (hl : ext.Lossless) {me : Store} (hok : TablesOk ext me) {i : Nat}
    (hi : i < maxRecords) (a : Args) (st : Statement) (context : Option Resource) {me' : Store}
    (h : insertTables ext me a st context i = some me') :
    ∃ sc, scanObject ext me.freetext me.errno a.object = some sc ∧ me'.errno = sc.errno ∧
      Adds ext i (sc.windexIndexed ++ sc.others ++ adjacencyKeys ext a context)
        { me with nodes := rdfstoreFlatStoreStore me.nodes (packInt i) (statementRecord a st context) } me' := by
  cases hsc : scanObject ext me.freetext me.errno a.object with
  | some sc =>
    obtain ⟨me₁, h₁, hadds⟩ := insertTables_adds hl hok hi a st context hsc
    rw [h] at h₁
    cases h₁
    exact ⟨sc, rfl, hadds⟩
  | none =>
    cases ho : a.object with
    | resource r =>
      rw [ho] at hsc
      cases hsc
    | literal l =>
      rw [ho] at hsc
      have hok₀ : TablesOk ext { me with
        nodes := rdfstoreFlatStoreStore me.nodes (packInt i) (statementRecord a st context) } := hok.congr rfl
      have hnone := insertLiteral_none hl hok₀ hi hsc
      simp only [insertTables, ho, insertObjectTables, hnone, Option.bind_eq_bind, Option.bind_none] at h
      cases h

/-! ## Taking an id out of the tables -/

theorem okBind {α β : Type} (x : α) (f : α → Except Exit β) : (Except.ok x >>= f) = f x := rfl

/-- What one free-text key of `rdfstore_remove` does to the ids under the free-text keys. -/
def windexDrop (i : Nat) (w : Bytes → Finset Nat) (key : Bytes) : Bytes → Finset Nat :=
  Function.update w key (if 2 ≤ (w key).card then (w key).erase i else ∅)

theorem removeOpt_spec (hl : ext.Lossless) {me : Store} (hok : TablesOk ext me) {i : Nat}
    (hi : i < maxRecords) (t : Index) (key : Option Bytes)
    (hmem : ∀ k, (t, k) ∈ optKey t key → i ∈ ids ext me t k) :
    ∃ me', removeOpt ext t i me key = .ok me' ∧ Drops ext i (optKey t key) me me' ∧
      me'.errno = me.errno := by
  cases key with
  | none => exact ⟨me, rfl, Drops.nil hok rfl (SameRest.refl me), rfl⟩
  | some k => exact indexRemove_spec hl hok hi .compressed t k (hmem k (by simp))

theorem removeOpt_errno_spec (hl : ext.Lossless) {me : Store} (hok : TablesOk ext me) {i : Nat}
    (hi : i < maxRecords) (t : Index) (key : Option Bytes) (errno : Bool)
    (hmem : ∀ k, (t, k) ∈ optKey t key → i ∈ ids ext me t k) :
    ∃ me', removeOpt ext t i { me with errno } key = .ok me' ∧ Drops ext i (optKey t key) me me' ∧
      me'.errno = errno := by
  obtain ⟨me', h, a, e⟩ := removeOpt_spec hl (show TablesOk ext { me with errno } from hok.congr rfl) hi t
    key hmem
  exact ⟨me', h, a.withErrno, e⟩

theorem removeWindex_spec (hl : ext.Lossless) {i : Nat} (hi : i < maxRecords) (keys : List WindexKey)
    {me : Store} (hok : TablesOk ext me) :
    ∃ me', keys.foldlM (fun me k => windexRemove ext me k.bytes i) me = some me' ∧
      TablesOk ext me' ∧ SameRest me me' ∧ me'.errno = me.errno ∧
      (∀ t k, t ≠ .windex → ids ext me' t k = ids ext me t k) ∧
      ids ext me' .windex = (keys.map (·.bytes)).foldl (windexDrop i) (ids ext me .windex) := by
  induction keys generalizing me with
  | nil => exact ⟨me, rfl, hok, SameRest.refl me, rfl, fun _ _ _ => rfl, rfl⟩
  | cons k keys ih =>
    obtain ⟨me₁, h₁, ok₁, rest₁, e₁, ids₁⟩ := windexRemove_spec hl hok hi k.bytes
    obtain ⟨me₂, h₂, ok₂, rest₂, e₂, other₂, windex₂⟩ := ih ok₁
    refine ⟨me₂, by rw [List.foldlM_cons, h₁]; exact h₂, ok₂, rest₁.trans rest₂, e₂.trans e₁, ?_, ?_⟩
    · intro t k' ht
      rw [other₂ t k' ht, ids₁, if_neg fun h => ht h.1]
    · have hstep : ids ext me₁ .windex = windexDrop i (ids ext me .windex) k.bytes := by
        funext k'
        rw [ids₁, windexDrop, Function.update_apply]
        by_cases hk : k' = k.bytes
        · rw [if_pos ⟨rfl, hk⟩, if_pos hk]
        · rw [if_neg fun h => hk h.2, if_neg hk]
      rw [windex₂, hstep]
      rfl

variable (ext)

/-- The id was taken out: under every key of the list, and of the free-text keys as
`windexDrop` does. -/
structure Removes (i : Nat) (keys : List (Index × Bytes)) (windex : List WindexKey)
    (me me' : Store) : Prop where
  ok : TablesOk ext me'
  rest : SameRest me me'
  idsWindex : ids ext me' .windex = (windex.map (·.bytes)).foldl (windexDrop i) (ids ext me .windex)
  ids : ∀ t k, t ≠ .windex →
    ids ext me' t k = if (t, k) ∈ keys then (ids ext me t k).erase i else ids ext me t k

variable {ext}

theorem removeLiteral_spec (hl : ext.Lossless) {me : Store} (hok : TablesOk ext me) {i : Nat}
    (hi : i < maxRecords) (l : Literal) {sc : ObjectScan}
    (hsc : scanLiteral ext me.freetext me.errno l = some sc)
    (hmem : ∀ t k, (t, k) ∈ sc.others → i ∈ ids ext me t k) :
    ∃ me', removeLiteral ext me l i = .ok me' ∧ Removes ext i sc.others sc.windex me me' ∧
      me'.errno = sc.errno := by
  obtain ⟨w, d, iv, dv, hw, hd, hiv, hdv, rfl⟩ := scanLiteral_eq_some hsc
  obtain ⟨me₁, h₁, ok₁, rest₁, e₁, other₁, windex₁⟩ := removeWindex_spec hl hi w.2
    (show TablesOk ext { me with errno := w.1 } from hok.congr rfl)
  have hids₁ : ∀ t k, t ≠ .windex → ids ext me₁ t k = ids ext me t k := other₁
  -- the id is still under a key when its table is reached
  obtain ⟨me₂, h₂, a₂, e₂⟩ := removeOpt_spec hl ok₁ hi .languages (languageKey ext l) fun k hk => by
    rw [hids₁ _ _ (by decide)]
    exact hmem _ _ (by simp [hk])
  obtain ⟨me₃, h₃, a₃, e₃⟩ := removeOpt_spec hl a₂.ok hi .datatypes (datatypeKey l) fun k hk => by
    rw [a₂.ids, if_neg (by simp [optKey]), hids₁ _ _ (by decide)]
    exact hmem _ _ (by simp [hk])
  have d₃ := a₂.append a₃
  have hd' : dateKey ext me₃.errno l = some d := by rw [e₃, e₂, e₁]; exact hd
  obtain ⟨me₄, h₄, a₄, e₄⟩ := removeOpt_errno_spec hl d₃.ok hi .xsdDate d.2 d.1 fun k hk => by
    rw [d₃.ids, if_neg (by simp [optKey]), hids₁ _ _ (by decide)]
    exact hmem _ _ (by simp [hk])
  have d₄ := d₃.append a₄
  obtain ⟨me₅, h₅, a₅, e₅⟩ := removeOpt_errno_spec hl d₄.ok hi .xsdInteger iv.2 iv.1 fun k hk => by
    rw [d₄.ids, if_neg (by simp [optKey]), hids₁ _ _ (by decide)]
    exact hmem _ _ (by simp [hk])
  have d₅ := d₄.append a₅
  obtain ⟨me₆, h₆, a₆, e₆⟩ := removeOpt_errno_spec hl d₅.ok hi .xsdDouble dv.2 dv.1 fun k hk => by
    rw [d₅.ids, if_neg (by simp [optKey]), hids₁ _ _ (by decide)]
    exact hmem _ _ (by simp [hk])
  have d₆ := d₅.append a₆
  refine ⟨me₆, ?_, ⟨d₆.ok, ?_, ?_, ?_⟩, e₆⟩
  · simp only [removeLiteral, hw, h₁, orAbort, h₂, h₃, hd', h₄, e₄, hiv, h₅, e₅, hdv, okBind]
    exact h₆
  · have hrest : SameRest me me₁ := ⟨rest₁.1, rest₁.2, rest₁.3, rest₁.4, rest₁.5, rest₁.6⟩
    exact hrest.trans d₆.rest
  · funext k
    rw [d₆.ids, if_neg (by simp [optKey]), windex₁]
    rfl
  · intro t k ht
    rw [d₆.ids, hids₁ t k ht]

/-- The literal tables are not the adjacency tables. -/
theorem scanLiteral_disjoint {freetext errno : Bool} {l : Literal} {sc : ObjectScan} {a : Args}
    {context : Option Resource} {p : Index × Bytes} (hsc : scanLiteral ext freetext errno l = some sc)
    (hadj : p ∈ adjacencyKeys ext a context) : p ∉ sc.others := by
  obtain ⟨_, d, iv, dv, -, -, -, -, rfl⟩ := scanLiteral_eq_some hsc
  obtain ⟨t, k⟩ := p
  intro h
  simp only [adjacencyKeys, optKey, List.mem_append, List.mem_cons, List.mem_map, Prod.mk.injEq,
    List.not_mem_nil, or_false] at hadj h
  rcases hadj with (⟨rfl, -⟩ | ⟨rfl, -⟩ | ⟨rfl, -⟩) | ⟨_, -, rfl, -⟩ <;> simp at h

/-- Taking a statement out of all tables succeeds when its id is under all its keys. -/
theorem removeTables_spec (hl : ext.Lossless) {me : Store} (hok : TablesOk ext me) {i : Nat}
    (hi : i < maxRecords) (a : Args) (context : Option Resource) {sc : ObjectScan}
    (hsc : scanObject ext me.freetext me.errno a.object = some sc)
    (hmem : ∀ t k, (t, k) ∈ adjacencyKeys ext a context ++ sc.others → i ∈ ids ext me t k) :
    ∃ me', removeTables ext me a context i = .ok me' ∧
      Removes ext i (adjacencyKeys ext a context ++ sc.others) sc.windex me me' ∧
      me'.errno = sc.errno := by
  have hadj : ∀ t k, (t, k) ∈ adjacencyKeys ext a context → i ∈ ids ext me t k :=
    fun t k h => hmem t k (List.mem_append_left _ h)
  have hothers : ∀ t k, (t, k) ∈ sc.others → i ∈ ids ext me t k :=
    fun t k h => hmem t k (List.mem_append_right _ h)
  clear hmem
  simp only [adjacencyKeys, List.mem_append, List.mem_cons, List.not_mem_nil, or_false] at hadj
  obtain ⟨me₁, h₁, a₁, e₁⟩ := indexRemove_spec hl hok hi .plain .subjects (nodeKey ext (.resource a.subject))
    (hadj _ _ (by simp))
  obtain ⟨me₂, h₂, a₂, e₂⟩ := indexRemove_spec hl a₁.ok hi .plain .predicates
    (nodeKey ext (.resource a.predicate)) (by rw [a₁.ids, if_neg (by simp)]; exact hadj _ _ (by simp))
  have d₂ := a₁.append a₂
  obtain ⟨me₃, h₃, a₃, e₃⟩ := indexRemove_spec hl d₂.ok hi .plain .objects (nodeKey ext a.object)
    (by rw [d₂.ids, if_neg (by simp)]; exact hadj _ _ (by simp))
  have d₃ := d₂.append a₃
  obtain ⟨me₄, h₄, a₄, e₄⟩ := removeOpt_spec hl d₃.ok hi .contexts
    (context.map fun c => nodeKey ext (.resource c)) fun k hk => by
      rw [d₃.ids, if_neg (by simp)]
      exact hadj _ _ (Or.inr hk)
  have d₄ : Drops ext i (adjacencyKeys ext a context) me me₄ := d₃.append a₄
  have he : me₄.errno = me.errno := ((e₄.trans e₃).trans e₂).trans e₁
  -- the literal tables are other tables
  obtain ⟨me₅, h₅, r₅, e₅⟩ : ∃ me₅, removeObjectTables ext me₄ a.object i = .ok me₅ ∧
      Removes ext i sc.others sc.windex me₄ me₅ ∧ me₅.errno = sc.errno := by
    rw [← he, ← d₄.rest.freetext] at hsc
    cases ho : a.object with
    | resource r =>
      rw [ho] at hsc
      cases hsc
      exact ⟨me₄, rfl, ⟨d₄.ok, SameRest.refl _, rfl, fun t k _ => by rw [if_neg (by simp)]⟩, rfl⟩
    | literal l =>
      rw [ho] at hsc
      refine removeLiteral_spec hl d₄.ok hi l hsc fun t k hk => ?_
      have hne : (t, k) ∉ adjacencyKeys ext a context := fun h => scanLiteral_disjoint hsc h hk
      rw [d₄.ids, if_neg hne]
      exact hothers t k hk
  refine ⟨me₅, ?_, ⟨r₅.ok, d₄.rest.trans r₅.rest, ?_, fun t k ht => ?_⟩, e₅⟩
  · simp only [removeTables, h₁, h₂, h₃, h₄, okBind]
    exact h₅
  · rw [r₅.idsWindex]
    congr 1
    funext k
    rw [d₄.ids, if_neg (by simp [adjacencyKeys, optKey])]
  · rw [r₅.ids t k ht, d₄.ids]
    by_cases h1 : (t, k) ∈ adjacencyKeys ext a context <;> by_cases h2 : (t, k) ∈ sc.others <;> simp [h1, h2]

/-! ## What the table updates leave alone, in any store -/

theorem SameRest.withErrno {me me' : Store} {e : Bool} (h : SameRest { me with errno := e } me') :
    SameRest me me' :=
  ⟨h.1, h.2, h.3, h.4, h.5, h.6⟩

theorem putEntry_sameRest (me : Store) (t : Index) (key : Bytes) (entry : Option Bytes) :
    SameRest me (me.putEntry t key entry) := by
  cases entry <;> exact ⟨rfl, rfl, rfl, rfl, rfl, rfl⟩

theorem indexInsert_sameRest {a : Access} {me me' : Store} {t : Index} {key : Bytes} {i : Nat}
    (h : indexInsert ext a me t key i = some me') : SameRest me me' := by
  unfold indexInsert at h
  simp only at h
  split at h
  · cases h
  · cases h
    obtain ⟨h1, h2, h3, h4, h5, h6⟩ := putEntry_sameRest { me with bitsDecode := _ } t key _
    exact ⟨h1, h2, h3, h4, h5, h6⟩

theorem insertOpt_sameRest {me me' : Store} {t : Index} {key : Option Bytes} {i : Nat}
    (h : insertOpt ext t i me key = some me') : SameRest me me' := by
  cases key with
  | none => cases h; exact SameRest.refl _
  | some k => exact indexInsert_sameRest h

theorem insertWindex_sameRest {i : Nat} (keys : List WindexKey) {me me' : Store}
    (h : keys.foldlM (fun me k => indexInsert ext (windexAccess k) me .windex k.bytes i) me = some me') :
    SameRest me me' := by
  induction keys generalizing me with
  | nil => cases h; exact SameRest.refl _
  | cons k keys ih =>
    rw [List.foldlM_cons, Option.bind_eq_bind, Option.bind_eq_some_iff] at h
    obtain ⟨me₁, h₁, h₂⟩ := h
    exact (indexInsert_sameRest h₁).trans (ih h₂)

theorem insertLiteral_sameRest {me me' : Store} {l : Literal} {i : Nat}
    (h : insertLiteral ext me l i = some me') : SameRest me me' := by
  simp only [insertLiteral, Option.bind_eq_bind, Option.bind_eq_some_iff] at h
  obtain ⟨me₁, h₁, me₂, h₂, me₃, h₃, d, -, me₄, h₄, me₅, h₅, h₆⟩ := h
  have r₁ := (insertWindex_sameRest _ h₁).withErrno
  have r₃ := (r₁.trans (insertOpt_sameRest h₂)).trans (insertOpt_sameRest h₃)
  have r₅ := (r₃.trans (insertOpt_sameRest h₄).withErrno).trans (insertOpt_sameRest h₅).withErrno
  exact r₅.trans (insertOpt_sameRest h₆).withErrno

/-- Only `nodes` and the bitmap tables change. -/
theorem insertTables_sameRest {me me' : Store} {a : Args} {st : Statement} {context : Option Resource}
    {i : Nat} (h : insertTables ext me a st context i = some me') :
    SameRest { me with
      nodes := rdfstoreFlatStoreStore me.nodes (packInt i) (statementRecord a st context) } me' := by
  simp only [insertTables, Option.bind_eq_bind, Option.bind_eq_some_iff] at h
  obtain ⟨me₁, h₁, me₂, h₂, me₃, h₃, me₄, h₄, h₅⟩ := h
  have r₁ : SameRest { me with
      nodes := rdfstoreFlatStoreStore me.nodes (packInt i) (statementRecord a st context) } me₁ := by
    cases ho : a.object with
    | resource r => rw [ho] at h₁; cases h₁; exact SameRest.refl _
    | literal l => rw [ho] at h₁; exact insertLiteral_sameRest h₁
  have r₃ := (r₁.trans (indexInsert_sameRest h₂)).trans (indexInsert_sameRest h₃)
  exact (r₃.trans (indexInsert_sameRest h₄)).trans (insertOpt_sameRest h₅)

/-- A removal that comes back, at the end or half-way with status 1, changed the bitmap tables
only. -/
def RestIn (me : Store) (x : Except Exit Store) : Prop :=
  match x with
  | .ok me' => SameRest me me'
  | .error (.ret status me') => status = 1 ∧ SameRest me me'
  | .error .abort => True

theorem RestIn.bind {me : Store} {x : Except Exit Store} {f : Store → Except Exit Store}
    (hx : RestIn me x) (hf : ∀ me', SameRest me me' → RestIn me (f me')) : RestIn me (x >>= f) := by
  cases x with
  | ok me' => exact hf me' hx
  | error e => exact hx

theorem RestIn.trans {a b : Store} {x : Except Exit Store} (hab : SameRest a b) (h : RestIn b x) :
    RestIn a x := by
  cases x with
  | ok me' => exact SameRest.trans hab h
  | error e =>
    cases e with
    | abort => trivial
    | ret status me' => exact ⟨h.1, SameRest.trans hab h.2⟩

theorem RestIn.withErrno {me : Store} {e : Bool} {x : Except Exit Store}
    (h : RestIn { me with errno := e } x) : RestIn me x :=
  RestIn.trans (b := { me with errno := e }) ⟨rfl, rfl, rfl, rfl, rfl, rfl⟩ h

theorem indexRemove_restIn (a : Access) (me : Store) (t : Index) (key : Bytes) (i : Nat) :
    RestIn me (indexRemove ext a me t key i) := by
  unfold indexRemove
  simp only
  split
  · trivial
  · split
    · obtain ⟨h1, h2, h3, h4, h5, h6⟩ := putEntry_sameRest { me with bitsDecode := _ } t key _
      exact ⟨h1, h2, h3, h4, h5, h6⟩
    · split
      · exact ⟨rfl, rfl, rfl, rfl, rfl, rfl, rfl⟩
      · exact ⟨rfl, rfl, rfl, rfl, rfl, rfl⟩

theorem removeOpt_restIn (t : Index) (i : Nat) (me : Store) (key : Option Bytes) :
    RestIn me (removeOpt ext t i me key) := by
  cases key with
  | none => exact SameRest.refl me
  | some k => exact indexRemove_restIn .compressed me t k i

theorem windexRemove_sameRest {me me' : Store} {key : Bytes} {i : Nat}
    (h : windexRemove ext me key i = some me') : SameRest me me' := by
  unfold windexRemove at h
  simp only at h
  split at h
  · split at h
    · cases h
    · cases h
      obtain ⟨h1, h2, h3, h4, h5, h6⟩ := putEntry_sameRest { me with bitsDecode := _ } .windex key _
      exact ⟨h1, h2, h3, h4, h5, h6⟩
  · split at h <;> cases h <;> exact ⟨rfl, rfl, rfl, rfl, rfl, rfl⟩

theorem removeWindex_sameRest {i : Nat} (keys : List WindexKey) {me me' : Store}
    (h : keys.foldlM (fun me k => windexRemove ext me k.bytes i) me = some me') : SameRest me me' := by
  induction keys generalizing me with
  | nil => cases h; exact SameRest.refl _
  | cons k keys ih =>
    rw [List.foldlM_cons, Option.bind_eq_bind, Option.bind_eq_some_iff] at h
    obtain ⟨me₁, h₁, h₂⟩ := h
    exact (windexRemove_sameRest h₁).trans (ih h₂)

theorem removeLiteral_restIn (me : Store) (l : Literal) (i : Nat) :
    RestIn me (removeLiteral ext me l i) := by
  unfold removeLiteral
  have hwindex : RestIn me (orAbort ((literalWindexKeys ext me.freetext me.errno l).2.foldlM
      (fun me k => windexRemove ext me k.bytes i)
      { me with errno := (literalWindexKeys ext me.freetext me.errno l).1 })) := by
    cases h : (literalWindexKeys ext me.freetext me.errno l).2.foldlM
      (fun me k => windexRemove ext me k.bytes i)
      { me with errno := (literalWindexKeys ext me.freetext me.errno l).1 } with
    | none => trivial
    | some me' => exact (removeWindex_sameRest _ h).withErrno
  refine hwindex.bind fun me₁ r₁ => ?_
  refine (RestIn.trans r₁ (removeOpt_restIn _ _ _ _)).bind fun me₂ r₂ => ?_
  refine (RestIn.trans r₂ (removeOpt_restIn _ _ _ _)).bind fun me₃ r₃ => ?_
  cases dateKey ext me₃.errno l with
  | none => trivial
  | some d =>
    refine (RestIn.trans r₃ (removeOpt_restIn _ _ _ _).withErrno).bind fun me₄ r₄ => ?_
    refine (RestIn.trans r₄ (removeOpt_restIn _ _ _ _).withErrno).bind fun me₅ r₅ => ?_
    exact RestIn.trans r₅ (removeOpt_restIn _ _ _ _).withErrno

/-- Only the bitmap tables change, also when the removal ends half-way. -/
theorem removeTables_restIn (me : Store) (a : Args) (context : Option Resource) (i : Nat) :
    RestIn me (removeTables ext me a context i) := by
  unfold removeTables
  refine (indexRemove_restIn _ _ _ _ _).bind fun me₁ r₁ => ?_
  refine (RestIn.trans r₁ (indexRemove_restIn _ _ _ _ _)).bind fun me₂ r₂ => ?_
  refine (RestIn.trans r₂ (indexRemove_restIn _ _ _ _ _)).bind fun me₃ r₃ => ?_
  refine (RestIn.trans r₃ (removeOpt_restIn _ _ _ _)).bind fun me₄ r₄ => ?_
  refine RestIn.trans r₄ ?_
  cases a.object with
  | resource r => exact SameRest.refl _
  | literal l => exact removeLiteral_restIn me₄ l i

theorem removeTables_ok_sameRest {me me' : Store} {a : Args} {context : Option Resource} {i : Nat}
    (h : removeTables ext me a context i = .ok me') : SameRest me me' := by
  have hrest : RestIn me (removeTables ext me a context i) := removeTables_restIn me a context i
  rw [h] at hrest
  exact hrest

theorem removeTables_ret {me me' : Store} {a : Args} {context : Option Resource} {i : Nat}
    {status : Int} (h : removeTables ext me a context i = .error (.ret status me')) :
    status = 1 ∧ SameRest me me' := by
  have hrest : RestIn me (removeTables ext me a context i) := removeTables_restIn me a context i
  rw [h] at hrest
  exact hrest

/-! ## The ways out of a call -/

section Ways

variable (ext)

/-- The hash code a call of `rdfstore_insert` or `rdfstore_remove` works with. -/
def callHash (me : Store) (st : Statement) (givenContext : Option Resource) : UInt32 :=
  rdfstoreDigestGetStatementHashCode ext st (effectiveContext me st givenContext)

/-- The objects of a call after the statement's hash code was cached. -/
def callFrame (me : Store) (st : Statement) (givenContext : Option Resource) : Frame :=
  (⟨me, st, givenContext⟩ : Frame).cacheStatementHash (callHash ext me st givenContext)

/-- The default context after a call that cached the hash codes of the nodes. -/
def cachedContext (me : Store) (st : Statement) (givenContext : Option Resource) : Option Resource :=
  match givenContext, st.context, me.context with
  | none, none, some c => some (c.cacheHash ext)
  | _, _, c => c

/-- What an insert that answers 0 leaves in the store, `me'` being the store after the tables. -/
def storedMe (now : Bytes) (me' : Store) (st : Statement) (givenContext : Option Resource) (hc : UInt32)
    (stId : Nat) : Store :=
  { me' with
    context := cachedContext ext me' st givenContext
    statements := rdfstoreFlatStoreStore me'.statements (hashKey hc) (packInt stId)
    lastModified := now }

theorem cacheStatementHash_me (f : Frame) (hc : UInt32) : (f.cacheStatementHash hc).me = f.me := by
  unfold Frame.cacheStatementHash
  split <;> rfl

theorem cacheStatementHash_givenContext (f : Frame) (hc : UInt32) :
    (f.cacheStatementHash hc).givenContext = f.givenContext := by
  unfold Frame.cacheStatementHash
  split <;> rfl

theorem cachedContext_cacheStatementHash (me : Store) (f : Frame) (hc : UInt32)
    (given : Option Resource) :
    cachedContext ext me (f.cacheStatementHash hc).statement given =
      cachedContext ext me f.statement given := by
  unfold Frame.cacheStatementHash
  split <;> rfl

theorem cacheNodeHashes_me (f : Frame) :
    (f.cacheNodeHashes ext).me =
      { f.me with context := cachedContext ext f.me f.statement f.givenContext } := by
  obtain ⟨⟨_, _, _, _, _, _, _, d, _, _⟩, ⟨_, _, _, c, _, _, _⟩, g⟩ := f
  cases g <;> cases c <;> cases d <;> rfl

/-- The ways out of `rdfstore_insert`: the status and the store left behind. -/
inductive InsertCase (now : Bytes) (me : Store) (st : Statement) (given : Option Resource) :
    Int → Store → Prop
  | badArgs (hargs : checkArgs st given = none) : InsertCase now me st given (-1) me
  | present (a : Args) (hargs : checkArgs st given = some a)
      (hin : rdfstoreFlatStoreExists me.statements (hashKey (callHash ext me st given)) = true) :
      InsertCase now me st given 1 me
  | full (a : Args) (hargs : checkArgs st given = some a)
      (hout : rdfstoreFlatStoreExists me.statements (hashKey (callHash ext me st given)) = false)
      (hfull : maxRecords < (me.counter + 1).toNat) : InsertCase now me st given (-1) me
  | mismatch (a : Args) (hargs : checkArgs st given = some a)
      (hout : rdfstoreFlatStoreExists me.statements (hashKey (callHash ext me st given)) = false)
      (hroom : (me.counter + 1).toNat ≤ maxRecords) (hmis : parseTypeMismatch a.object = true) :
      InsertCase now me st given (-1) { me with counter := me.counter + 1 }
  | stored (a : Args) (hargs : checkArgs st given = some a)
      (hout : rdfstoreFlatStoreExists me.statements (hashKey (callHash ext me st given)) = false)
      (hroom : (me.counter + 1).toNat ≤ maxRecords) (hmis : parseTypeMismatch a.object = false)
      (me' : Store)
      (htables : insertTables ext { me with counter := me.counter + 1 } a st
        (effectiveContext me st given) me.counter.toNat = some me') :
      InsertCase now me st given 0
        (storedMe ext now me' st given (callHash ext me st given) me.counter.toNat)

variable {ext}

theorem rdfstoreInsert_cases {now : Bytes} {me : Store} {st : Statement} {given : Option Resource}
    {r : Int} {f : Frame} (h : rdfstoreInsert ext now me st given = some (r, f)) :
    InsertCase ext now me st given r f.me := by
  unfold rdfstoreInsert at h
  cases hargs : checkArgs st given with
  | none =>
    simp only [hargs, Option.some.injEq, Prod.mk.injEq] at h
    obtain ⟨rfl, rfl⟩ := h
    exact .badArgs hargs
  | some a =>
    simp only [hargs] at h
    split at h
    · next hin =>
      simp only [Option.some.injEq, Prod.mk.injEq] at h
      obtain ⟨rfl, rfl⟩ := h
      rw [cacheStatementHash_me]
      exact .present a hargs hin
    · next hout =>
      replace hout := Bool.eq_false_iff.2 hout
      split at h
      · next hfull =>
        simp only [Option.some.injEq, Prod.mk.injEq] at h
        obtain ⟨rfl, rfl⟩ := h
        have hme : ({ me with counter := me.counter + 1 - 1 } : Store) = me := by
          rw [UInt32.add_sub_cancel]
        simp only [hme]
        exact .full a hargs hout hfull
      · next hroom =>
        split at h
        · next hmis =>
          simp only [Option.some.injEq, Prod.mk.injEq] at h
          obtain ⟨rfl, rfl⟩ := h
          exact .mismatch a hargs hout (by omega) hmis
        · next hmis =>
          rw [UInt32.add_sub_cancel] at h
          split at h
          · cases h
          · next me' htables =>
            simp only [Option.some.injEq, Prod.mk.injEq] at h
            obtain ⟨rfl, rfl⟩ := h
            have hme : InsertCase ext now me st given 0 _ :=
              .stored a hargs hout (by omega) (Bool.eq_false_iff.2 hmis) me' htables
            simp only [cacheNodeHashes_me, cacheStatementHash_givenContext,
              cachedContext_cacheStatementHash]
            exact hme

/-- The ways out of `rdfstore_remove` that come back: the status and the store left behind. -/
inductive RemoveCase (ext : Externals) (now : Bytes) (me : Store) (st : Statement)
    (given : Option Resource) : Int → Store → Prop
  | badArgs (hargs : checkArgs st given = none) : RemoveCase ext now me st given (-1) me
  | absent (a : Args) (hargs : checkArgs st given = some a)
      (hout : rdfstoreFlatStoreFetch me.statements (hashKey (callHash ext me st given)) = none) :
      RemoveCase ext now me st given 1 me
  | noNode (a : Args) (hargs : checkArgs st given = some a) (data : Bytes)
      (hin : rdfstoreFlatStoreFetch me.statements (hashKey (callHash ext me st given)) = some data)
      (hnode : rdfstoreFlatStoreDelete me.nodes (packInt (unpackInt data)) = none) :
      RemoveCase ext now me st given 1 me
  | halfWay (a : Args) (hargs : checkArgs st given = some a) (data : Bytes)
      (hin : rdfstoreFlatStoreFetch me.statements (hashKey (callHash ext me st given)) = some data)
      (nodes : FlatDb) (hnode : rdfstoreFlatStoreDelete me.nodes (packInt (unpackInt data)) = some nodes)
      (status : Int) (me' : Store)
      (htables : removeTables ext
        { me with nodes, context := cachedContext ext me st given } a (effectiveContext me st given)
        (unpackInt data) = .error (.ret status me')) : RemoveCase ext now me st given status me'
  | noStatement (a : Args) (hargs : checkArgs st given = some a) (data : Bytes)
      (hin : rdfstoreFlatStoreFetch me.statements (hashKey (callHash ext me st given)) = some data)
      (nodes : FlatDb) (hnode : rdfstoreFlatStoreDelete me.nodes (packInt (unpackInt data)) = some nodes)
      (me' : Store)
      (htables : removeTables ext
        { me with nodes, context := cachedContext ext me st given } a (effectiveContext me st given)
        (unpackInt data) = .ok me')
      (hstatement : rdfstoreFlatStoreDelete me'.statements (hashKey (callHash ext me st given)) = none) :
      RemoveCase ext now me st given 1 { me' with counterRemoved := me'.counterRemoved + 1 }
  | removed (a : Args) (hargs : checkArgs st given = some a) (data : Bytes)
      (hin : rdfstoreFlatStoreFetch me.statements (hashKey (callHash ext me st given)) = some data)
      (nodes : FlatDb) (hnode : rdfstoreFlatStoreDelete me.nodes (packInt (unpackInt data)) = some nodes)
      (me' : Store)
      (htables : removeTables ext
        { me with nodes, context := cachedContext ext me st given } a (effectiveContext me st given)
        (unpackInt data) = .ok me')
      (statements : FlatDb)
      (hstatement : rdfstoreFlatStoreDelete me'.statements (hashKey (callHash ext me st given))
        = some statements) :
      RemoveCase ext now me st given 0
        { me' with statements, counterRemoved := me'.counterRemoved + 1, lastModified := now }

theorem rdfstoreRemove_cases {now : Bytes} {me : Store} {st : Statement} {given : Option Resource}
    {r : Int} {f : Frame} (h : rdfstoreRemove ext now me st given = some (r, f)) :
    RemoveCase ext now me st given r f.me := by
  unfold rdfstoreRemove at h
  cases hargs : checkArgs st given with
  | none =>
    simp only [hargs, Option.some.injEq, Prod.mk.injEq] at h
    obtain ⟨rfl, rfl⟩ := h
    exact .badArgs hargs
  | some a =>
    simp only [hargs] at h
    split at h
    · next hout =>
      simp only [Option.some.injEq, Prod.mk.injEq] at h
      obtain ⟨rfl, rfl⟩ := h
      rw [cacheStatementHash_me]
      exact .absent a hargs hout
    · next data hin =>
      split at h
      · next hnode =>
        simp only [Option.some.injEq, Prod.mk.injEq] at h
        obtain ⟨rfl, rfl⟩ := h
        rw [cacheStatementHash_me]
        exact .noNode a hargs data hin hnode
      · next nodes hnode =>
        simp only [cacheNodeHashes_me, cacheStatementHash_givenContext, cachedContext_cacheStatementHash] at h
        split at h
        · cases h
        · next status me' htables =>
          simp only [Option.some.injEq, Prod.mk.injEq] at h
          obtain ⟨rfl, rfl⟩ := h
          exact .halfWay a hargs data hin nodes hnode _ me' htables
        · next me' htables =>
          split at h
          · next hstatement =>
            simp only [Option.some.injEq, Prod.mk.injEq] at h
            obtain ⟨rfl, rfl⟩ := h
            exact .noStatement a hargs data hin nodes hnode me' htables hstatement
          · next statements hstatement =>
            simp only [Option.some.injEq, Prod.mk.injEq] at h
            obtain ⟨rfl, rfl⟩ := h
            exact .removed a hargs data hin nodes hnode me' htables statements hstatement

theorem InsertCase.freetext {now : Bytes} {me me' : Store} {st : Statement} {given : Option Resource} {r : Int}
    (h : InsertCase ext now me st given r me') : me'.freetext = me.freetext := by
  cases h with
  | stored a hargs hout hroom hmis me₁ htables =>
    have hfree : me₁.freetext = me.freetext := (insertTables_sameRest htables).freetext
    exact hfree
  | _ => rfl

theorem RemoveCase.freetext {now : Bytes} {me me' : Store} {st : Statement} {given : Option Resource} {r : Int}
    (h : RemoveCase ext now me st given r me') : me'.freetext = me.freetext := by
  cases h with
  | halfWay a hargs data hin nodes hnode _ _ htables => exact (removeTables_ret htables).2.freetext
  | noStatement a hargs data hin nodes hnode me₁ htables hstatement =>
    exact (removeTables_ok_sameRest htables).freetext
  | removed a hargs data hin nodes hnode me₁ htables statements hstatement =>
    exact (removeTables_ok_sameRest htables).freetext
  | _ => rfl

end Ways

end

end RdfStore
