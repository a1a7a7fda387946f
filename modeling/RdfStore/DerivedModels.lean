import RdfStore.LiveIds
import RdfStore.SearchRuns

/-!
# Derived models (`RDFStore::Model`)

What `find`, `duplicate` and the set operations return is a model that shares the
statements of another one, with an iterator over its own part of them.  A `find`
on a derived model leaves that iterator for the model it shares with and asks
there, and so on up to the model that has the store: the answer is cut to the
iterator of the last derived model on the way, whatever the others had.

    derived models of a run … ids of elements = the view of the model      (derived_run)
-/

namespace RdfStore

open ByteMem

/-! ## Queries -/

/-- What `find` is called with; `andWords` is whether `$words_operator` reads as AND. -/
structure FindQuery where
  subject : Option Resource
  predicate : Option Resource
  object : Option Node
  context : Option Resource
  andWords : Bool
  words : List CString

/-- Nothing is asked for. -/
def FindQuery.isNull (q : FindQuery) : Bool :=
  q.subject.isNone && q.predicate.isNone && q.object.isNone && q.context.isNone && q.words.isEmpty

/-- A word that is true in Perl. -/
def trueWord (w : CString) : Bool := w.bytes ≠ [] ∧ w.bytes ≠ [0x30]

def resourcePart (r : Resource) : Part := .resourceNode (.resource r)

def objectPart (n : Node) : Part :=
  match n with
  | .resource _ => .resourceNode n
  | .literal _ => .literalNode n

/-- The pattern that `RDFStore_search` makes of the query. -/
def FindQuery.pattern (q : FindQuery) : TriplePattern where
  subjects := ⟨q.subject.toList.map resourcePart, 0⟩
  predicates := ⟨q.predicate.toList.map resourcePart, 0⟩
  objects := ⟨q.object.toList.map objectPart, 0⟩
  contexts := ⟨q.context.toList.map resourcePart, 0⟩
  langs := ⟨[], 0⟩
  dts := ⟨[], 0⟩
  words := ⟨(q.words.filter trueWord).map .string, if q.andWords then 1 else 0⟩

/-! ## Model objects -/

/-- What a model holds of others: the model it shares with, the iterator of its query, and the one another
model has left for its next `find`. -/
structure Model where
  shared : Option Nat
  queryIterator : Option Cursor
  sharingQueryIterator : Option Cursor

/-- The models of a program by number; one that shares with none has the store. -/
structure Models where
  me : Store
  objects : List Model

/-- `rdfstore_iterator_duplicate`; `ids` is what the allocated memory holds. -/
def rdfstoreIteratorDuplicate (me : Cursor) (ids : Buf) : Cursor := { me with ids := copyBytes me.idsSize me.ids ids }

/-- A new model. -/
def Models.create (ms : Models) (m : Model) : Models × Nat :=
  ({ ms with objects := ms.objects ++ [m] }, ms.objects.length)

/-- `{sharing_query_iterator} = …` -/
def Models.setSharing (ms : Models) (i : Nat) (c : Option Cursor) : Models :=
  { ms with objects := ms.objects.modify i fun m => { m with sharingQueryIterator := c } }

/-- `duplicate` -/
def Models.duplicate (ms : Models) : Nat → Nat → Option (Models × Nat)
  | 0, _ => none
  | fuel + 1, i =>
    match ms.objects[i]? with
    | none => none
    | some m =>
      match m.shared with
      | some s => ms.duplicate fuel s
      | none => some (ms.create ⟨some i, none, none⟩)

section

variable (ext : Externals) (walk : ∀ db : FlatDb, KeyWalk db)

/-- `elements`: the iterator of the query, if there is one. -/
def Models.elements (ms : Models) (ids : Buf) : Nat → Nat → Option Cursor
  | 0, _ => none
  | fuel + 1, i =>
    match ms.objects[i]? with
    | none => none
    | some m =>
      match m.shared with
      | some s =>
        match m.queryIterator with
        | some c => some c
        | none => ms.elements ids fuel s
      | none => (rdfstoreElements ms.me (walk ms.me.statements) 0 ids).toOption

/-- `{rdfstore}->search`, of the store behind the pointer 0. -/
def searchStore (me : Store) (q : FindQuery) (ids : Buf) : Option (Store × Cursor) :=
  match rdfstoreSearch ext me (some q.pattern) with
  | .null => none
  | .elements => (rdfstoreElements me (walk me.statements) 0 ids).toOption.map fun c => (me, c)
  | .found it me _ => some (me, Cursor.start it 0)

/-- `find` on the model that has the store. -/
def Models.findRoot (ms : Models) (i : Nat) (m : Model) (q : FindQuery) (ids : Buf) : Option (Models × Nat) :=
  if q.isNull then
    match m.sharingQueryIterator with
    | some c => some ((ms.setSharing i none).create ⟨some i, some c, none⟩)
    | none => some (ms.create ⟨some i, none, none⟩)
  else
    match searchStore ext walk ms.me q ids with
    | none => none
    | some (me, found) =>
      let ms := { ms with me := me }
      match m.sharingQueryIterator with
      | some c =>
        match rdfstoreIteratorIntersect c found ids with
        | some r => some ((ms.setSharing i none).create ⟨some i, some r, none⟩)
        | none => none
      | none => some (ms.create ⟨some i, some found, none⟩)

/-- `find` -/
def Models.find (q : FindQuery) (ids : Buf) : Nat → Models → Nat → Option (Models × Nat)
  | 0, _, _ => none
  | fuel + 1, ms, i =>
    match ms.objects[i]? with
    | none => none
    | some m =>
      match m.shared with
      | some s =>
        match m.queryIterator with
        | some c => Models.find q ids fuel (ms.setSharing s (some (rdfstoreIteratorDuplicate c ids))) s
        | none => Models.find q ids fuel ms s
      | none => ms.findRoot ext walk i m q ids

/-- `intersect`, `unite` and `exor`, by the operation on the iterators. -/
def Models.combine (op : Cursor → Cursor → Buf → Option Cursor) (ms : Models) (i j : Nat) (ids : Buf) :
    Option (Models × Nat) := do
  let a ← ms.elements walk ids ms.objects.length i
  let b ← ms.elements walk ids ms.objects.length j
  let r ← op a b ids
  some (ms.create ⟨some i, some r, none⟩)

/-- A call that derives a model. -/
inductive Derive
  | find (i : Nat) (q : FindQuery)
  | duplicate (i : Nat)
  | intersect (i j : Nat)
  | unite (i j : Nat)
  | exor (i j : Nat)

def Models.derive (ms : Models) (ids : Buf) : Derive → Option (Models × Nat)
  | .find i q => Models.find ext walk q ids ms.objects.length ms i
  | .duplicate i => ms.duplicate ms.objects.length i
  | .intersect i j => ms.combine walk rdfstoreIteratorIntersect i j ids
  | .unite i j => ms.combine walk rdfstoreIteratorUnite i j ids
  | .exor i j => ms.combine walk rdfstoreIteratorExor i j ids

/-- The models after some calls, each with what the memory it allocates holds. -/
def Models.run : Models → List (Derive × Buf) → Option Models
  | ms, [] => some ms
  | ms, (d, ids) :: ds => (ms.derive ext walk ids d).bind fun r => r.1.run ds

end

/-- `RDFStore::Model->new` over a store. -/
def Models.new (me : Store) : Models := ⟨me, [⟨none, none, none⟩]⟩

/-! ## Views -/

/-- What a model shows, and what a `find` on it starts from. -/
structure View where
  elements : Set Nat
  base : Set Nat

/-- The view of a model that shares with another one. -/
def View.sharing (i : Nat) (v : View) (s : Set Nat) : View := ⟨s, if i = 0 then s else v.base⟩

/-- The views after a call, where `live` are the ids of the store and `matching` those that a query stands
for. -/
def View.derive (live : Set Nat) (matching : FindQuery → Set Nat) (vs : List View) : Derive → Option (List View)
  | .find i q => (vs[i]?).map fun v => vs ++ [⟨v.base ∩ matching q, v.base ∩ matching q⟩]
  | .duplicate i => (vs[i]?).map fun _ => vs ++ [⟨live, live⟩]
  | .intersect i j => (vs[i]?).bind fun v => (vs[j]?).map fun w => vs ++ [v.sharing i (v.elements ∩ w.elements)]
  | .unite i j => (vs[i]?).bind fun v => (vs[j]?).map fun w => vs ++ [v.sharing i (v.elements ∪ w.elements)]
  | .exor i j => (vs[i]?).bind fun v => (vs[j]?).map fun w => vs ++ [v.sharing i (v.elements \ w.elements)]

def View.run (live : Set Nat) (matching : FindQuery → Set Nat) : List View → List Derive → Option (List View)
  | vs, [] => some vs
  | vs, d :: ds => (View.derive live matching vs d).bind fun vs => View.run live matching vs ds

/-! ## A search leaves the tables -/

/-- Nothing but the buffer for bitmaps is changed. -/
def SameButBuffer (me me' : Store) : Prop := ∃ b, me' = { me with bitsDecode := b }

/-- How a search goes on, or where it ends, over the same tables. -/
def SearchKeeps (me : Store) : Except Search Search → Prop
  | .ok s => SameButBuffer me s.me
  | .error s => SameButBuffer me s.me

section

variable {ext : Externals} {me : Store}

theorem SearchKeeps.bind {x : Except Search Search} {f : Search → Except Search Search} (hx : SearchKeeps me x)
    (hf : ∀ s, SameButBuffer me s.me → SearchKeeps me (f s)) : SearchKeeps me (x >>= f) := by
  cases x with
  | ok s => exact hf s hx
  | error s => exact hx

theorem SearchKeeps.ite {p : Prop} [Decidable p] {x y : Except Search Search} (hx : SearchKeeps me x)
    (hy : SearchKeeps me y) : SearchKeeps me (if p then x else y) := by
  split
  · exact hx
  · exact hy

theorem SameButBuffer.joinComponent {s : Search} (h : SameButBuffer me s.me) (t : Index) (operator : UInt32)
    (keys : List Bytes) : SameButBuffer me (joinComponent ext t operator keys s).me := by
  obtain ⟨b, hb⟩ := h
  refine ⟨(joinParts ext operator (s.me.index t) keys ⟨0, s.bits2, s.bits1, s.me.bitsDecode⟩).bitsDecode, ?_⟩
  simp only [RdfStore.joinComponent, hb]

theorem SameButBuffer.andBefore {s : Search} (h : SameButBuffer me s.me) : SearchKeeps me (andBefore s) :=
  SearchKeeps.ite h h

/-- A component that is joined to what was found before. -/
theorem keeps_searchJoined (u : Search) {v : Search} (h : SameButBuffer me u.me) (hv : v.me = u.me) :
    SearchKeeps me (if u.outsize3 = 0 then .error u else if 0 < u.outsize1 then RdfStore.andBefore u else .ok v) :=
  SearchKeeps.ite h (SearchKeeps.ite h.andBefore (by rw [SearchKeeps, hv]; exact h))

theorem keeps_searchComponent (t : Index) (operator : UInt32) (keys : List Bytes) (s : Search)
    (h : SameButBuffer me s.me) : SearchKeeps me (searchComponent ext t operator keys s) := by
  exact keeps_searchJoined _ (h.joinComponent t operator keys) rfl

theorem SameButBuffer.searchWords {s : Search} (h : SameButBuffer me s.me) : SearchKeeps me (searchWords ext s) := by
  obtain ⟨b, hb⟩ := h
  unfold RdfStore.searchWords
  refine SearchKeeps.ite ?_ ⟨b, hb⟩
  have hkept : ∀ b', SameButBuffer me { s.me with bitsDecode := b' } := fun b' => ⟨b', by rw [hb]⟩
  exact SearchKeeps.ite (hkept _) (hkept _)

theorem SameButBuffer.searchContexts {s : Search} (h : SameButBuffer me s.me) :
    SearchKeeps me (searchContexts ext s) := by
  unfold RdfStore.searchContexts
  refine SearchKeeps.ite h (keeps_searchJoined _ (SameButBuffer.joinComponent ?_ _ _ _) rfl)
  exact h

theorem SameButBuffer.searchComponents {s : Search} (h : SameButBuffer me s.me) :
    SearchKeeps me (searchComponents ext s) := by
  unfold RdfStore.searchComponents
  refine h.searchWords.bind fun s h => ?_
  refine SearchKeeps.bind (SearchKeeps.ite h (keeps_searchComponent _ _ _ _ ?_)) fun s h => ?_
  · exact h
  refine SearchKeeps.bind (SearchKeeps.ite h (keeps_searchComponent _ _ _ _ ?_)) fun s h => ?_
  · exact h
  refine SearchKeeps.bind (SearchKeeps.ite h (keeps_searchComponent _ _ _ _ ?_)) fun s h => ?_
  · exact h
  refine SearchKeeps.bind (SearchKeeps.ite h (keeps_searchComponent _ _ _ _ ?_)) fun s h => ?_
  · exact h
  refine SearchKeeps.bind (SearchKeeps.ite h (keeps_searchComponent _ _ _ _ ?_)) fun s h => ?_
  · exact h
  exact h.searchContexts

theorem rdfstoreSearch_keeps {tp : Option TriplePattern} {it : Iterator} {me' : Store} {tp' : TriplePattern}
    (h : rdfstoreSearch ext me tp = .found it me' tp') : SameButBuffer me me' := by
  unfold rdfstoreSearch at h
  cases tp with
  | none => cases h
  | some tp =>
    simp only at h
    split at h
    · cases h
    · split at h
      · cases h
      · split at h
        · cases h
        · have hkeeps : SearchKeeps me (searchComponents ext ⟨me, tp, fun _ => 0, fun _ => 0, fun _ => 0, 0, 0⟩) :=
            SameButBuffer.searchComponents ⟨me.bitsDecode, rfl⟩
          split at h
          · next s hs =>
            rw [hs] at hkeeps
            cases h
            exact hkeeps
          · next s hs =>
            rw [hs] at hkeeps
            cases h
            exact hkeeps

/-! ## What the store shows -/

variable {U : Set Use} {h : History}

theorem Holds.withBuffer (hh : Holds ext U me h) (b : Buf) : Holds ext U { me with bitsDecode := b } h where
  tables := hh.tables.congr rfl
  context := hh.context
  room := hh.room
  bounded := hh.bounded
  nodup := hh.nodup
  issued := hh.issued
  used := hh.used
  unique := hh.unique
  errno := hh.errno
  scanned := hh.scanned
  recorded := hh.recorded
  statements := hh.statements
  nodes := hh.nodes
  indexed := hh.indexed
  number := hh.number
  count := hh.count

theorem Holds.mem_liveIds (hh : Holds ext U me h) (i : Nat) : i ∈ me.liveIds ↔ i ∈ h.liveIds := by
  have hlt : ∀ {i e}, h.live i = some e → i < 2 ^ 32 := fun he => (hh.lt he).trans me.counter.toNat_lt
  rw [RdfStore.mem_liveIds]
  constructor
  · rintro ⟨k, data, hdata, hi⟩
    obtain ⟨j, e, he, -, rfl⟩ := (hh.statements k data).1 hdata
    rw [unpackInt_packInt_of_lt (hlt he)] at hi
    subst hi
    exact Option.isSome_iff_exists.2 ⟨e, he⟩
  · intro hi
    obtain ⟨e, he⟩ := Option.isSome_iff_exists.1 hi
    exact ⟨_, _, (hh.statements _ _).2 ⟨i, e, he, rfl, rfl⟩, unpackInt_packInt_of_lt (hlt he)⟩

/-- The ids that a query stands for. -/
def History.matching (ext : Externals) (freetext : Bool) (h : History) (q : FindQuery) : Set Nat :=
  {i | ∃ e, h.live i = some e ∧ e.Meets ext freetext q.pattern}

theorem History.matching_subset (freetext : Bool) (q : FindQuery) : h.matching ext freetext q ⊆ h.liveIds := by
  rintro i ⟨e, he, -⟩
  exact Option.isSome_iff_exists.2 ⟨e, he⟩

/-- What is asked of a query: no AND between words, and words only with free-text on and no object. -/
structure FindQuery.Ok (freetext : Bool) (q : FindQuery) : Prop where
  andWords : q.andWords = false
  words : q.words.filter trueWord = [] ∨ freetext = true ∧ q.object = none

theorem FindQuery.check (q : FindQuery) : q.pattern.check = true := by
  have hone : ∀ (tag : Part → Bool) {α : Type} (f : α → Part) (o : Option α), (∀ a, tag (f a) = true) →
      PartList.check tag ⟨o.toList.map f, 0⟩ = true := by
    intro tag α f o htag
    cases o with
    | none => rfl
    | some a => simp [PartList.check, htag]
  have hobject : ∀ n, Part.isNode (objectPart n) = true := fun n => by cases n <;> rfl
  have hoperator : ∀ b : Bool, (if b then 1 else 0 : UInt32) ≤ 2 := by decide
  have hwords : PartList.check Part.isString
      ⟨(q.words.filter trueWord).map .string, if q.andWords then 1 else 0⟩ = true := by
    simp [PartList.check, Part.isString, hoperator]
  unfold TriplePattern.check FindQuery.pattern
  simp only [hone Part.isResource resourcePart _ fun _ => rfl, hone Part.isNode objectPart _ hobject, hwords]
  rfl

theorem FindQuery.Ok.orQuery {freetext : Bool} {q : FindQuery} (hq : q.Ok freetext) : OrQuery freetext q.pattern where
  check := q.check
  operator := fun c => by cases c <;> simp [TriplePattern.list, FindQuery.pattern, hq.andWords]
  words := by
    intro hsome
    rcases hq.words with hnone | ⟨hfree, -⟩
    · simp [FindQuery.pattern, PartList.isNull, hnone] at hsome
    · exact hfree
  objects := by
    rcases hq.words with hnone | ⟨-, hobject⟩
    · exact Or.inl (by simp [FindQuery.pattern, PartList.isNull, hnone])
    · exact Or.inr (by simp [FindQuery.pattern, PartList.isNull, hobject])

variable (walk : ∀ db : FlatDb, KeyWalk db)

theorem Holds.elements (hh : Holds ext U me h) (hissued : IdsIssued me) (ids : Buf) :
    ∃ c, (rdfstoreElements me (walk me.statements) 0 ids).toOption = some c ∧ (c.found : Set Nat) = h.liveIds ∧
      c.Counted ∧ c.store = 0 := by
  obtain ⟨c, hrun, hfound, hcount, hstore, -, -⟩ := rdfstoreElements_spec hissued (walk me.statements) 0 ids
  refine ⟨c, by rw [hrun]; rfl, ?_, hcount, hstore⟩
  ext i
  rw [hfound]
  exact hh.mem_liveIds i

theorem Holds.searchStore (hl : ext.Lossless) (hh : Holds ext U me h) (hissued : IdsIssued me) {q : FindQuery}
    (hq : q.Ok me.freetext) (ids : Buf) :
    ∃ me' c, searchStore ext walk me q ids = some (me', c) ∧ SameButBuffer me me' ∧
      (c.found : Set Nat) = h.matching ext me.freetext q ∧ c.Counted ∧ c.store = 0 := by
  unfold RdfStore.searchStore
  cases hempty : q.pattern.isEmpty with
  | true =>
    obtain ⟨c, hrun, hfound, hcount, hstore⟩ := hh.elements walk hissued ids
    have hnull : ∀ c, (q.pattern.list c).isNull = true := by
      simp only [TriplePattern.isEmpty, Bool.and_eq_true] at hempty
      intro c
      cases c <;> simp only [TriplePattern.list, hempty]
    have hsearch : rdfstoreSearch ext me (some q.pattern) = .elements := by
      have hwords := hnull .words
      simp only [TriplePattern.list] at hwords
      simp [rdfstoreSearch, q.check, hempty, hwords]
    rw [hsearch]
    simp only [hrun, Option.map_some]
    refine ⟨me, c, rfl, ⟨me.bitsDecode, rfl⟩, ?_, hcount, hstore⟩
    rw [hfound]
    refine Set.Subset.antisymm (fun i hi => ?_) (History.matching_subset me.freetext q)
    obtain ⟨e, he⟩ := Option.isSome_iff_exists.1 hi
    refine ⟨e, he, fun c hc => ?_⟩
    rw [hnull c] at hc
    cases hc
  | false =>
    obtain ⟨it, me', tp', hsearch, hfound, hcount⟩ := hh.search hl hq.orQuery hempty
    rw [hsearch]
    exact ⟨me', Cursor.start it 0, rfl, rdfstoreSearch_keeps hsearch, Set.ext hfound, hcount, rfl⟩

theorem StoreRun.idsIssued {U : Set Use} {freetext : Bool} {safe : Store → Statement → Option Resource → Prop}
    {me : Store} {h : History} (hrun : StoreRun ext U freetext safe me h) : IdsIssued me := by
  induction hrun with
  | connect errno now => exact @ReachedStore.idsIssued ext _ (.connect freetext errno now)
  | insert hrun now st given hfresh hU r f hcall hr ih => exact ih.insert (rdfstoreInsert_cases hcall)
  | remove hrun now st given hfresh hU hsafe r f hcall hr ih => exact ih.remove (rdfstoreRemove_cases hcall)

/-! ## Models and their views -/

/-- The iterator of a model has the ids of its view; without one it shows what the model does that it shares
with. -/
def Shows (m : Model) (v w : View) : Prop :=
  match m.queryIterator with
  | some c => (c.found : Set Nat) = v.elements ∧ c.Counted ∧ c.store = 0
  | none => v.elements = w.elements

/-- The first model has the store, with `left` for its next `find`, and every other one shares with a model
before it. -/
structure Sees (me : Store) (live : Set Nat) (left : Option Cursor) (ms : Models) (vs : List View) : Prop where
  store : SameButBuffer me ms.me
  length : ms.objects.length = vs.length
  root : ∃ m, ms.objects[0]? = some m ∧ m.shared = none ∧ m.sharingQueryIterator = left
  all : vs[0]? = some ⟨live, live⟩
  derived : ∀ i m, 0 < i → ms.objects[i]? = some m → ∃ s v w, m.shared = some s ∧ s < i ∧ vs[i]? = some v ∧
    vs[s]? = some w ∧ Shows m v w ∧ v.base = if s = 0 then v.elements else w.base
  within : ∀ v ∈ vs, v.elements ⊆ live ∧ v.base ⊆ live

section

variable {live : Set Nat} {left : Option Cursor} {ms : Models} {vs : List View}

theorem Sees.exists_model (h : Sees me live left ms vs) {i : Nat} {v : View} (hi : vs[i]? = some v) :
    ∃ m, ms.objects[i]? = some m :=
  ⟨_, List.getElem?_eq_getElem (h.length ▸ (List.getElem?_eq_some_iff.1 hi).1)⟩

/-- Only what is left for the model with the store matters. -/
theorem Sees.setSharing (h : Sees me live left ms vs) (i : Nat) (c : Option Cursor) :
    Sees me live (if i = 0 then c else left) (ms.setSharing i c) vs := by
  have hget : ∀ j, (ms.setSharing i c).objects[j]? =
      (ms.objects[j]?).map fun m => if i = j then { m with sharingQueryIterator := c } else m :=
    fun j => List.getElem?_modify _ _ _ _
  refine ⟨h.store, (List.length_modify _ _ _).trans h.length, ?_, h.all, fun j m hj hm => ?_, h.within⟩
  · obtain ⟨m, hm, hshared, hleft⟩ := h.root
    rw [hget, hm]
    refine ⟨_, rfl, ?_, ?_⟩
    · split
      · exact hshared
      · exact hshared
    · split
      · rfl
      · exact hleft
  · rw [hget] at hm
    obtain ⟨m', hm', rfl⟩ := Option.map_eq_some_iff.1 hm
    obtain ⟨s, v, w, hrest⟩ := h.derived j m' hj hm'
    refine ⟨s, v, w, ?_⟩
    split
    · exact hrest
    · exact hrest

/-- A new model that shares with one that is there. -/
theorem Sees.create (h : Sees me live left ms vs) {i : Nat} {m : Model} {v w : View} (hm : m.shared = some i)
    (hw : vs[i]? = some w) (hshows : Shows m v w) (hbase : v.base = if i = 0 then v.elements else w.base)
    (hwithin : v.elements ⊆ live ∧ v.base ⊆ live) : Sees me live left (ms.create m).1 (vs ++ [v]) := by
  have hi : i < vs.length := (List.getElem?_eq_some_iff.1 hw).1
  have hlen := h.length
  refine ⟨h.store, ?_, ?_, ?_, fun j m' hj hm' => ?_, fun v' hv' => ?_⟩
  · simp [Models.create, hlen]
  · obtain ⟨m₀, hm₀, hrest⟩ := h.root
    exact ⟨m₀, List.getElem?_append_left (List.getElem?_eq_some_iff.1 hm₀).1 ▸ hm₀, hrest⟩
  · rw [List.getElem?_append_left (by omega)]
    exact h.all
  · rcases lt_trichotomy j ms.objects.length with hlt | rfl | hgt
    · have hold : ms.objects[j]? = some m' := by
        rw [← hm']
        exact (List.getElem?_append_left hlt).symm
      obtain ⟨s, v', w', hs, hsj, hv', hw', hrest⟩ := h.derived j m' hj hold
      refine ⟨s, v', w', hs, hsj, ?_, ?_, hrest⟩
      · rw [List.getElem?_append_left (by omega)]
        exact hv'
      · rw [List.getElem?_append_left (by omega)]
        exact hw'
    · have hnew : m = m' := by
        have : (ms.objects ++ [m])[ms.objects.length]? = some m := List.getElem?_concat_length
        exact Option.some.inj (this.symm.trans hm')
      subst hnew
      refine ⟨i, v, w, hm, by omega, ?_, ?_, hshows, hbase⟩
      · rw [hlen]
        exact List.getElem?_concat_length
      · rw [List.getElem?_append_left hi]
        exact hw
    · have hnone : (ms.objects ++ [m])[j]? = none := List.getElem?_eq_none (by simp; omega)
      exact absurd (hnone.symm.trans hm') nofun
  · rcases List.mem_append.1 hv' with hv' | hv'
    · exact h.within v' hv'
    · rw [List.mem_singleton.1 hv']
      exact hwithin

theorem Sees.liveIds (hsees : Sees me h.liveIds left ms vs) (hh : Holds ext U me h) (hissued : IdsIssued me) :
    Holds ext U ms.me h ∧ IdsIssued ms.me ∧ ms.me.freetext = me.freetext := by
  obtain ⟨b, hb⟩ := hsees.store
  rw [hb]
  exact ⟨hh.withBuffer b, hissued.congr rfl rfl, rfl⟩

/-- `elements` of a model has the ids of its view. -/
theorem Sees.elements (hsees : Sees me h.liveIds left ms vs) (hh : Holds ext U me h) (hissued : IdsIssued me)
    (ids : Buf) {fuel i : Nat} (hfuel : i < fuel) {v : View} (hv : vs[i]? = some v) :
    ∃ c, ms.elements walk ids fuel i = some c ∧ (c.found : Set Nat) = v.elements ∧ c.Counted ∧ c.store = 0 := by
  induction fuel generalizing i v with
  | zero => exact absurd hfuel (Nat.not_lt_zero i)
  | succ fuel ih =>
    rw [Models.elements]
    obtain ⟨m, hm⟩ := hsees.exists_model hv
    rcases Nat.eq_zero_or_pos i with rfl | hi
    · obtain ⟨m₀, hm₀, hshared, -⟩ := hsees.root
      obtain ⟨hh', hissued', -⟩ := hsees.liveIds hh hissued
      rw [hm₀]
      simp only [hshared]
      rw [hsees.all] at hv
      cases hv
      exact hh'.elements walk hissued' ids
    · obtain ⟨s, v', w, hshared, hs, hv', hw, hshows, -⟩ := hsees.derived i m hi hm
      rw [hv] at hv'
      cases hv'
      rw [hm]
      simp only [hshared]
      unfold Shows at hshows
      cases hquery : m.queryIterator with
      | some c =>
        rw [hquery] at hshows
        exact ⟨c, rfl, hshows⟩
      | none =>
        rw [hquery] at hshows
        rw [hshows]
        exact ih (by omega) hw

/-- `duplicate` is one of the model with the store, whichever model it is called on. -/
theorem Sees.duplicate (hsees : Sees me live left ms vs) {fuel i : Nat} (hfuel : i < fuel) {v : View}
    (hv : vs[i]? = some v) :
    ∃ r, ms.duplicate fuel i = some r ∧ Sees me live left r.1 (vs ++ [⟨live, live⟩]) := by
  induction fuel generalizing i v with
  | zero => exact absurd hfuel (Nat.not_lt_zero i)
  | succ fuel ih =>
    rw [Models.duplicate]
    obtain ⟨m, hm⟩ := hsees.exists_model hv
    rcases Nat.eq_zero_or_pos i with rfl | hi
    · obtain ⟨m₀, hm₀, hshared, -⟩ := hsees.root
      rw [hm₀]
      simp only [hshared]
      exact ⟨_, rfl, hsees.create rfl hsees.all rfl rfl ⟨Set.Subset.rfl, Set.Subset.rfl⟩⟩
    · obtain ⟨s, v', w, hshared, hs, -, hw, -⟩ := hsees.derived i m hi hm
      rw [hm]
      simp only [hshared]
      exact ih (by omega) hw

/-- What is left for a `find` on the model with the store: all ids, or those of an iterator. -/
def LeftFor (live : Set Nat) (left : Option Cursor) (base : Set Nat) : Prop :=
  match left with
  | some c => (c.found : Set Nat) = base ∧ c.Counted ∧ c.store = 0
  | none => base = live

theorem History.matching_of_isNull (freetext : Bool) {q : FindQuery} (hq : q.isNull = true) :
    h.matching ext freetext q = h.liveIds := by
  refine Set.Subset.antisymm (History.matching_subset freetext q) fun i hi => ?_
  obtain ⟨e, he⟩ := Option.isSome_iff_exists.1 hi
  refine ⟨e, he, fun c hc => ?_⟩
  simp only [FindQuery.isNull, Bool.and_eq_true, Option.isNone_iff_eq_none, List.isEmpty_iff] at hq
  obtain ⟨⟨⟨⟨hs, hp⟩, ho⟩, hcontext⟩, hwords⟩ := hq
  cases c <;> simp [TriplePattern.list, FindQuery.pattern, PartList.isNull, hs, hp, ho, hcontext, hwords] at hc

/-- `find` on the model with the store. -/
theorem Sees.findRoot (hl : ext.Lossless) (hsees : Sees me h.liveIds left ms vs) (hh : Holds ext U me h)
    (hissued : IdsIssued me) {q : FindQuery} (hq : q.Ok me.freetext) (ids : Buf) {m : Model}
    (hm : ms.objects[0]? = some m) {base : Set Nat} (hbase : LeftFor h.liveIds left base)
    (hwithin : base ⊆ h.liveIds) :
    ∃ r, ms.findRoot ext walk 0 m q ids = some r ∧ Sees me h.liveIds none r.1
      (vs ++ [⟨base ∩ h.matching ext me.freetext q, base ∩ h.matching ext me.freetext q⟩]) := by
  obtain ⟨m', hm', -, hleft⟩ := hsees.root
  rw [hm] at hm'
  cases hm'
  have hsub : base ∩ h.matching ext me.freetext q ⊆ h.liveIds := Set.inter_subset_left.trans hwithin
  have hnone : ∀ {ms : Models}, Sees me h.liveIds left ms vs → left = none → Sees me h.liveIds none ms vs := by
    rintro ms hsees rfl
    exact hsees
  unfold Models.findRoot
  rw [hleft]
  split
  · next hnull =>
    rw [History.matching_of_isNull me.freetext hnull, Set.inter_eq_left.2 hwithin]
    cases left with
    | some c =>
      refine ⟨_, rfl, (hsees.setSharing 0 none).create rfl hsees.all ?_ rfl ⟨hwithin, hwithin⟩⟩
      exact hbase
    | none =>
      refine ⟨_, rfl, hsees.create rfl hsees.all ?_ rfl ⟨hwithin, hwithin⟩⟩
      exact hbase
  · obtain ⟨hh', hissued', hfree⟩ := hsees.liveIds hh hissued
    rw [← hfree] at hq hsub ⊢
    obtain ⟨me', found, hsearch, hkeeps, hfound, hcount, hstore⟩ := hh'.searchStore walk hl hissued' hq ids
    rw [hsearch]
    simp only
    have hsees' : Sees me h.liveIds left { ms with me := me' } vs := by
      obtain ⟨b, hb⟩ := hsees.store
      obtain ⟨b', hb'⟩ := hkeeps
      exact ⟨⟨b', by rw [hb', hb]⟩, hsees.length, hsees.root, hsees.all, hsees.derived, hsees.within⟩
    cases left with
    | some c =>
      obtain ⟨hbase, -, hcstore⟩ := hbase
      obtain ⟨r, hr, hrfound, hrcount, hrstore⟩ := rdfstoreIteratorIntersect_spec (hcstore.trans hstore.symm) ids
      simp only [hr]
      refine ⟨_, rfl, (hsees'.setSharing 0 none).create rfl hsees'.all ?_ rfl ⟨hsub, hsub⟩⟩
      refine ⟨?_, hrcount, hrstore.trans hcstore⟩
      rw [hrfound, Finset.coe_inter, hbase, hfound]
    | none =>
      have hbase : base = h.liveIds := hbase
      refine ⟨_, rfl, hsees'.create rfl hsees'.all ?_ rfl ⟨hsub, hsub⟩⟩
      refine ⟨?_, hcount, hstore⟩
      rw [hfound, hbase, Set.inter_eq_right.2 (History.matching_subset ms.me.freetext q)]

/-- The last step up, with what a model has left for the one with the store. -/
theorem Sees.findLast (hl : ext.Lossless) (hsees : Sees me h.liveIds left ms vs) (hh : Holds ext U me h)
    (hissued : IdsIssued me) {q : FindQuery} (hq : q.Ok me.freetext) (ids : Buf) {fuel s : Nat} (hfuel : s < fuel)
    (hzero : s = 0) {base : Set Nat} (hbase : LeftFor h.liveIds left base) (hwithin : base ⊆ h.liveIds) :
    ∃ r, Models.find ext walk q ids fuel ms s = some r ∧ Sees me h.liveIds none r.1
      (vs ++ [⟨base ∩ h.matching ext me.freetext q, base ∩ h.matching ext me.freetext q⟩]) := by
  obtain ⟨fuel, rfl⟩ := Nat.exists_eq_succ_of_ne_zero (Nat.ne_zero_of_lt hfuel)
  obtain ⟨m, hm, hroot, -⟩ := hsees.root
  rw [hzero, Models.find, hm]
  simp only [hroot]
  exact hsees.findRoot walk hl hh hissued hq ids hm hbase hwithin

/-- `find` goes up to the model with the store, with the iterator of the last model on the way. -/
theorem Sees.find (hl : ext.Lossless) (hh : Holds ext U me h) (hissued : IdsIssued me) {q : FindQuery}
    (hq : q.Ok me.freetext) (ids : Buf) {fuel i : Nat} {ms : Models} {v : View} (hfuel : i < fuel)
    (hsees : Sees me h.liveIds none ms vs) (hv : vs[i]? = some v) :
    ∃ r, Models.find ext walk q ids fuel ms i = some r ∧ Sees me h.liveIds none r.1
      (vs ++ [⟨v.base ∩ h.matching ext me.freetext q, v.base ∩ h.matching ext me.freetext q⟩]) := by
  induction fuel generalizing i ms v with
  | zero => exact absurd hfuel (Nat.not_lt_zero i)
  | succ fuel ih =>
    obtain ⟨m, hm⟩ := hsees.exists_model hv
    rcases Nat.eq_zero_or_pos i with rfl | hi
    · have hall := hsees.all
      rw [hv] at hall
      cases hall
      exact hsees.findLast walk hl hh hissued hq ids hfuel rfl rfl Set.Subset.rfl
    · rw [Models.find]
      obtain ⟨s, v', w, hshared, hs, hv', hw, hshows, hbase⟩ := hsees.derived i m hi hm
      rw [hv] at hv'
      cases hv'
      have hwithin := (hsees.within v (List.mem_of_getElem? hv)).2
      rw [hm]
      simp only [hshared]
      unfold Shows at hshows
      cases hquery : m.queryIterator with
      | some c =>
        rw [hquery] at hshows
        obtain ⟨hfound, hcount, hstore⟩ := hshows
        have hsees' := hsees.setSharing s (some (rdfstoreIteratorDuplicate c ids))
        by_cases hzero : s = 0
        · rw [if_pos hzero] at hsees' hbase
          refine hsees'.findLast walk hl hh hissued hq ids (by omega) hzero ⟨?_, ?_, hstore⟩ hwithin
          · rw [hbase, ← hfound]
            exact congrArg _ (ones_copyBytes _ _ _)
          · show c.size = _
            rw [hcount]
            exact congrArg Finset.card (ones_copyBytes _ _ _).symm
        · rw [if_neg hzero] at hsees' hbase
          rw [hbase]
          exact ih (by omega) hsees' hw
      | none =>
        rw [hquery] at hshows
        by_cases hzero : s = 0
        · have hall := hsees.all
          rw [hzero] at hw
          rw [hw] at hall
          cases hall
          rw [if_pos hzero] at hbase
          exact hsees.findLast walk hl hh hissued hq ids (by omega) hzero (hbase.trans hshows) hwithin
        · rw [if_neg hzero] at hbase
          rw [hbase]
          exact ih (by omega) hsees hw

/-- A set operation on the iterators of two models. -/
theorem Sees.combine (hsees : Sees me h.liveIds none ms vs) (hh : Holds ext U me h) (hissued : IdsIssued me)
    (ids : Buf) {op : Cursor → Cursor → Buf → Option Cursor} {f : Set Nat → Set Nat → Set Nat}
    (hop : ∀ A B : Cursor, A.store = B.store → ∃ r, op A B ids = some r ∧
      (r.found : Set Nat) = f A.found B.found ∧ r.Counted ∧ r.store = A.store)
    {i j : Nat} {v w : View} (hv : vs[i]? = some v) (hw : vs[j]? = some w)
    (hwithin : f v.elements w.elements ⊆ h.liveIds) :
    ∃ r, ms.combine walk op i j ids = some r ∧
      Sees me h.liveIds none r.1 (vs ++ [v.sharing i (f v.elements w.elements)]) := by
  have hlt : ∀ {k : Nat} {u : View}, vs[k]? = some u → k < ms.objects.length := fun hu =>
    hsees.length ▸ (List.getElem?_eq_some_iff.1 hu).1
  obtain ⟨a, ha, hafound, -, hastore⟩ := hsees.elements walk hh hissued ids (hlt hv) hv
  obtain ⟨b, hb, hbfound, -, hbstore⟩ := hsees.elements walk hh hissued ids (hlt hw) hw
  obtain ⟨r, hr, hfound, hcount, hstore⟩ := hop a b (hastore.trans hbstore.symm)
  refine ⟨ms.create ⟨some i, some r, none⟩, ?_, ?_⟩
  · unfold Models.combine
    rw [ha, hb]
    simp only [Option.bind_eq_bind, Option.bind_some, hr]
  · refine hsees.create rfl hv ⟨?_, hcount, hstore.trans hastore⟩ rfl ⟨hwithin, ?_⟩
    · rw [hfound, hafound, hbfound]
      rfl
    · show (v.sharing i _).base ⊆ h.liveIds
      unfold View.sharing
      simp only
      split
      · exact hwithin
      · exact (hsees.within v (List.mem_of_getElem? hv)).2

/-- What is asked of a call. -/
def Derive.Ok (freetext : Bool) : Derive → Prop
  | .find _ q => q.Ok freetext
  | _ => True

theorem Sees.derive (hl : ext.Lossless) (hsees : Sees me h.liveIds none ms vs) (hh : Holds ext U me h)
    (hissued : IdsIssued me) {d : Derive} (hd : d.Ok me.freetext) (ids : Buf) {vs' : List View}
    (hvs : View.derive h.liveIds (h.matching ext me.freetext) vs d = some vs') :
    ∃ r, ms.derive ext walk ids d = some r ∧ Sees me h.liveIds none r.1 vs' := by
  have hlt : ∀ {k : Nat} {u : View}, vs[k]? = some u → k < ms.objects.length := fun hu =>
    hsees.length ▸ (List.getElem?_eq_some_iff.1 hu).1
  have hwithin : ∀ {k : Nat} {u : View}, vs[k]? = some u → u.elements ⊆ h.liveIds := fun hu =>
    (hsees.within _ (List.mem_of_getElem? hu)).1
  cases d with
  | find i q =>
    obtain ⟨v, hv, rfl⟩ := Option.map_eq_some_iff.1 hvs
    exact Sees.find walk hl hh hissued hd ids (hlt hv) hsees hv
  | duplicate i =>
    obtain ⟨v, hv, rfl⟩ := Option.map_eq_some_iff.1 hvs
    exact hsees.duplicate (hlt hv) hv
  | intersect i j =>
    obtain ⟨v, hv, hvs⟩ := Option.bind_eq_some_iff.1 hvs
    obtain ⟨w, hw, rfl⟩ := Option.map_eq_some_iff.1 hvs
    refine hsees.combine walk hh hissued ids (fun A B hstore => ?_) hv hw (Set.inter_subset_left.trans (hwithin hv))
    obtain ⟨r, hr, hfound, hrest⟩ := rdfstoreIteratorIntersect_spec hstore ids
    exact ⟨r, hr, by rw [hfound, Finset.coe_inter], hrest⟩
  | unite i j =>
    obtain ⟨v, hv, hvs⟩ := Option.bind_eq_some_iff.1 hvs
    obtain ⟨w, hw, rfl⟩ := Option.map_eq_some_iff.1 hvs
    refine hsees.combine walk hh hissued ids (fun A B hstore => ?_) hv hw (Set.union_subset (hwithin hv) (hwithin hw))
    obtain ⟨r, hr, hfound, hrest⟩ := rdfstoreIteratorUnite_spec hstore ids
    exact ⟨r, hr, by rw [hfound, Finset.coe_union], hrest⟩
  | exor i j =>
    obtain ⟨v, hv, hvs⟩ := Option.bind_eq_some_iff.1 hvs
    obtain ⟨w, hw, rfl⟩ := Option.map_eq_some_iff.1 hvs
    refine hsees.combine walk hh hissued ids (fun A B hstore => ?_) hv hw (Set.sdiff_subset.trans (hwithin hv))
    obtain ⟨r, hr, hfound, hrest⟩ := rdfstoreIteratorExor_spec hstore ids
    exact ⟨r, hr, by rw [hfound, Finset.coe_sdiff], hrest⟩

theorem Sees.run (hl : ext.Lossless) (hh : Holds ext U me h) (hissued : IdsIssued me) {ds : List (Derive × Buf)}
    (hds : ∀ d ∈ ds, d.1.Ok me.freetext) {ms : Models} {vs vs' : List View} (hsees : Sees me h.liveIds none ms vs)
    (hvs : View.run h.liveIds (h.matching ext me.freetext) vs (ds.map Prod.fst) = some vs') :
    ∃ ms', ms.run ext walk ds = some ms' ∧ Sees me h.liveIds none ms' vs' := by
  induction ds generalizing ms vs with
  | nil =>
    cases hvs
    exact ⟨ms, rfl, hsees⟩
  | cons d ds ih =>
    obtain ⟨vs₁, hstep, hrest⟩ := Option.bind_eq_some_iff.1 hvs
    obtain ⟨r, hr, hsees'⟩ := hsees.derive walk hl hh hissued (hds d List.mem_cons_self) d.2 hstep
    obtain ⟨ms', hrun, hend⟩ := ih (fun d hd => hds d (List.mem_cons_of_mem _ hd)) hsees' hrest
    refine ⟨ms', ?_, hend⟩
    rw [Models.run, hr]
    exact hrun

theorem Sees.new (me : Store) (live : Set Nat) : Sees me live none (Models.new me) [⟨live, live⟩] where
  store := ⟨me.bitsDecode, rfl⟩
  length := rfl
  root := ⟨_, rfl, rfl, rfl⟩
  all := rfl
  derived := by
    intro i m hi hm
    obtain ⟨i, rfl⟩ := Nat.exists_eq_succ_of_ne_zero (show i ≠ 0 by omega)
    cases hm
  within := by
    intro v hv
    rw [List.mem_singleton.1 hv]
    exact ⟨Set.Subset.rfl, Set.Subset.rfl⟩

end

/-- Whatever models are derived from one over a reached store, in any order and from one another, each has
the elements of its view: those of a `find` are the statements that meet the query among what the `find`
starts from. -/
theorem derived_run (hl : ext.Lossless) {U : Set Use} (hcol : NoCollision ext U) {freetext : Bool} {me : Store}
    {h : History} (hrun : StoreRun ext U freetext (RemovalSafe ext) me h) {ds : List (Derive × Buf)}
    (hds : ∀ d ∈ ds, d.1.Ok freetext) {vs : List View}
    (hvs : View.run h.liveIds (h.matching ext freetext) [⟨h.liveIds, h.liveIds⟩] (ds.map Prod.fst) = some vs) :
    ∃ ms, (Models.new me).run ext walk ds = some ms ∧ ms.objects.length = vs.length ∧
      ∀ i v ids, vs[i]? = some v → ∃ c, ms.elements walk ids ms.objects.length i = some c ∧
        (c.found : Set Nat) = v.elements ∧ c.size = c.found.card := by
  obtain ⟨hh, hfree⟩ := hrun.holds hl hcol fun _ _ _ _ hsafe => hsafe
  rw [← hfree] at hds hvs
  have hissued := hrun.idsIssued
  obtain ⟨ms, hms, hsees⟩ := Sees.run walk hl hh hissued hds (Sees.new me h.liveIds) hvs
  refine ⟨ms, hms, hsees.length, fun i v ids hv => ?_⟩
  have hlt : i < ms.objects.length := hsees.length ▸ (List.getElem?_eq_some_iff.1 hv).1
  obtain ⟨c, hc, hfound, hcount, -⟩ := hsees.elements walk hh hissued ids hlt hv
  exact ⟨c, hc, hfound, hcount⟩

/-- Some order of the keys. -/
noncomputable def someWalk (db : FlatDb) : KeyWalk db :=
  KeyWalk.ofKeys db.keys.toList (Finset.nodup_toList _) (Finset.toList_toFinset _).symm

/-- What `find` is called with for a subject and a predicate. -/
def findSubjectPredicate (s p : Resource) : FindQuery := ⟨some s, some p, none, none, false, []⟩

/-- One statement is inserted, looked for, and what was found is taken from the whole model. -/
theorem derived_run_exor :
    ∃ f, ∃ h : History, ∃ ms, rdfstoreInsert asciiExternals [] (rdfstoreConnect false false [])
        (triple (uri 97) (uri 98) (.resource (uri 99))) none = some (0, f) ∧
      (Models.new f.me).run asciiExternals someWalk
        [(.find 0 (findSubjectPredicate (uri 97) (uri 98)), fun _ => 0), (.exor 0 1, fun _ => 0)] = some ms ∧
      ∃ c, ms.elements someWalk (fun _ => 0) ms.objects.length 2 = some c ∧ (c.found : Set Nat) =
        h.liveIds \ (h.liveIds ∩ h.matching asciiExternals false (findSubjectPredicate (uri 97) (uri 98))) := by
  obtain ⟨f, h, hcall, hrun⟩ := insert_run
  have hds : ∀ d ∈ [((Derive.find 0 (findSubjectPredicate (uri 97) (uri 98)), fun _ => 0) : Derive × Buf),
      (Derive.exor 0 1, fun _ => 0)], d.1.Ok false := by
    intro d hd
    rcases List.mem_pair.1 hd with rfl | rfl
    · exact ⟨rfl, Or.inl rfl⟩
    · trivial
  obtain ⟨ms, hms, -, helements⟩ := derived_run someWalk asciiExternals_lossless (noCollision_singleton _) hrun hds rfl
  obtain ⟨c, hc, hfound, -⟩ := helements 2 _ (fun _ => 0) rfl
  exact ⟨f, h, ms, hcall, hms, c, hc, hfound⟩

end

end RdfStore
