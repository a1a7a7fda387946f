import RdfStore.Calls
import RdfStore.IteratorSets
import RdfStore.Membership

/-!
# The live statements of a store, and what is not among them

A store is reached from an empty one by any calls, whatever they answer.  In
every reached store the ids in the statements table were given out by the
counter, no id stands under two hash codes, and `rdfstore_elements` finds them
all.  `rdfstore_iterator_complement` negates the bitmap of an iterator over the
bytes it has, and intersects that with the elements.

    elements finds and counts the live ids                                 (rdfstoreElements_spec)
    complement finds the live ids outside  ↔  no live id lies behind the bitmap   (rdfstoreIteratorComplement_iff)
-/

namespace RdfStore

open ByteMem

/-! ## Reached stores -/

/-- Two states with the same tables and counters: a call that only looks at the tables leaves such
a state, with other buffers, another `errno` or another default context. -/
structure TablesKept (me me' : Store) : Prop where
  index : me'.index = me.index
  nodes : me'.nodes = me.nodes
  statements : me'.statements = me.statements
  counter : me'.counter = me.counter
  counterRemoved : me'.counterRemoved = me.counterRemoved
  freetext : me'.freetext = me.freetext

section

variable (ext : Externals)

/-- The states of a store under any calls of its functions, whatever they answer. -/
inductive ReachedStore : Store → Prop
  | connect (freetext errno : Bool) (now : Bytes) : ReachedStore (rdfstoreConnect freetext errno now)
  | insert {me : Store} (h : ReachedStore me) (now : Bytes) (st : Statement) (given : Option Resource)
      (r : Int) (f : Frame) (hcall : rdfstoreInsert ext now me st given = some (r, f)) : ReachedStore f.me
  | remove {me : Store} (h : ReachedStore me) (now : Bytes) (st : Statement) (given : Option Resource)
      (r : Int) (f : Frame) (hcall : rdfstoreRemove ext now me st given = some (r, f)) : ReachedStore f.me
  /-- `rdfstore_contains`, `rdfstore_search`, the default context, … -/
  | looks {me me' : Store} (h : ReachedStore me) (hsame : TablesKept me me') : ReachedStore me'

theorem tablesKept_contains (me : Store) (st : Statement) (given : Option Resource) :
    TablesKept me (rdfstoreContains ext me st given).2.me := by
  rw [rdfstoreContains_me]
  exact ⟨rfl, rfl, rfl, rfl, rfl, rfl⟩

theorem tablesKept_setContext (me : Store) (c : Option Resource) : TablesKept me (rdfstoreSetContext me c).2 := by
  unfold rdfstoreSetContext
  split <;> exact ⟨rfl, rfl, rfl, rfl, rfl, rfl⟩

theorem tablesKept_resetContext (me : Store) : TablesKept me (rdfstoreResetContext me).2 := by
  unfold rdfstoreResetContext
  split <;> exact ⟨rfl, rfl, rfl, rfl, rfl, rfl⟩

end

/-! ## Ids are issued -/

/-- The ids in the statements table were given out by the counter, each under one hash code. -/
structure IdsIssued (me : Store) : Prop where
  counter : me.counter.toNat ≤ maxRecords
  entries : ∀ k data, rdfstoreFlatStoreFetch me.statements k = some data →
    ∃ i < me.counter.toNat, data = packInt i
  distinct : ∀ k k' data, rdfstoreFlatStoreFetch me.statements k = some data →
    rdfstoreFlatStoreFetch me.statements k' = some data → k = k'

theorem maxRecords_lt : maxRecords + 1 < 2 ^ 32 := by decide

theorem IdsIssued.congr {me me' : Store} (h : IdsIssued me) (hcounter : me'.counter = me.counter)
    (hstatements : me'.statements = me.statements) : IdsIssued me' := by
  obtain ⟨hc, he, hd⟩ := h
  refine ⟨hcounter ▸ hc, ?_, ?_⟩
  · rw [hcounter, hstatements]
    exact he
  · rw [hstatements]
    exact hd

/-- Entries that are taken out leave the others issued. -/
theorem IdsIssued.delete {me me' : Store} (h : IdsIssued me) (hcounter : me'.counter = me.counter) {k : Bytes}
    (hdelete : rdfstoreFlatStoreDelete me.statements k = some me'.statements) : IdsIssued me' := by
  have hold : ∀ k' data, rdfstoreFlatStoreFetch me'.statements k' = some data →
      rdfstoreFlatStoreFetch me.statements k' = some data := by
    intro k' data hk'
    rw [fetch_delete hdelete] at hk'
    split at hk'
    · cases hk'
    · exact hk'
  refine ⟨hcounter ▸ h.counter, fun k' data hk' => ?_, fun k₁ k₂ data h₁ h₂ => ?_⟩
  · rw [hcounter]
    exact h.entries k' data (hold k' data hk')
  · exact h.distinct k₁ k₂ data (hold k₁ data h₁) (hold k₂ data h₂)

theorem toNat_succ_counter {c : UInt32} (h : c.toNat ≤ maxRecords) : (c + 1).toNat = c.toNat + 1 := by
  have hmax := maxRecords_lt
  rw [UInt32.toNat_add]
  exact Nat.mod_eq_of_lt (by simp; omega)

/-- The counter may be ahead of the ids. -/
theorem IdsIssued.advance {me me' : Store} (h : IdsIssued me) (hcounter : me'.counter = me.counter + 1)
    (hroom : (me.counter + 1).toNat ≤ maxRecords) (hstatements : me'.statements = me.statements) :
    IdsIssued me' := by
  refine ⟨hcounter ▸ hroom, ?_, ?_⟩
  · intro k data hk
    rw [hstatements] at hk
    obtain ⟨i, hi, hdata⟩ := h.entries k data hk
    refine ⟨i, ?_, hdata⟩
    rw [hcounter, toNat_succ_counter h.counter]
    omega
  · rw [hstatements]
    exact h.distinct

/-- A new entry has the next id. -/
theorem IdsIssued.store {me me' : Store} (h : IdsIssued me) {k : Bytes} (hcounter : me'.counter = me.counter + 1)
    (hroom : (me.counter + 1).toNat ≤ maxRecords)
    (hstatements : me'.statements = rdfstoreFlatStoreStore me.statements k (packInt me.counter.toNat)) :
    IdsIssued me' := by
  have hmax := maxRecords_lt
  have hnew : ∀ k', rdfstoreFlatStoreFetch me.statements k' ≠ some (packInt me.counter.toNat) := by
    intro k' hk'
    obtain ⟨i, hi, hdata⟩ := h.entries k' _ hk'
    have hcount := h.counter
    have heq := packInt_inj (by omega) (by omega) hdata
    omega
  refine ⟨hcounter ▸ hroom, fun k' data hk' => ?_, fun k₁ k₂ data h₁ h₂ => ?_⟩
  · rw [hstatements, fetch_store] at hk'
    rw [hcounter, toNat_succ_counter h.counter]
    split at hk'
    · cases hk'
      exact ⟨_, by omega, rfl⟩
    · obtain ⟨i, hi, hdata⟩ := h.entries k' data hk'
      exact ⟨i, by omega, hdata⟩
  · rw [hstatements, fetch_store] at h₁ h₂
    by_cases hk₁ : k₁ = k
    · by_cases hk₂ : k₂ = k
      · rw [hk₁, hk₂]
      · rw [if_pos hk₁] at h₁
        rw [if_neg hk₂] at h₂
        cases h₁
        exact absurd h₂ (hnew k₂)
    · by_cases hk₂ : k₂ = k
      · rw [if_neg hk₁] at h₁
        rw [if_pos hk₂] at h₂
        cases h₂
        exact absurd h₁ (hnew k₁)
      · rw [if_neg hk₁] at h₁
        rw [if_neg hk₂] at h₂
        exact h.distinct k₁ k₂ data h₁ h₂

section

variable {ext : Externals} {now : Bytes} {me me' : Store} {st : Statement} {given : Option Resource} {r : Int}

theorem IdsIssued.insert (h : IdsIssued me) (hcase : InsertCase ext now me st given r me') : IdsIssued me' := by
  cases hcase with
  | badArgs => exact h
  | present => exact h
  | full => exact h
  | mismatch a hargs hout hroom hmis => exact h.advance rfl hroom rfl
  | stored a hargs hout hroom hmis me₁ htables =>
    have hrest := insertTables_sameRest htables
    refine h.store (k := hashKey (callHash ext me st given)) hrest.counter hroom ?_
    show rdfstoreFlatStoreStore me₁.statements _ _ = _
    rw [hrest.statements]

theorem IdsIssued.remove (h : IdsIssued me) (hcase : RemoveCase ext now me st given r me') : IdsIssued me' := by
  cases hcase with
  | badArgs => exact h
  | absent => exact h
  | noNode => exact h
  | halfWay a hargs data hin nodes hnode status me₁ htables =>
    obtain ⟨-, hrest⟩ := removeTables_ret htables
    exact h.congr hrest.counter hrest.statements
  | noStatement a hargs data hin nodes hnode me₁ htables hstatement =>
    have hrest := removeTables_ok_sameRest htables
    exact h.congr hrest.counter hrest.statements
  | removed a hargs data hin nodes hnode me₁ htables statements hstatement =>
    have hrest := removeTables_ok_sameRest htables
    rw [hrest.statements] at hstatement
    exact h.delete hrest.counter hstatement

end

theorem ReachedStore.idsIssued {ext : Externals} {me : Store} (h : ReachedStore ext me) : IdsIssued me := by
  induction h with
  | connect freetext errno now =>
    refine ⟨Nat.zero_le _, fun k data hk => ?_, fun k k' data hk => ?_⟩
    · simp [rdfstoreConnect] at hk
    · simp [rdfstoreConnect] at hk
  | insert h now st given r f hcall ih => exact ih.insert (rdfstoreInsert_cases hcall)
  | remove h now st given r f hcall ih => exact ih.remove (rdfstoreRemove_cases hcall)
  | looks h hsame ih => exact ih.congr hsame.counter hsame.statements

/-! ## The elements -/

/-- The keys of a table in the order in which `rdfstore_flat_store_first` and `_next` give them. -/
structure KeyWalk (db : FlatDb) where
  keys : List Bytes
  nodup : keys.Nodup
  complete : ∀ k, k ∈ keys ↔ (rdfstoreFlatStoreFetch db k).isSome

/-- A list of the keys is a walk. -/
def KeyWalk.ofKeys {db : FlatDb} (keys : List Bytes) (nodup : keys.Nodup) (h : db.keys = keys.toFinset) :
    KeyWalk db where
  keys := keys
  nodup := nodup
  complete k := by
    rw [← List.mem_toFinset, ← h, Finmap.mem_keys, Finmap.mem_iff, Option.isSome_iff_exists]
    rfl

/-- Without an iterator the process is gone, or the answer is NULL. -/
inductive NoIterator
  | exited
  | null
  deriving DecidableEq

/-- The loop of `rdfstore_elements`. -/
def elementsLoop (statements : FlatDb) : List Bytes → Iterator → Except NoIterator Iterator
  | [], cursor => .ok cursor
  | key :: keys, cursor =>
    match rdfstoreFlatStoreFetch statements key with
    | none => .error .null
    | some data =>
      match rdfstoreBitsSetmask cursor.idsSize cursor.ids (unpackInt data) 1 1 maxRecordsBytesSize with
      | none => .error .exited
      | some (idsSize, ids, _) => elementsLoop statements keys ⟨ids, idsSize, cursor.size + 1⟩

/-- `rdfstore_elements` of the store behind the pointer `store`; `ids` is what the allocated memory
holds. -/
def rdfstoreElements (me : Store) (walk : KeyWalk me.statements) (store : Nat) (ids : Buf) :
    Except NoIterator Cursor :=
  (elementsLoop me.statements walk.keys ⟨ids, 0, 0⟩).map fun cursor => Cursor.start cursor store

/-- The ids of the live statements. -/
def Store.liveIds (me : Store) : Finset Nat :=
  me.statements.keys.image fun k => unpackInt ((rdfstoreFlatStoreFetch me.statements k).getD [])

theorem mem_liveIds {me : Store} {i : Nat} :
    i ∈ me.liveIds ↔ ∃ k data, rdfstoreFlatStoreFetch me.statements k = some data ∧ unpackInt data = i := by
  unfold Store.liveIds
  rw [Finset.mem_image]
  constructor
  · rintro ⟨k, hk, hi⟩
    obtain ⟨data, hdata⟩ := Finmap.mem_iff.1 (Finmap.mem_keys.1 hk)
    have hfetch : rdfstoreFlatStoreFetch me.statements k = some data := hdata
    rw [hfetch] at hi
    exact ⟨k, data, hfetch, hi⟩
  · rintro ⟨k, data, hfetch, hi⟩
    refine ⟨k, Finmap.mem_keys.2 (Finmap.mem_iff.2 ⟨data, hfetch⟩), ?_⟩
    rw [hfetch]
    exact hi

/-- The ids under some keys. -/
def idsUnder (statements : FlatDb) (keys : List Bytes) : List Nat :=
  keys.map fun k => unpackInt ((rdfstoreFlatStoreFetch statements k).getD [])

theorem elementsLoop_spec {statements : FlatDb} (keys : List Bytes) {cursor : Iterator}
    (hsize : cursor.idsSize ≤ maxRecordsBytesSize)
    (hkeys : ∀ k ∈ keys, ∃ data, rdfstoreFlatStoreFetch statements k = some data ∧ unpackInt data < maxRecords) :
    ∃ cursor', elementsLoop statements keys cursor = .ok cursor' ∧
      cursor'.idsSize ≤ maxRecordsBytesSize ∧ cursor'.size = cursor.size + keys.length ∧
      cursor'.found = cursor.found ∪ (idsUnder statements keys).toFinset := by
  induction keys generalizing cursor with
  | nil => exact ⟨cursor, rfl, hsize, rfl, by simp [idsUnder]⟩
  | cons k keys ih =>
    obtain ⟨data, hdata, hlt⟩ := hkeys k List.mem_cons_self
    obtain ⟨idsSize, ids, change, hset, -, hle, hones⟩ := rdfstoreBitsSetmask_set cursor.idsSize maxRecordsBytesSize
      (unpackInt data) cursor.ids hsize (byte_lt_max hlt) STEP_dvd_max
    obtain ⟨cursor', hrun, hsize', hcount, hfound⟩ := @ih ⟨ids, idsSize, cursor.size + 1⟩ hle
      fun k' hk' => hkeys k' (List.mem_cons_of_mem _ hk')
    refine ⟨cursor', ?_, hsize', ?_, ?_⟩
    · simp only [elementsLoop, hdata, hset, hrun]
    · rw [hcount, List.length_cons]
      show cursor.size + 1 + keys.length = _
      omega
    · have hnew : (⟨ids, idsSize, cursor.size + 1⟩ : Iterator).found = insert (unpackInt data) cursor.found := hones
      have hcons : idsUnder statements (k :: keys) = unpackInt data :: idsUnder statements keys := by
        rw [idsUnder, List.map_cons, hdata]
        rfl
      rw [hfound, hnew, hcons, List.toFinset_cons, Finset.insert_union, Finset.union_insert]

/-- The ids a walk goes over are the live ones. -/
theorem KeyWalk.idsUnder_toFinset {me : Store} (walk : KeyWalk me.statements) :
    (idsUnder me.statements walk.keys).toFinset = me.liveIds := by
  ext i
  rw [List.mem_toFinset, mem_liveIds, idsUnder, List.mem_map]
  constructor
  · rintro ⟨k, hk, hi⟩
    obtain ⟨data, hdata⟩ := Option.isSome_iff_exists.1 ((walk.complete k).1 hk)
    rw [hdata] at hi
    exact ⟨k, data, hdata, hi⟩
  · rintro ⟨k, data, hdata, hi⟩
    refine ⟨k, (walk.complete k).2 (by rw [hdata]; rfl), ?_⟩
    rw [hdata]
    exact hi

/-- No id stands under two keys. -/
theorem IdsIssued.nodup_idsUnder {me : Store} (h : IdsIssued me) (walk : KeyWalk me.statements) :
    (idsUnder me.statements walk.keys).Nodup := by
  refine List.Nodup.map_on ?_ walk.nodup
  intro k hk k' hk' heq
  obtain ⟨data, hdata⟩ := Option.isSome_iff_exists.1 ((walk.complete k).1 hk)
  obtain ⟨data', hdata'⟩ := Option.isSome_iff_exists.1 ((walk.complete k').1 hk')
  obtain ⟨i, hi, rfl⟩ := h.entries k data hdata
  obtain ⟨j, hj, rfl⟩ := h.entries k' data' hdata'
  have hmax := maxRecords_lt
  have hcount := h.counter
  rw [hdata, hdata', Option.getD_some, Option.getD_some, unpackInt_packInt_of_lt (by omega),
    unpackInt_packInt_of_lt (by omega)] at heq
  rw [heq] at hdata
  exact h.distinct k k' _ hdata hdata'

/-- `rdfstore_elements` finds the live ids and counts them. -/
theorem rdfstoreElements_spec {me : Store} (h : IdsIssued me) (walk : KeyWalk me.statements) (store : Nat)
    (ids : Buf) : ∃ r, rdfstoreElements me walk store ids = .ok r ∧ r.found = me.liveIds ∧ r.Counted ∧
      r.store = store ∧ r.idsSize ≤ maxRecordsBytesSize ∧ r.reset = r := by
  have hkeys : ∀ k ∈ walk.keys, ∃ data, rdfstoreFlatStoreFetch me.statements k = some data ∧
      unpackInt data < maxRecords := by
    intro k hk
    obtain ⟨data, hdata⟩ := Option.isSome_iff_exists.1 ((walk.complete k).1 hk)
    obtain ⟨i, hi, rfl⟩ := h.entries k data hdata
    have hmax := maxRecords_lt
    have hcount := h.counter
    refine ⟨_, hdata, ?_⟩
    rw [unpackInt_packInt_of_lt (by omega)]
    omega
  obtain ⟨cursor, hrun, hsize, hcount, hfound⟩ :=
    @elementsLoop_spec me.statements walk.keys ⟨ids, 0, 0⟩ (Nat.zero_le _) hkeys
  have hempty : (⟨ids, 0, 0⟩ : Iterator).found = ∅ := ones_zero ids
  rw [hempty, Finset.empty_union, walk.idsUnder_toFinset] at hfound
  refine ⟨Cursor.start cursor store, ?_, hfound, ?_, rfl, hsize, rfl⟩
  · rw [rdfstoreElements, hrun]
    rfl
  · show cursor.size = cursor.found.card
    rw [hcount, hfound, ← walk.idsUnder_toFinset, List.toFinset_card_of_nodup (h.nodup_idsUnder walk), idsUnder,
      List.length_map]
    exact Nat.zero_add _

/-! ## The complement -/

/-- `rdfstore_iterator_complement` of an iterator over `store`; `ids`, `ids1` and `ids2` are what the
allocated memory holds. -/
def rdfstoreIteratorComplement (store : Store) (walk : KeyWalk store.statements) (me : Cursor)
    (ids ids1 ids2 : Buf) : Except NoIterator Cursor :=
  let results := me.ofBits (rdfstoreBitsNot me.idsSize me.ids ids)
  match rdfstoreElements store walk me.store ids1 with
  | .error e => .error e
  | .ok results1 =>
    -- "make sure that result set is sane"
    match rdfstoreIteratorIntersect results results1 ids2 with
    | none => .error .null
    | some results2 => .ok results2

/-- The complement has the live ids that are within the bitmap and not in it. -/
theorem rdfstoreIteratorComplement_spec {store : Store} (h : IdsIssued store) (walk : KeyWalk store.statements)
    (A : Cursor) (ids ids1 ids2 : Buf) :
    ∃ r, rdfstoreIteratorComplement store walk A ids ids1 ids2 = .ok r ∧
      r.found = (store.liveIds \ A.found).filter (· < 8 * A.idsSize) ∧ r.Counted := by
  obtain ⟨results1, hrun, hfound1, -, hstore1, -, -⟩ := rdfstoreElements_spec h walk A.store ids1
  have hstore : (A.ofBits (rdfstoreBitsNot A.idsSize A.ids ids)).store = results1.store := hstore1.symm
  obtain ⟨r, hr, hfound, hcount, -⟩ := rdfstoreIteratorIntersect_spec hstore ids2
  refine ⟨r, ?_, ?_, hcount⟩
  · rw [rdfstoreIteratorComplement, hrun]
    simp only [hr]
  · rw [hfound, Cursor.ofBits_found, hfound1]
    ext i
    rw [Finset.mem_inter, mem_ones_rdfstoreBitsNot, Finset.mem_filter, Finset.mem_sdiff]
    constructor
    · rintro ⟨⟨hlt, hA⟩, hlive⟩
      exact ⟨⟨hlive, hA⟩, hlt⟩
    · rintro ⟨⟨hlive, hA⟩, hlt⟩
      exact ⟨⟨hlt, hA⟩, hlive⟩

/-- The complement has exactly the live ids that are not in the iterator. -/
def ComplementsInStore (store : Store) (walk : KeyWalk store.statements) (A : Cursor) (ids ids1 ids2 : Buf) :
    Prop :=
  ∃ r, rdfstoreIteratorComplement store walk A ids ids1 ids2 = .ok r ∧ r.found = store.liveIds \ A.found

/-- In every reached store the complement is relative to the store exactly for the iterators behind
whose bitmap there is no live id. -/
theorem rdfstoreIteratorComplement_iff {ext : Externals} {store : Store} (h : ReachedStore ext store)
    (walk : KeyWalk store.statements) (A : Cursor) (ids ids1 ids2 : Buf) :
    ComplementsInStore store walk A ids ids1 ids2 ↔ ∀ i ∈ store.liveIds, i < 8 * A.idsSize := by
  obtain ⟨r, hr, hfound, -⟩ := rdfstoreIteratorComplement_spec h.idsIssued walk A ids ids1 ids2
  constructor
  · rintro ⟨r', hr', hset⟩ i hi
    rw [hr] at hr'
    cases hr'
    by_contra hge
    have hout : i ∉ A.found := fun hA => hge (mem_ones.1 hA).1
    have hmem : i ∈ r.found := by
      rw [hset]
      exact Finset.mem_sdiff.2 ⟨hi, hout⟩
    rw [hfound] at hmem
    exact hge (Finset.mem_filter.1 hmem).2
  · intro hall
    refine ⟨r, hr, ?_⟩
    rw [hfound, Finset.filter_true_of_mem fun i hi => hall i (Finset.mem_sdiff.1 hi).1]

/-- The iterator an empty search leaves. -/
def noIds : Cursor := Cursor.start Iterator.empty 0

/-- A store of one statement. -/
def storeOfOne : Store :=
  ((rdfstoreInsert asciiExternals [] (rdfstoreConnect false false [])
    (triple (uri 97) (uri 98) (.resource (uri 99))) none).map fun x => x.2.me).getD (rdfstoreConnect false false [])

theorem storeOfOne_reached : ReachedStore asciiExternals storeOfOne := by
  have hstart : ReachedStore asciiExternals (rdfstoreConnect false false []) := .connect false false []
  unfold storeOfOne
  cases hcall : rdfstoreInsert asciiExternals [] (rdfstoreConnect false false [])
      (triple (uri 97) (uri 98) (.resource (uri 99))) none with
  | none => exact hstart
  | some x => exact hstart.insert [] _ _ x.1 x.2 hcall

theorem liveIds_storeOfOne : storeOfOne.liveIds = {0} := by decide +kernel

/-- The only walk over its statements. -/
def walkOfOne : KeyWalk storeOfOne.statements :=
  .ofKeys [hashKey (callHash asciiExternals (rdfstoreConnect false false [])
    (triple (uri 97) (uri 98) (.resource (uri 99))) none)] (List.nodup_singleton _) (by decide +kernel)

/-- The complement of nothing in a store of one statement is nothing. -/
theorem rdfstoreIteratorComplement_of_nothing :
    (rdfstoreIteratorComplement storeOfOne walkOfOne noIds (fun _ => 0) (fun _ => 0) (fun _ => 0)).toOption.map
        (·.size) = some 0 ∧
      storeOfOne.liveIds \ noIds.found = {0} ∧
      ¬ ComplementsInStore storeOfOne walkOfOne noIds (fun _ => 0) (fun _ => 0) (fun _ => 0) := by
  obtain ⟨r, hr, hfound, hcount⟩ := rdfstoreIteratorComplement_spec storeOfOne_reached.idsIssued walkOfOne noIds
    (fun _ => 0) (fun _ => 0) (fun _ => 0)
  have hlive : storeOfOne.liveIds \ noIds.found = {0} := by
    rw [liveIds_storeOfOne]
    decide
  have hnone : r.found = ∅ := by
    rw [hfound, hlive]
    decide
  have hzero : r.size = 0 := by
    rw [hcount, hnone, Finset.card_empty]
  refine ⟨by rw [hr]; exact congrArg some hzero, hlive, ?_⟩
  rintro ⟨r', hr', hset⟩
  rw [hr] at hr'
  cases hr'
  rw [hset, hlive] at hnone
  exact Finset.singleton_ne_empty 0 hnone

theorem rdfstoreIteratorComplement_iff_storeOfOne :
    ComplementsInStore storeOfOne walkOfOne noIds (fun _ => 0) (fun _ => 0) (fun _ => 0) ↔
      ∀ i ∈ storeOfOne.liveIds, i < 8 * noIds.idsSize :=
  rdfstoreIteratorComplement_iff storeOfOne_reached walkOfOne noIds (fun _ => 0) (fun _ => 0) (fun _ => 0)

end RdfStore
