import Mathlib.Data.Set.Card
import RdfStore.Keys

/-!
# What the tables hold over a run

A `History` is the abstract side of a run: which ids were given out and which
entry lives under which id now.  `Holds` ties it to the tables of the store; it
is what every call that answers 0 or 1 keeps.  The tables of numbers may hold
more ids than they should (a removal after `errno` was set does not recognise
the number any more), all others are exact.  For the free-text table this takes
the removals to be harmless (`WindexSafe`): the code deletes a key when it finds
less than two ids in it, whoever's they are.

    InsertCase …, Holds me h  →  Holds me' (h or h.insert)      (Holds.insert)
    RemoveCase …, Holds me h  →  Holds me' (h or h.remove)      (Holds.remove)
-/

namespace RdfStore

open ByteMem

variable {ext : Externals}

/-! ## Removing an id from the free-text keys -/

/-- What one visit of a free-text key does to its ids. -/
def dropIds (i : Nat) (s : Finset Nat) : Finset Nat := if 2 ≤ s.card then s.erase i else ∅

/-- Removing `i` goes through the keys without taking away anybody else's id. -/
structure WindexSafe (i : Nat) (w : Bytes → Finset Nat) (keys : List Bytes) : Prop where
  /-- a key that is visited twice is not shared with exactly one other id -/
  twice : ∀ k ∈ keys, i ∈ w k → 2 ≤ keys.count k → (w k).card ≠ 2
  /-- a key the id is not under is not held by exactly one other id -/
  foreign : ∀ k ∈ keys, i ∉ w k → (w k).card ≠ 1

theorem dropIds_of_mem {i : Nat} {s : Finset Nat} (h : i ∈ s) : dropIds i s = s.erase i := by
  unfold dropIds
  split
  · rfl
  · next hc =>
    have hpos := Finset.card_pos.2 ⟨i, h⟩
    obtain ⟨a, rfl⟩ := Finset.card_eq_one.1 (show s.card = 1 by omega)
    rw [Finset.mem_singleton.1 h, Finset.erase_singleton]

theorem dropIds_of_notMem {i : Nat} {s : Finset Nat} (h : i ∉ s) (hc : s.card ≠ 1) : dropIds i s = s := by
  unfold dropIds
  split
  · exact Finset.erase_eq_of_notMem h
  · exact (Finset.card_eq_zero.1 (by omega)).symm

theorem iterate_dropIds_of_notMem {i : Nat} {s : Finset Nat} (h : i ∉ s) (hc : s.card ≠ 1) (n : Nat) :
    (dropIds i)^[n] s = s := by
  induction n with
  | zero => rfl
  | succ n ih => rw [Function.iterate_succ_apply, dropIds_of_notMem h hc, ih]

/-- A key is worked on as often as it is met. -/
theorem foldl_windexDrop (i : Nat) (keys : List Bytes) (w : Bytes → Finset Nat) (k : Bytes) :
    keys.foldl (windexDrop i) w k = (dropIds i)^[keys.count k] (w k) := by
  induction keys generalizing w with
  | nil => rfl
  | cons key keys ih =>
    rw [List.foldl_cons, ih, List.count_cons]
    by_cases hk : key = k
    · subst hk
      simp [windexDrop, dropIds, Function.iterate_succ_apply]
    · simp [windexDrop, hk, Ne.symm hk]

/-- Going through the keys takes the id out of them, and nothing else, if it is safe. -/
theorem WindexSafe.foldl_eq {i : Nat} {w : Bytes → Finset Nat} {keys : List Bytes}
    (h : WindexSafe i w keys) (k : Bytes) :
    keys.foldl (windexDrop i) w k = if k ∈ keys then (w k).erase i else w k := by
  rw [foldl_windexDrop]
  split
  · next hk =>
    have hcount : 0 < keys.count k := List.count_pos_iff.2 hk
    obtain ⟨n, hn⟩ : ∃ n, keys.count k = n + 1 := ⟨keys.count k - 1, by omega⟩
    rw [hn]
    by_cases hi : i ∈ w k
    · rw [Function.iterate_succ_apply, dropIds_of_mem hi]
      cases n with
      | zero => rfl
      | succ n =>
        have hcard := h.twice k hk hi (by omega)
        have herase := Finset.card_erase_of_mem hi
        have hpos := Finset.card_pos.2 ⟨i, hi⟩
        exact iterate_dropIds_of_notMem (Finset.notMem_erase _ _) (by omega) _
    · rw [iterate_dropIds_of_notMem hi (h.foreign k hk hi), Finset.erase_eq_of_notMem hi]
  · next hk => rw [List.count_eq_zero_of_not_mem hk]; rfl

/-- Only then. -/
theorem windexSafe_of_foldl_eq {i : Nat} {w : Bytes → Finset Nat} {keys : List Bytes}
    (h : ∀ k ∈ keys, keys.foldl (windexDrop i) w k = (w k).erase i) : WindexSafe i w keys := by
  have hempty : ∀ n, (dropIds i)^[n] ∅ = ∅ := iterate_dropIds_of_notMem (by simp) (by simp)
  constructor
  · intro k hk hi htwo hcard
    obtain ⟨n, hn⟩ : ∃ n, keys.count k = n + 2 := ⟨keys.count k - 2, by omega⟩
    have hk' := h k hk
    have herase := Finset.card_erase_of_mem hi
    have hone : dropIds i ((w k).erase i) = ∅ := if_neg (by omega)
    rw [foldl_windexDrop, hn, Function.iterate_succ_apply, Function.iterate_succ_apply,
      dropIds_of_mem hi, hone, hempty] at hk'
    rw [← hk'] at herase
    simp at herase
    omega
  · intro k hk hi hcard
    obtain ⟨n, hn⟩ : ∃ n, keys.count k = n + 1 := ⟨keys.count k - 1, by
      have := List.count_pos_iff.2 hk
      omega⟩
    have hk' := h k hk
    have hone : dropIds i (w k) = ∅ := if_neg (by omega)
    rw [foldl_windexDrop, hn, Function.iterate_succ_apply, hone, hempty, Finset.erase_eq_of_notMem hi] at hk'
    rw [← hk'] at hcard
    simp at hcard

/-! ## Histories -/

structure History where
  /-- which entry lives under an id -/
  live : Nat → Option Entry
  /-- the ids given out, the last one first -/
  issued : List Nat

def History.empty : History := ⟨fun _ => none, []⟩

def History.insert (h : History) (i : Nat) (e : Entry) : History :=
  ⟨Function.update h.live i (some e), i :: h.issued⟩

def History.remove (h : History) (c : StatementContent) : History :=
  ⟨fun i => (h.live i).filter (·.content ≠ c), h.issued⟩

def History.liveIds (h : History) : Set Nat := {i | (h.live i).isSome}

@[simp] theorem live_insert (h : History) (i j : Nat) (e : Entry) :
    (h.insert i e).live j = if j = i then some e else h.live j := by
  simp only [History.insert, Function.update_apply]

theorem live_remove_eq_some {h : History} {c : StatementContent} {i : Nat} {e : Entry} :
    (h.remove c).live i = some e ↔ h.live i = some e ∧ e.content ≠ c := by
  simp [History.remove, Option.filter_eq_some_iff]

/-! ## Tables and history -/

variable (ext) in
/-- The object of an entry can be scanned. -/
def Entry.Scanned (freetext : Bool) (e : Entry) : Prop :=
  ∀ o, e.statement.object = some o → (scanObject ext freetext e.errno o).isSome

variable (ext) in
/-- The tables of a store hold what the history says. -/
structure Holds (U : Set Use) (me : Store) (h : History) : Prop where
  tables : TablesOk ext me
  context : me.context = none
  room : me.counter.toNat ≤ maxRecords
  bounded : ∀ i ∈ h.issued, i < me.counter.toNat
  nodup : h.issued.Nodup
  issued : ∀ i e, h.live i = some e → i ∈ h.issued
  used : ∀ i e, h.live i = some e → e.use ∈ U
  unique : ∀ i j e e', h.live i = some e → h.live j = some e' → e.content = e'.content → i = j
  errno : ∀ i e, h.live i = some e → e.errno = true → me.errno = true
  scanned : ∀ i e, h.live i = some e → e.Scanned ext me.freetext
  recorded : ∀ i e, h.live i = some e → e.record.isSome
  statements : ∀ k data, rdfstoreFlatStoreFetch me.statements k = some data ↔
    ∃ i e, h.live i = some e ∧ k = hashKey (e.use.hash ext) ∧ data = packInt i
  nodes : ∀ k data, rdfstoreFlatStoreFetch me.nodes k = some data ↔
    ∃ i e, h.live i = some e ∧ k = packInt i ∧ e.record = some data
  indexed : ∀ t k i, t.isNumber = false →
    (i ∈ ids ext me t k ↔ ∃ e, h.live i = some e ∧ e.HasKey ext me.freetext t k)
  number : ∀ t k i e, h.live i = some e → e.HasKey ext me.freetext t k → i ∈ ids ext me t k
  count : h.liveIds.ncard + me.counterRemoved.toNat = me.counter.toNat

theorem Holds.lt {U : Set Use} {me : Store} {h : History} (hh : Holds ext U me h) {i : Nat} {e : Entry}
    (hi : h.live i = some e) : i < me.counter.toNat := hh.bounded i (hh.issued i e hi)

theorem Holds.finite {U : Set Use} {me : Store} {h : History} (hh : Holds ext U me h) :
    h.liveIds.Finite := by
  refine (Set.finite_lt_nat me.counter.toNat).subset fun i hi => ?_
  obtain ⟨e, he⟩ := Option.isSome_iff_exists.1 hi
  exact hh.lt he

theorem holds_connect (U : Set Use) (freetext errno : Bool) (now : Bytes) :
    Holds ext U (rdfstoreConnect freetext errno now) History.empty where
  tables := by intro t key data h; simp [rdfstoreConnect] at h
  context := rfl
  room := by simp [rdfstoreConnect]
  bounded := by simp [History.empty]
  nodup := List.nodup_nil
  issued := by simp [History.empty]
  used := by simp [History.empty]
  unique := by simp [History.empty]
  errno := by simp [History.empty]
  scanned := by simp [History.empty]
  recorded := by simp [History.empty]
  statements := by simp [History.empty, rdfstoreConnect]
  nodes := by simp [History.empty, rdfstoreConnect]
  indexed := by simp [History.empty, rdfstoreConnect, ids]
  number := by simp [History.empty]
  count := by simp [History.empty, rdfstoreConnect, History.liveIds]

/-! ## Inserting -/

/-- The id the statements table has for a hash code. -/
def statementId (me : Store) (hc : UInt32) : Nat :=
  unpackInt ((rdfstoreFlatStoreFetch me.statements (hashKey hc)).getD [])

theorem Entry.record_ofCall {me : Store} {st : Statement} {given : Option Resource} {a : Args}
    (hargs : checkArgs st given = some a) :
    (Entry.ofCall me st given).record = some (statementRecord a st (effectiveContext me st given)) := by
  obtain ⟨hs, hp, ho⟩ := checkArgs_eq_some hargs
  simp only [Entry.record, Entry.ofCall, hs, hp, ho]

theorem Entry.hasKey_ofCall {me : Store} {st : Statement} {given : Option Resource} {a : Args}
    {sc : ObjectScan} (hfresh : FreshCall ext me st given) (hargs : checkArgs st given = some a)
    (hsc : scanObject ext me.freetext me.errno a.object = some sc) (t : Index) (k : Bytes) :
    (Entry.ofCall me st given).HasKey ext me.freetext t k ↔
      (t, k) ∈ sc.windexIndexed ++ sc.others ++ adjacencyKeys ext a (effectiveContext me st given) := by
  obtain ⟨hs, hp, ho⟩ := checkArgs_eq_some hargs
  exact Entry.hasKey_iff (e := Entry.ofCall me st given) hs hp ho (hfresh.args hargs) hsc

theorem cachedContext_none {me : Store} {st : Statement} {given : Option Resource}
    (h : me.context = none) : cachedContext ext me st given = none := by
  unfold cachedContext
  rw [h]
  cases given <;> cases st.context <;> rfl

/-- An insert that answers 0, seen from the tables: `i` is the id it gave out. -/
structure Stored (ext : Externals) (me me' : Store) (i : Nat) (e : Entry) : Prop where
  tables : TablesOk ext me'
  context : me.context = none → me'.context = none
  freetext : me'.freetext = me.freetext
  errno : me.errno = true → me'.errno = true
  scanned : e.Scanned ext me.freetext
  recorded : e.record.isSome
  counter : me'.counter.toNat = me.counter.toNat + 1
  room : me'.counter.toNat ≤ maxRecords
  counterRemoved : me'.counterRemoved = me.counterRemoved
  statements : ∀ k, rdfstoreFlatStoreFetch me'.statements k =
    if k = hashKey (e.use.hash ext) then some (packInt i) else rdfstoreFlatStoreFetch me.statements k
  nodes : ∀ k, rdfstoreFlatStoreFetch me'.nodes k =
    if k = packInt i then e.record else rdfstoreFlatStoreFetch me.nodes k
  indexed : ∀ t k j, j ∈ ids ext me' t k ↔
    (j = i ∧ e.HasKey ext me.freetext t k) ∨ j ∈ ids ext me t k

section

variable {U : Set Use} {now : Bytes} {me me' : Store} {h : History} {st : Statement}
  {given : Option Resource}

theorem InsertCase.stored_spec (hl : ext.Lossless) (hok : TablesOk ext me) (hroom : me.counter.toNat ≤ maxRecords)
    (hfresh : FreshCall ext me st given) (hcase : InsertCase ext now me st given 0 me') :
    Stored ext me me' me.counter.toNat (Entry.ofCall me st given) := by
  cases hcase with
  | stored a hargs hout hroom' hmis me₁ htables =>
    have hctr : (me.counter + 1).toNat = me.counter.toNat + 1 := by
      rw [UInt32.toNat_add, UInt32.toNat_one, Nat.mod_eq_of_lt]
      simp only [maxRecords] at hroom
      omega
    obtain ⟨sc, hsc, herr, hadds⟩ := insertTables_spec hl
      (show TablesOk ext { me with counter := me.counter + 1 } from hok.congr rfl) (by omega) a st _ htables
    have hkeys := Entry.hasKey_ofCall hfresh hargs hsc
    obtain ⟨hok', hrest, hids⟩ := hadds
    have hctr' : me₁.counter = me.counter + 1 := hrest.counter
    refine ⟨hok'.congr rfl, fun hnone => ?_, hrest.freetext, fun he => ?_, fun o ho => ?_, ?_, ?_, ?_,
      hrest.counterRemoved, fun k => ?_, fun k => ?_, fun t k j => ?_⟩
    · exact cachedContext_none (hrest.context.trans hnone)
    · show me₁.errno = true
      rw [herr]
      rw [show ({ me with counter := me.counter + 1 } : Store).errno = true from he] at hsc
      exact scanObject_errno hsc
    · cases (checkArgs_eq_some hargs).2.2.symm.trans ho
      exact Option.isSome_iff_exists.2 ⟨sc, hsc⟩
    · rw [Entry.record_ofCall hargs]
      rfl
    · show me₁.counter.toNat = _
      rw [hctr', hctr]
    · show me₁.counter.toNat ≤ _
      rw [hctr']
      exact hroom'
    · have hst : me₁.statements = me.statements := hrest.statements
      rw [storedMe, fetch_store, hst, callHash_eq hfresh.statement]
      rfl
    · have hnodes : me₁.nodes = rdfstoreFlatStoreStore me.nodes (packInt me.counter.toNat)
        (statementRecord a st (effectiveContext me st given)) := hrest.nodes
      rw [Entry.record_ofCall hargs, ← fetch_store, ← hnodes]
      rfl
    · rw [hkeys]
      show j ∈ ids ext me₁ t k ↔ _
      rw [hids]
      split
      · next hk => simp only [hk, and_true, Finset.mem_insert]; rfl
      · next hk => simp only [hk, and_false, false_or]; rfl

/-- The statement of a call that inserts is not live yet. -/
theorem Holds.not_live (hh : Holds ext U me h) (hfresh : FreshCall ext me st given)
    (hout : rdfstoreFlatStoreExists me.statements (hashKey (callHash ext me st given)) = false)
    (i : Nat) (e : Entry) (he : h.live i = some e) : e.content ≠ (callUse me st given).content := by
  intro hc
  have hkey : hashKey (callHash ext me st given) = hashKey (e.use.hash ext) := by
    rw [callHash_eq hfresh.statement]
    exact congrArg hashKey (statementHash_congr hc.symm)
  have hin := (hh.statements (hashKey (callHash ext me st given)) (packInt i)).2 ⟨i, e, he, hkey, rfl⟩
  rw [exists_eq_isSome, hin] at hout
  cases hout

theorem liveIds_insert (h : History) (i : Nat) (e : Entry) :
    (h.insert i e).liveIds = insert i h.liveIds := by
  ext j
  simp only [History.liveIds, Set.mem_ofPred_eq, live_insert, Set.mem_insert_iff]
  by_cases hj : j = i <;> simp [hj]

/-- Storing an entry that is new under an id that is new. -/
theorem Holds.stored (hh : Holds ext U me h) {e : Entry} (hs : Stored ext me me' me.counter.toNat e)
    (hU : e.use ∈ U) (hnew : ∀ i e', h.live i = some e' → e'.content ≠ e.content)
    (hcol : NoCollision ext U) (herrno : e.errno = me.errno) :
    Holds ext U me' (h.insert me.counter.toNat e) := by
  have hroom := hs.room
  have hctr := hs.counter
  have hi32 : me.counter.toNat < 2 ^ 32 := me.counter.toNat_lt
  have hfree : h.live me.counter.toNat = none := by
    cases hlive : h.live me.counter.toNat with
    | none => rfl
    | some e' => exact absurd (hh.lt hlive) (by omega)
  have hlive : ∀ j e', (h.insert me.counter.toNat e).live j = some e' ↔
      (j = me.counter.toNat ∧ e' = e) ∨ h.live j = some e' := by
    intro j e'
    rw [live_insert]
    by_cases hj : j = me.counter.toNat
    · subst hj
      simp [hfree, eq_comm]
    · simp [hj]
  have hlt : ∀ j e', h.live j = some e' → j < me.counter.toNat := fun j e' => hh.lt
  refine ⟨hs.tables, hs.context hh.context, hs.room, ?_, ?_, ?_, ?_, ?_, ?_, ?_, ?_, ?_, ?_, ?_, ?_, ?_⟩
  · intro i hi
    rcases List.mem_cons.1 hi with rfl | hi
    · omega
    · have := hh.bounded i hi
      omega
  · exact List.nodup_cons.2 ⟨fun hin => absurd (hh.bounded _ hin) (by omega), hh.nodup⟩
  · intro i e' he'
    rcases (hlive i e').1 he' with ⟨rfl, -⟩ | he'
    · exact List.mem_cons_self
    · exact List.mem_cons_of_mem _ (hh.issued i e' he')
  · intro i e' he'
    rcases (hlive i e').1 he' with ⟨-, rfl⟩ | he'
    · exact hU
    · exact hh.used i e' he'
  · intro i j e₁ e₂ h₁ h₂ hc
    rcases (hlive i e₁).1 h₁ with ⟨hi, rfl⟩ | hi <;> rcases (hlive j e₂).1 h₂ with ⟨hj, rfl⟩ | hj
    · rw [hi, hj]
    · exact absurd hc.symm (hnew j e₂ hj)
    · exact absurd hc (hnew i e₁ hi)
    · exact hh.unique i j e₁ e₂ hi hj hc
  · intro i e' he' herr
    rcases (hlive i e').1 he' with ⟨-, rfl⟩ | he'
    · exact hs.errno (herrno ▸ herr)
    · exact hs.errno (hh.errno i e' he' herr)
  · intro i e' he'
    rw [hs.freetext]
    rcases (hlive i e').1 he' with ⟨-, rfl⟩ | he'
    · exact hs.scanned
    · exact hh.scanned i e' he'
  · intro i e' he'
    rcases (hlive i e').1 he' with ⟨-, rfl⟩ | he'
    · exact hs.recorded
    · exact hh.recorded i e' he'
  · intro k data
    rw [hs.statements]
    simp only [hlive]
    by_cases hk : k = hashKey (e.use.hash ext)
    · rw [if_pos hk]
      constructor
      · intro hd
        cases hd
        exact ⟨_, e, Or.inl ⟨rfl, rfl⟩, hk, rfl⟩
      · rintro ⟨i, e', ⟨rfl, rfl⟩ | he', hk', rfl⟩
        · rfl
        · exact absurd ((hcol.key_iff (hh.used i e' he') hU).1 (hk'.symm.trans hk)) (hnew i e' he')
    · rw [if_neg hk, hh.statements]
      constructor
      · rintro ⟨i, e', he', hrest⟩
        exact ⟨i, e', Or.inr he', hrest⟩
      · rintro ⟨i, e', ⟨rfl, rfl⟩ | he', hk', rfl⟩
        · exact absurd hk' hk
        · exact ⟨i, e', he', hk', rfl⟩
  · intro k data
    rw [hs.nodes]
    simp only [hlive]
    by_cases hk : k = packInt me.counter.toNat
    · rw [if_pos hk]
      constructor
      · intro hd
        exact ⟨_, e, Or.inl ⟨rfl, rfl⟩, hk, hd⟩
      · rintro ⟨i, e', ⟨rfl, rfl⟩ | he', hk', hd⟩
        · exact hd
        · have hi := hlt i e' he'
          exact absurd (packInt_inj (by omega) hi32 (hk'.symm.trans hk)) (by omega)
    · rw [if_neg hk, hh.nodes]
      constructor
      · rintro ⟨i, e', he', hrest⟩
        exact ⟨i, e', Or.inr he', hrest⟩
      · rintro ⟨i, e', ⟨rfl, rfl⟩ | he', hk', hd⟩
        · exact absurd hk' hk
        · exact ⟨i, e', he', hk', hd⟩
  · intro t k j ht
    rw [hs.indexed, hh.indexed t k j ht, hs.freetext]
    simp only [hlive]
    constructor
    · rintro (⟨rfl, hk⟩ | ⟨e', he', hk⟩)
      · exact ⟨e, Or.inl ⟨rfl, rfl⟩, hk⟩
      · exact ⟨e', Or.inr he', hk⟩
    · rintro ⟨e', ⟨rfl, rfl⟩ | he', hk⟩
      · exact Or.inl ⟨rfl, hk⟩
      · exact Or.inr ⟨e', he', hk⟩
  · intro t k i e' he' hk
    rw [hs.freetext] at hk
    rw [hs.indexed]
    rcases (hlive i e').1 he' with ⟨rfl, rfl⟩ | he'
    · exact Or.inl ⟨rfl, hk⟩
    · exact Or.inr (hh.number t k i e' he' hk)
  · have hnot : me.counter.toNat ∉ h.liveIds := by simp [History.liveIds, hfree]
    rw [liveIds_insert, Set.ncard_insert_of_notMem hnot hh.finite, hs.counterRemoved, hctr]
    have := hh.count
    omega

/-- An insert that answers 0 gives out the next id. -/
theorem Stored.statementId {e : Entry} {i : Nat} (hs : Stored ext me me' i e) (hi : i < 2 ^ 32) :
    statementId me' (e.use.hash ext) = i := by
  rw [RdfStore.statementId, hs.statements, if_pos rfl, Option.getD_some]
  exact unpackInt_packInt_of_lt hi

/-- A call of insert that answers 0 or 1. -/
theorem Holds.insert (hl : ext.Lossless) (hcol : NoCollision ext U) (hh : Holds ext U me h)
    (hfresh : FreshCall ext me st given) (hU : callUse me st given ∈ U) {r : Int}
    (hcase : InsertCase ext now me st given r me') (hr : r = 0 ∨ r = 1) :
    Holds ext U me' (if r = 0 then
      h.insert (statementId me' ((callUse me st given).hash ext)) (Entry.ofCall me st given) else h) := by
  rcases hr with rfl | rfl
  · have hs := hcase.stored_spec hl hh.tables hh.room hfresh
    have hid : statementId me' ((callUse me st given).hash ext) = me.counter.toNat :=
      hs.statementId me.counter.toNat_lt
    rw [if_pos rfl, hid]
    refine hh.stored hs hU (hh.not_live hfresh ?_) hcol rfl
    cases hcase with
    | stored a hargs hout hroom hmis me₁ htables => exact hout
  · rw [if_neg (by decide)]
    cases hcase with
    | present a hargs hin => exact hh

/-! ## Removing -/

variable (ext) in
/-- The free-text keys a removal goes through. -/
def callWindexKeys (me : Store) (st : Statement) : List Bytes :=
  match st.object with
  | some (.literal l) => (literalWindexKeys ext me.freetext me.errno l).2.map (·.bytes)
  | _ => []

variable (ext) in
/-- A removal that takes no other statement out of the free-text table. -/
def RemovalSafe (me : Store) (st : Statement) (given : Option Resource) : Prop :=
  ∀ data, rdfstoreFlatStoreFetch me.statements (hashKey ((callUse me st given).hash ext)) = some data →
    WindexSafe (unpackInt data) (ids ext me .windex) (callWindexKeys ext me st)

theorem mem_callWindexKeys {k : Bytes} : k ∈ callWindexKeys ext me st ↔
    (Entry.ofCall me st given).HasKey ext me.freetext .windex k := by
  unfold callWindexKeys
  cases ho : st.object with
  | none => simp [Entry.HasKey, Entry.ofCall, ho]
  | some o => cases o <;> simp [Entry.HasKey, Entry.ofCall, ho]

/-- With free-text off there are none. -/
theorem callWindexKeys_of_freetext (h : me.freetext = false) (st : Statement) : callWindexKeys ext me st = [] := by
  unfold callWindexKeys
  split
  · simp [literalWindexKeys, h]
  · rfl

theorem windex_notMem_others {freetext errno : Bool} {o : Node} {sc : ObjectScan}
    (h : scanObject ext freetext errno o = some sc) (k : Bytes) : (.windex, k) ∉ sc.others := by
  cases o with
  | resource r => cases h; simp
  | literal l =>
    obtain ⟨w, d, iv, dv, -, -, -, -, rfl⟩ := scanLiteral_eq_some h
    simp [mem_optKey]

theorem scanObject_windex {a : Args} {sc : ObjectScan} (ho : st.object = some a.object)
    (h : scanObject ext me.freetext me.errno a.object = some sc) :
    sc.windex.map (·.bytes) = callWindexKeys ext me st := by
  unfold callWindexKeys
  rw [ho]
  cases hobj : a.object with
  | resource r => rw [hobj] at h; cases h; rfl
  | literal l =>
    rw [hobj] at h
    obtain ⟨w, d, iv, dv, hw, -, -, -, rfl⟩ := scanLiteral_eq_some h
    simp only [hw]

/-- A removal that answers 0, seen from the tables: `e` is what the call was about, `i` the id. -/
structure Removed (ext : Externals) (me me' : Store) (i : Nat) (e : Entry) (windex : List Bytes) : Prop where
  tables : TablesOk ext me'
  context : me.context = none → me'.context = none
  freetext : me'.freetext = me.freetext
  errno : me.errno = true → me'.errno = true
  counter : me'.counter = me.counter
  counterRemoved : me'.counterRemoved = me.counterRemoved + 1
  statements : ∀ k, rdfstoreFlatStoreFetch me'.statements k =
    if k = hashKey (e.use.hash ext) then none else rdfstoreFlatStoreFetch me.statements k
  nodes : ∀ k, rdfstoreFlatStoreFetch me'.nodes k =
    if k = packInt i then none else rdfstoreFlatStoreFetch me.nodes k
  windexed : ids ext me' .windex = windex.foldl (windexDrop i) (ids ext me .windex)
  indexed : ∀ t k j, t ≠ .windex →
    (j ∈ ids ext me' t k ↔ j ∈ ids ext me t k ∧ ¬ (j = i ∧ e.HasKey ext me.freetext t k))

/-- A removal of an id that is under all its keys gets through. -/
theorem RemoveCase.removed_spec (hl : ext.Lossless) (hok : TablesOk ext me)
    (hfresh : FreshCall ext me st given) {i : Nat} (hi : i < maxRecords)
    (hin : rdfstoreFlatStoreFetch me.statements (hashKey ((callUse me st given).hash ext)) = some (packInt i))
    (hnode : (rdfstoreFlatStoreFetch me.nodes (packInt i)).isSome)
    (hscan : ∀ a, checkArgs st given = some a → (scanObject ext me.freetext me.errno a.object).isSome)
    (hmem : ∀ t k, t ≠ .windex → (Entry.ofCall me st given).HasKey ext me.freetext t k → i ∈ ids ext me t k)
    {r : Int} (hcase : RemoveCase ext now me st given r me') (hr : r = 0 ∨ r = 1) :
    r = 0 ∧ Removed ext me me' i (Entry.ofCall me st given) (callWindexKeys ext me st) := by
  have hhash : callHash ext me st given = (callUse me st given).hash ext := callHash_eq hfresh.statement
  have hid : unpackInt (packInt i) = i := by
    simp only [maxRecords] at hi
    exact unpackInt_packInt_of_lt (by omega)
  rw [← hhash] at hin
  -- the tables
  have htables : ∀ a nodes, checkArgs st given = some a → ∃ me₁ sc,
      scanObject ext me.freetext me.errno a.object = some sc ∧
      removeTables ext { me with nodes, context := cachedContext ext me st given } a
        (effectiveContext me st given) i = .ok me₁ ∧
      Removes ext i (adjacencyKeys ext a (effectiveContext me st given) ++ sc.others) sc.windex
        { me with nodes, context := cachedContext ext me st given } me₁ ∧ me₁.errno = sc.errno := by
    intro a nodes hargs
    obtain ⟨sc, hsc⟩ := Option.isSome_iff_exists.1 (hscan a hargs)
    have hkeys := Entry.hasKey_ofCall hfresh hargs hsc
    have hmem' : ∀ t k, (t, k) ∈ adjacencyKeys ext a (effectiveContext me st given) ++ sc.others →
        i ∈ ids ext me t k := by
      intro t k hk
      refine hmem t k ?_ ((hkeys t k).2 ?_)
      · rintro rfl
        rcases List.mem_append.1 hk with hk | hk
        · simp [adjacencyKeys, mem_optKey] at hk
        · exact windex_notMem_others hsc k hk
      · simp only [List.mem_append] at hk ⊢
        tauto
    obtain ⟨me₁, h₁, hrem, he⟩ := removeTables_spec hl
      (show TablesOk ext { me with nodes, context := cachedContext ext me st given } from hok.congr rfl)
      hi a (effectiveContext me st given) hsc hmem'
    exact ⟨me₁, sc, hsc, h₁, hrem, he⟩
  cases hcase with
  | badArgs hargs => simp at hr
  | absent a hargs hout => rw [hin] at hout; cases hout
  | noNode a hargs data hdata hdel =>
    rw [hin] at hdata
    cases hdata
    obtain ⟨v, hv⟩ := Option.isSome_iff_exists.1 hnode
    obtain ⟨db, hdb, -⟩ := delete_of_fetch _ _ hv
    rw [hid, hdb] at hdel
    cases hdel
  | halfWay a hargs data hdata nodes hdel _ _ hout =>
    rw [hin] at hdata
    cases hdata
    obtain ⟨me₁, sc, -, h₁, -⟩ := htables a nodes hargs
    rw [hid, h₁] at hout
    cases hout
  | noStatement a hargs data hdata nodes hdel me₁ hok₁ hdelete =>
    have hst : me₁.statements = me.statements := (removeTables_ok_sameRest hok₁).statements
    obtain ⟨db, hdb, -⟩ := delete_of_fetch _ _ hin
    rw [hst, hdb] at hdelete
    cases hdelete
  | removed a hargs data hdata nodes hdel me₁ hok₁ statements hdelete =>
    rw [hin] at hdata
    cases hdata
    rw [hid] at hdel hok₁
    obtain ⟨me₂, sc, hsc, h₂, hrem, he⟩ := htables a nodes hargs
    rw [hok₁] at h₂
    cases h₂
    have hkeys := Entry.hasKey_ofCall hfresh hargs hsc
    obtain ⟨hok', hrest, hwindex, hids⟩ := hrem
    have hst : me₁.statements = me.statements := hrest.statements
    have hnodes : me₁.nodes = nodes := hrest.nodes
    refine ⟨rfl, hok'.congr rfl, fun hnone => ?_, hrest.freetext, fun herr => ?_, hrest.counter, ?_,
      fun k => ?_, fun k => ?_, ?_, fun t k j ht => ?_⟩
    · exact hrest.context.trans (cachedContext_none hnone)
    · show me₁.errno = true
      rw [he]
      rw [herr] at hsc
      exact scanObject_errno hsc
    · have hc : me₁.counterRemoved = me.counterRemoved := hrest.counterRemoved
      show me₁.counterRemoved + 1 = _
      rw [hc]
    · rw [fetch_delete hdelete, hst, hhash]
      rfl
    · rw [← fetch_delete hdel, ← hnodes]
    · rw [← scanObject_windex (checkArgs_eq_some hargs).2.2 hsc]
      exact hwindex
    · have hnot : (t, k) ∉ sc.windexIndexed := by simp [ObjectScan.windexIndexed, Ne.symm ht]
      have hkeys' : (Entry.ofCall me st given).HasKey ext me.freetext t k ↔
          (t, k) ∈ adjacencyKeys ext a (effectiveContext me st given) ++ sc.others := by
        simp only [hkeys, List.mem_append, hnot, false_or]
        exact or_comm
      show j ∈ ids ext me₁ t k ↔ _
      rw [hids t k ht, hkeys']
      split
      · next hk => simp only [Finset.mem_erase, hk, and_true]; exact and_comm
      · next hk => simp only [hk, and_false, not_false_eq_true, and_true]; rfl

/-- The statement of a call is live under the id the statements table has for it. -/
theorem Holds.live_of_fetch (hcol : NoCollision ext U) (hh : Holds ext U me h) (hU : callUse me st given ∈ U)
    {data : Bytes}
    (hin : rdfstoreFlatStoreFetch me.statements (hashKey ((callUse me st given).hash ext)) = some data) :
    ∃ i e, h.live i = some e ∧ LaterEntry e (Entry.ofCall me st given) ∧ data = packInt i := by
  obtain ⟨i, e, he, hk, rfl⟩ := (hh.statements _ _).1 hin
  exact ⟨i, e, he, ⟨(hcol.key_iff (hh.used i e he) hU).1 hk.symm, hh.errno i e he⟩, rfl⟩

theorem LaterEntry.scanned {freetext : Bool} {e e' : Entry} (hlater : LaterEntry e e')
    (h : e.Scanned ext freetext) {o : Node} (ho : e'.statement.object = some o) :
    (scanObject ext freetext e'.errno o).isSome := by
  have hobj := hlater.objects
  rw [ho] at hobj
  obtain ⟨o₁, ho₁, hcontent⟩ := Option.map_eq_some_iff.1 hobj
  obtain ⟨sc, hsc⟩ := Option.isSome_iff_exists.1 (h o₁ ho₁)
  obtain ⟨sc', hsc', -⟩ := scanObject_later hsc hlater.errno
  rw [← scanObject_congr hcontent, hsc']
  rfl

theorem liveIds_remove {i : Nat} {e : Entry} {c : StatementContent} (he : h.live i = some e)
    (hc : e.content = c) (huniq : ∀ j e', h.live j = some e' → e'.content = c → j = i) :
    (h.remove c).liveIds = h.liveIds \ {i} := by
  ext j
  simp only [History.liveIds, Set.mem_ofPred_eq, Set.mem_sdiff, Set.mem_singleton_iff,
    Option.isSome_iff_exists, live_remove_eq_some]
  constructor
  · rintro ⟨e', he', hne⟩
    refine ⟨⟨e', he'⟩, ?_⟩
    rintro rfl
    rw [he] at he'
    cases he'
    exact hne hc
  · rintro ⟨⟨e', he'⟩, hne⟩
    exact ⟨e', he', fun hc' => hne (huniq j e' he' hc')⟩

/-- What is left of a history after the entry of a content was taken out. -/
theorem Holds.live_remove (hh : Holds ext U me h) {i : Nat} {e : Entry} {c : StatementContent}
    (he : h.live i = some e) (hc : e.content = c) (j : Nat) (e₁ : Entry) :
    (h.remove c).live j = some e₁ ↔ h.live j = some e₁ ∧ j ≠ i := by
  rw [live_remove_eq_some]
  constructor
  · rintro ⟨hj, hne⟩
    refine ⟨hj, ?_⟩
    rintro rfl
    rw [he] at hj
    cases hj
    exact hne hc
  · exact fun ⟨hj, hji⟩ => ⟨hj, fun hc₁ => hji (hh.unique j i e₁ e hj he (hc₁.trans hc.symm))⟩

/-- Taking out an entry. -/
theorem Holds.removed (hcol : NoCollision ext U) (hh : Holds ext U me h) {i : Nat} {e e' : Entry}
    (he : h.live i = some e) (hlater : LaterEntry e e') (hU : e'.use ∈ U) {windex : List Bytes}
    (hr : Removed ext me me' i e' windex)
    (hwindex : ∀ k, k ∈ windex ↔ e'.HasKey ext me.freetext .windex k)
    (hsafe : WindexSafe i (ids ext me .windex) windex) :
    Holds ext U me' (h.remove e'.content) := by
  have hi32 : ∀ j e₁, h.live j = some e₁ → j < 2 ^ 32 := fun j e₁ hj =>
    (hh.lt hj).trans me.counter.toNat_lt
  have hlive := hh.live_remove he hlater.content
  have huniq : ∀ j e₁, h.live j = some e₁ → (e₁.content = e'.content ↔ j = i) := by
    intro j e₁ hj
    refine ⟨fun hc => hh.unique j i e₁ e hj he (hc.trans hlater.content.symm), ?_⟩
    rintro rfl
    rw [he] at hj
    cases hj
    exact hlater.content
  have hids := liveIds_remove he hlater.content fun j e₁ hj hc => (huniq j e₁ hj).1 hc
  -- which ids are left in the tables
  have hother : ∀ t k j, t ≠ .windex → j ≠ i → (j ∈ ids ext me' t k ↔ j ∈ ids ext me t k) := by
    intro t k j ht hj
    rw [hr.indexed t k j ht]
    exact and_iff_left fun h => hj h.1
  have hw : ∀ k j, j ∈ ids ext me' .windex k ↔
      j ∈ ids ext me .windex k ∧ ¬ (j = i ∧ e'.HasKey ext me.freetext .windex k) := by
    intro k j
    rw [hr.windexed, hsafe.foldl_eq, ← hwindex]
    split
    · next hk => simp only [Finset.mem_erase, hk, and_true]; exact and_comm
    · next hk => simp only [hk, and_false, not_false_eq_true, and_true]
  have hall : ∀ t k j, j ∈ ids ext me' t k ↔
      j ∈ ids ext me t k ∧ ¬ (j = i ∧ e'.HasKey ext me.freetext t k) := by
    intro t k j
    by_cases ht : t = .windex
    · subst ht
      exact hw k j
    · exact hr.indexed t k j ht
  refine ⟨hr.tables, hr.context hh.context, ?_, ?_, hh.nodup, ?_, ?_, ?_, ?_, ?_, ?_, ?_, ?_, ?_, ?_, ?_⟩
  · rw [hr.counter]
    exact hh.room
  · rw [hr.counter]
    exact hh.bounded
  · exact fun j e₁ hj => hh.issued j e₁ ((hlive j e₁).1 hj).1
  · exact fun j e₁ hj => hh.used j e₁ ((hlive j e₁).1 hj).1
  · exact fun j j' e₁ e₂ hj hj' => hh.unique j j' e₁ e₂ ((hlive j e₁).1 hj).1 ((hlive j' e₂).1 hj').1
  · exact fun j e₁ hj herr => hr.errno (hh.errno j e₁ ((hlive j e₁).1 hj).1 herr)
  · intro j e₁ hj
    rw [hr.freetext]
    exact hh.scanned j e₁ ((hlive j e₁).1 hj).1
  · exact fun j e₁ hj => hh.recorded j e₁ ((hlive j e₁).1 hj).1
  · intro k data
    rw [hr.statements]
    have hkey : ∀ j e₁, h.live j = some e₁ → (hashKey (e₁.use.hash ext) = hashKey (e'.use.hash ext) ↔ j = i) :=
      fun j e₁ hj => (hcol.key_iff (hh.used j e₁ hj) hU).trans (huniq j e₁ hj)
    split
    · next hk =>
      constructor
      · exact nofun
      · rintro ⟨j, e₁, hj, hk', -⟩
        obtain ⟨hj, hne⟩ := (hlive j e₁).1 hj
        exact absurd ((hkey j e₁ hj).1 (hk'.symm.trans hk)) hne
    · next hk =>
      rw [hh.statements]
      constructor
      · rintro ⟨j, e₁, hj, rfl, rfl⟩
        exact ⟨j, e₁, (hlive j e₁).2 ⟨hj, fun hji => hk ((hkey j e₁ hj).2 hji)⟩, rfl, rfl⟩
      · rintro ⟨j, e₁, hj, hrest⟩
        exact ⟨j, e₁, ((hlive j e₁).1 hj).1, hrest⟩
  · intro k data
    rw [hr.nodes]
    split
    · next hk =>
      constructor
      · exact nofun
      · rintro ⟨j, e₁, hj, hk', -⟩
        obtain ⟨hj, hne⟩ := (hlive j e₁).1 hj
        exact absurd (packInt_inj (hi32 j e₁ hj) (hi32 i e he) (hk'.symm.trans hk)) hne
    · next hk =>
      rw [hh.nodes]
      constructor
      · rintro ⟨j, e₁, hj, rfl, hd⟩
        exact ⟨j, e₁, (hlive j e₁).2 ⟨hj, fun hji => hk (by rw [hji])⟩, rfl, hd⟩
      · rintro ⟨j, e₁, hj, hrest⟩
        exact ⟨j, e₁, ((hlive j e₁).1 hj).1, hrest⟩
  · intro t k j ht
    rw [hall, hh.indexed t k j ht, hr.freetext]
    constructor
    · rintro ⟨⟨e₁, hj, hk⟩, hnot⟩
      refine ⟨e₁, (hlive j e₁).2 ⟨hj, ?_⟩, hk⟩
      rintro rfl
      rw [he] at hj
      cases hj
      refine hnot ⟨rfl, ?_⟩
      by_cases hwin : t = .windex
      · subst hwin
        exact hlater.windex hk
      · exact (hlater.hasKey_iff ht hwin).1 hk
    · rintro ⟨e₁, hj, hk⟩
      obtain ⟨hj, hne⟩ := (hlive j e₁).1 hj
      exact ⟨⟨e₁, hj, hk⟩, fun hji => hne hji.1⟩
  · intro t k j e₁ hj hk
    obtain ⟨hj, hne⟩ := (hlive j e₁).1 hj
    rw [hr.freetext] at hk
    exact (hall t k j).2 ⟨hh.number t k j e₁ hj hk, fun hji => hne hji.1⟩
  · have hmem : i ∈ h.liveIds := by simp [History.liveIds, he]
    have hpos : 0 < h.liveIds.ncard := (Set.ncard_pos hh.finite).2 ⟨i, hmem⟩
    have hcount := hh.count
    have hlt := me.counter.toNat_lt
    have hctr : (me.counterRemoved + 1).toNat = me.counterRemoved.toNat + 1 := by
      rw [UInt32.toNat_add, UInt32.toNat_one, Nat.mod_eq_of_lt]
      omega
    rw [hids, Set.ncard_sdiff_singleton_of_mem hmem, hr.counterRemoved, hr.counter, hctr]
    omega

/-- A call of remove that answers 0 or 1 finds nothing to remove, or removes what is live. -/
theorem Holds.remove_cases (hl : ext.Lossless) (hcol : NoCollision ext U) (hh : Holds ext U me h)
    (hfresh : FreshCall ext me st given) (hU : callUse me st given ∈ U) {r : Int}
    (hcase : RemoveCase ext now me st given r me') (hr : r = 0 ∨ r = 1) :
    (r = 1 ∧ me' = me) ∨ (r = 0 ∧ ∃ i e, h.live i = some e ∧ LaterEntry e (Entry.ofCall me st given) ∧
      rdfstoreFlatStoreFetch me.statements (hashKey ((callUse me st given).hash ext)) = some (packInt i) ∧
      unpackInt (packInt i) = i ∧
      Removed ext me me' i (Entry.ofCall me st given) (callWindexKeys ext me st)) := by
  cases hin : rdfstoreFlatStoreFetch me.statements (hashKey ((callUse me st given).hash ext)) with
  | none =>
    have hhash : callHash ext me st given = (callUse me st given).hash ext := callHash_eq hfresh.statement
    rw [← hhash] at hin
    cases hcase with
    | badArgs hargs => simp at hr
    | absent a hargs hout => exact Or.inl ⟨rfl, rfl⟩
    | noNode a hargs data hdata => rw [hdata] at hin; cases hin
    | halfWay a hargs data hdata => rw [hdata] at hin; cases hin
    | noStatement a hargs data hdata => rw [hdata] at hin; cases hin
    | removed a hargs data hdata => rw [hdata] at hin; cases hin
  | some data =>
    obtain ⟨i, e, he, hlater, rfl⟩ := hh.live_of_fetch hcol hU hin
    have hi := hh.lt he
    have hmax := hh.room
    have hid := unpackInt_packInt_of_lt (hi.trans me.counter.toNat_lt)
    have hscan : ∀ a, checkArgs st given = some a → (scanObject ext me.freetext me.errno a.object).isSome :=
      fun a hargs => hlater.scanned (hh.scanned i e he) (checkArgs_eq_some hargs).2.2
    have hmem : ∀ t k, t ≠ .windex → (Entry.ofCall me st given).HasKey ext me.freetext t k →
        i ∈ ids ext me t k := by
      intro t k ht hk
      refine hh.number t k i e he ?_
      cases hnum : t.isNumber with
      | true => exact hlater.number hnum hk
      | false => exact (hlater.hasKey_iff hnum ht).2 hk
    have hnode : (rdfstoreFlatStoreFetch me.nodes (packInt i)).isSome := by
      obtain ⟨data, hdata⟩ := Option.isSome_iff_exists.1 (hh.recorded i e he)
      rw [(hh.nodes _ data).2 ⟨i, e, he, rfl, hdata⟩]
      rfl
    obtain ⟨rfl, hremoved⟩ := hcase.removed_spec hl hh.tables hfresh (by omega) hin hnode hscan hmem hr
    exact Or.inr ⟨rfl, i, e, he, hlater, rfl, hid, hremoved⟩

/-- A call of remove that answers 0 or 1. -/
theorem Holds.remove (hl : ext.Lossless) (hcol : NoCollision ext U) (hh : Holds ext U me h)
    (hfresh : FreshCall ext me st given) (hU : callUse me st given ∈ U)
    (hsafe : RemovalSafe ext me st given) {r : Int}
    (hcase : RemoveCase ext now me st given r me') (hr : r = 0 ∨ r = 1) :
    Holds ext U me' (if r = 0 then h.remove (callUse me st given).content else h) := by
  rcases hh.remove_cases hl hcol hfresh hU hcase hr with ⟨rfl, rfl⟩ | ⟨rfl, i, e, he, hlater, hin, hid, hremoved⟩
  · exact hh
  · have hsafe' := hsafe _ hin
    rw [hid] at hsafe'
    rw [if_pos rfl]
    exact hh.removed hcol he hlater hU hremoved (fun k => mem_callWindexKeys) hsafe'

end

end RdfStore
