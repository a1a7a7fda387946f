import Mathlib.Data.Finset.Max
import Mathlib.Data.List.Lex
import RdfStore.CacheRuns

/-!
# Real stores that fail

`IsTable b view` says that the real store is the table `view` as long as its calls
answer 0, and that a call that fails leaves the table as it is.  An operation on the
cached table first writes back the entries that have to leave and then looks at its
key (`lruKey_cases`); what is written back changes the table at the keys of changed
entries only (`writeBackAll_off`).
-/

namespace RdfStore

open ByteMem Ring SortedIndex

structure CursorBackend.IsTable {σ : Type} (b : CursorBackend σ) (view : σ → FlatDb) : Prop where
  fetch_ok : ∀ s k v, (b.fetch s k).1 = .ok v → rdfstoreFlatStoreFetch (view s) k = some v
  fetch_notFound : ∀ s k, (b.fetch s k).1 = .error .notFound → rdfstoreFlatStoreFetch (view s) k = none
  fetch_view : ∀ s k, view (b.fetch s k).2 = view s
  store_ok : ∀ s k v, (b.store s k v).1 = .ok () → view (b.store s k v).2 = rdfstoreFlatStoreStore (view s) k v
  store_error : ∀ s k v e, (b.store s k v).1 = .error e → view (b.store s k v).2 = view s
  delete_ok : ∀ s k, (b.delete s k).1 = .ok () →
    rdfstoreFlatStoreDelete (view s) k = some (view (b.delete s k).2)
  delete_error : ∀ s k e, (b.delete s k).1 = .error e → view (b.delete s k).2 = view s
  sync_view : ∀ s, view (b.sync s).2 = view s
  first_view : ∀ s, view (b.first s).2 = view s
  next_view : ∀ s k, view (b.next s k).2 = view s
  fromKey_view : ∀ s k, view (b.fromKey s k).2 = view s
  close_view : ∀ s, view (b.close s).2 = view s

section

variable {σ : Type} {b : CursorBackend σ} {view : σ → FlatDb}

theorem CursorBackend.IsTable.store_off (hb : b.IsTable view) (s : σ) (k v : Bytes) :
    SameOff k (view s) (view (b.store s k v).2) := by
  cases hr : (b.store s k v).1 with
  | ok u =>
    rw [hb.store_ok s k v hr]
    exact sameOff_store k v (view s)
  | error e =>
    rw [hb.store_error s k v e hr]
    exact SameOff.refl k (view s)

theorem CursorBackend.IsTable.delete_off (hb : b.IsTable view) (s : σ) (k : Bytes) :
    SameOff k (view s) (view (b.delete s k).2) := by
  cases hr : (b.delete s k).1 with
  | ok u =>
    intro k' hk'
    rw [fetch_delete (hb.delete_ok s k hr), if_neg hk']
  | error e =>
    rw [hb.delete_error s k e hr]
    exact SameOff.refl k (view s)

theorem cacheStore_off (hb : b.IsTable view) (s : σ) (d : CacheData) {k : Bytes}
    (h : d.state = .changed → d.key ≠ k) :
    rdfstoreFlatStoreFetch (view (cacheStore b.toBackend s d).2) k = rdfstoreFlatStoreFetch (view s) k := by
  unfold cacheStore
  split
  · rfl
  · next hs =>
    have hoff := hb.store_off s d.key d.val k (h (not_not.1 hs)).symm
    split
    · next inst hr =>
      rw [← hoff, hr]
    · exact hoff

theorem writeBackAll_off (hb : b.IsTable view) {ds : List CacheData} {s : σ} {k : Bytes}
    (h : ∀ d ∈ ds, d.state = .changed → d.key ≠ k) :
    rdfstoreFlatStoreFetch (view (writeBackAll b.toBackend ds s)) k = rdfstoreFlatStoreFetch (view s) k := by
  induction ds generalizing s with
  | nil => rfl
  | cons d ds ih =>
    show rdfstoreFlatStoreFetch (view (writeBackAll b.toBackend ds (cacheStore b.toBackend s d).2)) k = _
    rw [ih fun d' hd' => h d' (List.mem_cons_of_mem d hd'), cacheStore_off hb s d (h d List.mem_cons_self)]

theorem CacheOp.afterPurge_view (hb : b.IsTable view) {op : CacheOp} {s s' : σ} {r : Reply}
    (h : op.afterPurge b s = some (r, s')) : view s' = view s := by
  cases op with
  | plain op =>
    cases op with
    | sync => cases h; exact hb.sync_view s
    | store | fetch | exist | delete => cases h
  | fetchCompressed | storeCompressed => cases h
  | first => cases h; exact hb.first_view s
  | next k => cases h; exact hb.next_view s k
  | fromKey k => cases h; exact hb.fromKey_view s k
  | close => cases h; exact hb.close_view s

end

/-! ## Leaving and looking -/

section

variable {σ : Type} {b : Backend σ} {n : Nat} {entries entries' : List CacheData} {inst inst' : σ}
  {data d : CacheData} {op : BcOp} {e : Except FlatStoreError Unit}

/-- The entries that have to leave a list of `n` at most, for a new one. -/
def evicted (n : Nat) (entries : List CacheData) : List CacheData :=
  if entries.length = n then entries.getLast?.toList else []

def kept (n : Nat) (entries : List CacheData) : List CacheData :=
  if entries.length = n then entries.dropLast else entries

theorem kept_append_evicted (n : Nat) (entries : List CacheData) : kept n entries ++ evicted n entries = entries := by
  unfold kept evicted
  split
  · cases entries using List.reverseRecOn with
    | nil => rfl
    | append_singleton es d => simp
  · exact List.append_nil _

/-- What becomes of an entry that is there. -/
def foundData (b : Backend σ) (op : BcOp) (inst : σ) (data found : CacheData) :
    Except FlatStoreError Unit × CacheData × σ :=
  match op with
  | .write => (.ok (), data, inst)
  | .delete => cacheDelete b inst data
  | .read | .exist => (.ok (), found, inst)

/-- A key that is not there makes room for itself first; a key that is there is looked at. -/
theorem lruKey_cases (hr : lruKey b n entries inst data op = (e, d, entries', inst')) :
    ((∀ x ∈ entries, x.key ≠ data.key) ∧
        newData b op (writeBackAll b (evicted n entries) inst) data = (e, d, inst') ∧
        entries' = d :: kept n entries) ∨
      ∃ found ∈ entries, found.key = data.key ∧ entries.find? (·.key = data.key) = some found ∧
        foundData b op inst data found = (e, d, inst') ∧
        entries' = d :: entries.filter (·.key ≠ data.key) := by
  unfold lruKey at hr
  rcases find_or_miss entries data.key with hmiss | ⟨found, hmem, hkey, hfind⟩
  · left
    have hfind : entries.find? (·.key = data.key) = none :=
      List.find?_eq_none.2 fun x hx => by simpa using hmiss x hx
    have hback : writeBackAll b (evicted n entries) inst =
        if entries.length = n then entries.getLast?.elim inst fun d => (cacheStore b inst d).2 else inst := by
      unfold evicted
      split
      · cases entries.getLast? <;> rfl
      · rfl
    simp only [hfind] at hr
    rw [hback]
    rcases hnew : newData b op
      (if entries.length = n then entries.getLast?.elim inst fun d => (cacheStore b inst d).2 else inst) data with
      ⟨e', d', i'⟩
    rw [hnew] at hr
    cases hr
    exact ⟨hmiss, rfl, rfl⟩
  · right
    refine ⟨found, hmem, hkey, hfind, ?_⟩
    simp only [hfind] at hr
    cases op with
    | write => cases hr; exact ⟨rfl, rfl⟩
    | delete =>
      rcases hdel : cacheDelete b inst data with ⟨e', d', i'⟩
      rw [hdel] at hr
      cases hr
      exact ⟨hdel, rfl⟩
    | read | exist => cases hr; exact ⟨rfl, rfl⟩

/-- The key is at the head afterwards. -/
theorem lruKey_head (hr : lruKey b n entries inst data op = (e, d, entries', inst')) :
    d.key = data.key ∧ ∃ rest, entries' = d :: rest := by
  rcases lruKey_cases hr with ⟨-, hnew, rfl⟩ | ⟨found, -, hkey, -, hfound, rfl⟩
  · have hdata := @newData_key σ b op (writeBackAll b (evicted n entries) inst) data
    rw [hnew] at hdata
    exact ⟨hdata, _, rfl⟩
  · refine ⟨?_, _, rfl⟩
    cases op with
    | write => cases hfound; rfl
    | delete =>
      have hdata := @cacheDelete_key σ b inst data
      rw [show cacheDelete b inst data = (e, d, inst') from hfound] at hdata
      exact hdata
    | read | exist => cases hfound; exact hkey

end

section

variable {σ : Type} {b : CursorBackend σ} {view : σ → FlatDb} {inst inst' : σ} {d data : CacheData}
  {e : Except FlatStoreError Unit}

theorem cacheDelete_spec (hb : b.IsTable view) (hr : cacheDelete b.toBackend inst data = (e, d, inst')) :
    d = { data with state := .notFound } ∧ SameOff data.key (view inst) (view inst') := by
  have hoff := hb.delete_off inst data.key
  unfold cacheDelete at hr
  split at hr
  · next s hs =>
    rw [hs] at hoff
    cases hr
    exact ⟨rfl, hoff⟩
  · next e' s _ hs =>
    rw [hs] at hoff
    cases hr
    exact ⟨rfl, hoff⟩

/-- An operation on a key changes the table only there. -/
theorem newData_off (hb : b.IsTable view) {op : BcOp} (hr : newData b.toBackend op inst data = (e, d, inst')) :
    SameOff data.key (view inst) (view inst') := by
  have hfetch : view (cacheFetch b.toBackend inst data).2.2 = view inst := by
    have hview := hb.fetch_view inst data.key
    unfold cacheFetch
    split
    · next hs => rw [← hview, hs]
    · next hs => rw [← hview, hs]
    · next hs => rw [← hview, hs]
  cases op with
  | write => cases hr; exact SameOff.refl _ _
  | delete => exact (cacheDelete_spec hb hr).2
  | read | exist =>
    have hr : cacheFetch b.toBackend inst data = (e, d, inst') := hr
    rw [hr] at hfetch
    rw [hfetch]
    exact SameOff.refl _ _

theorem foundData_off (hb : b.IsTable view) {op : BcOp} {found : CacheData}
    (hr : foundData b.toBackend op inst data found = (e, d, inst')) : SameOff data.key (view inst) (view inst') := by
  cases op with
  | delete => exact (cacheDelete_spec hb hr).2
  | write | read | exist => cases hr; exact SameOff.refl _ _

end

/-! ## The operations on a key, by the list -/

section

variable {σ : Type} {b : Backend σ} {me me' : BackendCaching σ} {l : List Addr} {d : CacheData}
  {e : Except FlatStoreError Unit}

theorem backendCachingFetch_lru (h : me.cache.Ok l) (key : Bytes) {entries' : List CacheData} {inst' : σ}
    (hr : lruKey b me.cache.maxcache (me.cache.entries l) me.inst ⟨key, [], .undef⟩ .read = (e, d, entries', inst')) :
    ∃ c l', backendCachingFetch b me key = some ((e.bind fun _ =>
        if d.state = .notFound then .error .notFound else .ok d.val), ⟨c, inst'⟩) ∧
      c.Ok l' ∧ c.entries l' = entries' ∧ c.maxcache = me.cache.maxcache := by
  obtain ⟨c, l', hkey, hok, hentries, hmax⟩ := @CachingStore.Ok.cachekey _ l _ b h me.inst ⟨key, [], .undef⟩ .read
  rw [hr] at hkey hentries
  refine ⟨c, l', ?_, hok, hentries, hmax⟩
  unfold backendCachingFetch
  rw [hkey]
  cases e <;> rfl

theorem backendCachingCount_error {step : Nat → Nat} {key : Bytes} {err : FlatStoreError}
    (h : backendCachingFetch b me key = some (.error err, me')) :
    backendCachingCount b step me key = some (.error err, me') := by
  rw [backendCachingCount, h]
  rfl

theorem backendCachingCount_ok {step : Nat → Nat} {key val : Bytes}
    (h : backendCachingFetch b me key = some (.ok val, me')) :
    backendCachingCount b step me key = if val.length < 4 then none else
      (backendCachingStore b me' key (packInt (step (unpackInt val)) ++ val.drop 4)).bind fun r =>
        some (r.1.map fun _ => packInt (step (unpackInt val)) ++ val.drop 4, r.2) := by
  rw [backendCachingCount, h]
  rfl

theorem backendCachingExists_lru (h : me.cache.Ok l) (key : Bytes) {entries' : List CacheData} {inst' : σ}
    (hr : lruKey b me.cache.maxcache (me.cache.entries l) me.inst ⟨key, [], .undef⟩ .exist = (e, d, entries', inst')) :
    ∃ c l', backendCachingExists b me key = some ((e.bind fun _ =>
        if d.state = .exist ∨ d.state = .changed then .ok () else .error .notFound), ⟨c, inst'⟩) ∧
      c.Ok l' ∧ c.entries l' = entries' ∧ c.maxcache = me.cache.maxcache := by
  obtain ⟨c, l', hkey, hok, hentries, hmax⟩ := @CachingStore.Ok.cachekey _ l _ b h me.inst ⟨key, [], .undef⟩ .exist
  rw [hr] at hkey hentries
  refine ⟨c, l', ?_, hok, hentries, hmax⟩
  unfold backendCachingExists
  rw [hkey]
  cases e <;> rfl

theorem backendCachingStore_lru (h : me.cache.Ok l) (key val : Bytes) {entries' : List CacheData} {inst' : σ}
    (hr : lruKey b me.cache.maxcache (me.cache.entries l) me.inst ⟨key, val, .changed⟩ .write =
      (e, d, entries', inst')) :
    e = .ok () ∧ ∃ c l', backendCachingStore b me key val = some (.ok (), ⟨c, inst'⟩) ∧
      c.Ok l' ∧ c.entries l' = entries' ∧ c.maxcache = me.cache.maxcache := by
  obtain ⟨c, l', hkey, hok, hentries, hmax⟩ := @CachingStore.Ok.cachekey _ l _ b h me.inst ⟨key, val, .changed⟩ .write
  rw [hr] at hkey hentries
  have he : e = .ok () := by
    rcases lruKey_cases hr with ⟨-, hnew, -⟩ | ⟨found, -, -, -, hfound, -⟩
    · exact (congrArg Prod.fst hnew).symm
    · exact (congrArg Prod.fst hfound).symm
  refine ⟨he, c, l', ?_, hok, hentries, hmax⟩
  unfold backendCachingStore
  rw [hkey, he]
  rfl

end

/-! ## Counters -/

/-- The operations on the cached table, with the counters. -/
inductive CounterOp
  | cache (op : CacheOp)
  | inc (key : Bytes)
  | dec (key : Bytes)

def CounterOp.step {σ : Type} (b : CursorBackend σ) (encode decode : Bytes → Bytes) (me : BackendCaching σ) :
    CounterOp → Option (Reply × BackendCaching σ)
  | .cache op => op.step b encode decode me
  | .inc key => (backendCachingInc b.toBackend me key).map fun r => (r.1.map some, r.2)
  | .dec key => (backendCachingDec b.toBackend me key).map fun r => (r.1.map some, r.2)

/-! ## A table with faults -/

def leastKey (keys : Finset Bytes) : Except FlatStoreError Bytes :=
  match (keys.image (List.map UInt8.toNat)).min with
  | some key => .ok (key.map Nat.toUInt8)
  | none => .error .notFound

/-- A table, beside the faults to come (`true` is a call that fails). -/
def tableBackend : CursorBackend (FlatDb × List Bool) where
  fetch s key := ((flatBackend.fetch s.1 key).1, s)
  store s key val := (.ok (), rdfstoreFlatStoreStore s.1 key val, s.2)
  exist s key := ((flatBackend.exist s.1 key).1, s)
  delete s key := ((flatBackend.delete s.1 key).1, (flatBackend.delete s.1 key).2, s.2)
  sync s := (.ok (), s)
  first s := (leastKey s.1.keys, s)
  next s previousKey := (leastKey (s.1.keys.filter fun key => compare previousKey key = .lt), s)
  fromKey s closestKey := (leastKey (s.1.keys.filter fun key => compare closestKey key ≠ .gt), s)
  close s := (.ok (), s)

theorem tableBackend_isTable : tableBackend.IsTable Prod.fst where
  fetch_ok s k v h := by
    simp only [tableBackend, flatBackend] at h
    split at h
    · next val hval =>
      cases h
      exact hval
    · cases h
  fetch_notFound s k h := by
    simp only [tableBackend, flatBackend] at h
    split at h
    · cases h
    · next hnone => exact hnone
  fetch_view _ _ := rfl
  store_ok _ _ _ _ := rfl
  store_error _ _ _ _ h := by cases h
  delete_ok s k h := by
    simp only [tableBackend, flatBackend] at h ⊢
    cases hdel : rdfstoreFlatStoreDelete s.1 k with
    | some db => rfl
    | none => rw [hdel] at h; cases h
  delete_error s k e h := by
    simp only [tableBackend, flatBackend] at h ⊢
    cases hdel : rdfstoreFlatStoreDelete s.1 k with
    | some db => rw [hdel] at h; cases h
    | none => rfl
  sync_view _ := rfl
  first_view _ := rfl
  next_view _ _ := rfl
  fromKey_view _ _ := rfl
  close_view _ := rfl

/-- The table whose reads fail as told. -/
def failingReads : CursorBackend (FlatDb × List Bool) :=
  { tableBackend with
    fetch := fun s key =>
      if s.2.head? = some true then (.error (.other 5), s.1, s.2.tail)
      else ((flatBackend.fetch s.1 key).1, s.1, s.2.tail) }

theorem failingReads_isTable : failingReads.IsTable Prod.fst :=
  { tableBackend_isTable with
    fetch_ok := fun s k v h => by
      simp only [failingReads] at h
      split at h
      · cases h
      · exact tableBackend_isTable.fetch_ok s k v h
    fetch_notFound := fun s k h => by
      simp only [failingReads] at h
      split at h
      · cases h
      · exact tableBackend_isTable.fetch_notFound s k h
    fetch_view := fun s k => by
      simp only [failingReads]
      split
      · rfl
      · rfl }

/-- The table whose writes fail as told. -/
def failingWrites : CursorBackend (FlatDb × List Bool) :=
  { tableBackend with
    store := fun s key val =>
      if s.2.head? = some true then (.error (.other 5), s.1, s.2.tail)
      else (.ok (), rdfstoreFlatStoreStore s.1 key val, s.2.tail) }

theorem failingWrites_isTable : failingWrites.IsTable Prod.fst :=
  { tableBackend_isTable with
    store_ok := fun s k v h => by
      simp only [failingWrites] at h ⊢
      split at h
      · cases h
      · next hnot => rw [if_neg hnot]
    store_error := fun s k v e h => by
      simp only [failingWrites] at h ⊢
      split at h
      · next hfault => rw [if_pos hfault]
      · cases h }

theorem failingWrites_fetch (s : FlatDb × List Bool) (k : Bytes) (e : FlatStoreError)
    (h : (failingWrites.fetch s k).1 = .error e) : e = .notFound := by
  simp only [failingWrites, tableBackend, flatBackend] at h
  split at h
  · cases h
  · cases h
    rfl

end RdfStore
