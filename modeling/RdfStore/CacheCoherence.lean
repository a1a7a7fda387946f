import RdfStore.CacheLru

/-!
# What the cached table answers

Over a real store that is a finite map, a run on the cached table and the same run
on the real store are compared, step by step.  A stored key may be in the cache
alone, while `backend_caching_delete` asks the real store at once; such a delete
answers `FLAT_STORE_E_NOTFOUND`, and everything else answers alike.

    the answers are the same ↔ no delete of a key that only the cache has      (cachedReplies_iff)
-/

namespace RdfStore

open ByteMem Ring SortedIndex

/-! ## Runs -/

/-- A real store that does not fail. -/
def flatBackend : Backend FlatDb where
  fetch db key :=
    match rdfstoreFlatStoreFetch db key with
    | some val => (.ok val, db)
    | none => (.error .notFound, db)
  store db key val := (.ok (), rdfstoreFlatStoreStore db key val)
  exist db key := (if rdfstoreFlatStoreExists db key then .ok () else .error .notFound, db)
  delete db key :=
    match rdfstoreFlatStoreDelete db key with
    | some db => (.ok (), db)
    | none => (.error .notFound, db)
  sync db := (.ok (), db)

inductive StoreOp
  | store (key val : Bytes)
  | fetch (key : Bytes)
  | exist (key : Bytes)
  | delete (key : Bytes)
  | sync

/-- The status of an operation, and the value if it is a fetch. -/
abbrev Reply := Except FlatStoreError (Option Bytes)

section

variable {σ : Type} (b : Backend σ)

def StoreOp.cached (me : BackendCaching σ) : StoreOp → Option (Reply × BackendCaching σ)
  | .store key val => (backendCachingStore b me key val).map fun r => (r.1.map fun _ => none, r.2)
  | .fetch key => (backendCachingFetch b me key).map fun r => (r.1.map some, r.2)
  | .exist key => (backendCachingExists b me key).map fun r => (r.1.map fun _ => none, r.2)
  | .delete key => (backendCachingDelete b me key).map fun r => (r.1.map fun _ => none, r.2)
  | .sync => some ((backendCachingSync b me).1.map fun _ => none, (backendCachingSync b me).2)

def StoreOp.direct (s : σ) : StoreOp → Reply × σ
  | .store key val => ((b.store s key val).1.map fun _ => none, (b.store s key val).2)
  | .fetch key => ((b.fetch s key).1.map some, (b.fetch s key).2)
  | .exist key => ((b.exist s key).1.map fun _ => none, (b.exist s key).2)
  | .delete key => ((b.delete s key).1.map fun _ => none, (b.delete s key).2)
  | .sync => ((b.sync s).1.map fun _ => none, (b.sync s).2)

def runCached : List StoreOp → BackendCaching σ → Option (List Reply × BackendCaching σ)
  | [], me => some ([], me)
  | op :: ops, me => do
    let (r, me) ← op.cached b me
    let (rs, me) ← runCached ops me
    some (r :: rs, me)

def runDirect : List StoreOp → σ → List Reply × σ
  | [], s => ([], s)
  | op :: ops, s => ((op.direct b s).1 :: (runDirect ops (op.direct b s).2).1, (runDirect ops (op.direct b s).2).2)

end

/-- The key is changed in the cache, and the real store does not have it. -/
def OnlyCached (me : BackendCaching FlatDb) (key : Bytes) : Prop :=
  ∃ i, me.cache.lookup ⟨key, [], .undef⟩ = some i ∧ (me.cache.cells i).data.state = .changed ∧
    rdfstoreFlatStoreFetch me.inst key = none

/-- No delete in the run comes to a key that only the cache has. -/
def DeletesStored : List StoreOp → BackendCaching FlatDb → Prop
  | [], _ => True
  | op :: ops, me => (∀ key, op = .delete key → ¬ OnlyCached me key) ∧
      ∀ r me', op.cached flatBackend me = some (r, me') → DeletesStored ops me'

/-! ## Coherence -/

/-- What an entry says of its key is true of the table `m`, and, unless changed, of the real store. -/
def CacheData.Agrees (d : CacheData) (db m : FlatDb) : Prop :=
  match d.state with
  | .changed => rdfstoreFlatStoreFetch m d.key = some d.val
  | .exist => rdfstoreFlatStoreFetch m d.key = some d.val ∧ rdfstoreFlatStoreFetch db d.key = some d.val
  | .notFound => rdfstoreFlatStoreFetch m d.key = none ∧ rdfstoreFlatStoreFetch db d.key = none
  | .undef | .deleted => False

/-- The entries before the real store `db` are the table `m`. -/
structure Coherent (entries : List CacheData) (db m : FlatDb) : Prop where
  distinct : entries.Pairwise fun a b => a.key ≠ b.key
  entry : ∀ d ∈ entries, d.Agrees db m
  rest : ∀ k, (∀ d ∈ entries, d.key ≠ k) → rdfstoreFlatStoreFetch m k = rdfstoreFlatStoreFetch db k

section

variable {entries : List CacheData} {d : CacheData} {db db' m m' : FlatDb} {k : Bytes}

theorem CacheData.Agrees.congr (h : d.Agrees db m)
    (hm : rdfstoreFlatStoreFetch m' d.key = rdfstoreFlatStoreFetch m d.key)
    (hdb : rdfstoreFlatStoreFetch db' d.key = rdfstoreFlatStoreFetch db d.key) : d.Agrees db' m' := by
  unfold CacheData.Agrees at h ⊢
  rw [hm, hdb]
  exact h

theorem coherent_nil (db : FlatDb) : Coherent [] db db := ⟨List.Pairwise.nil, nofun, fun _ _ => rfl⟩

/-- Two tables that differ at most at one key. -/
def SameOff (k : Bytes) (db db' : FlatDb) : Prop :=
  ∀ k', k' ≠ k → rdfstoreFlatStoreFetch db' k' = rdfstoreFlatStoreFetch db k'

theorem SameOff.refl (k : Bytes) (db : FlatDb) : SameOff k db db := fun _ _ => rfl

theorem sameOff_store (k v : Bytes) (db : FlatDb) : SameOff k db (rdfstoreFlatStoreStore db k v) :=
  fun _ h => by rw [fetch_store, if_neg h]

/-- Entries that are coherent at all keys but one, which they leave out. -/
structure CoherentOff (k : Bytes) (entries : List CacheData) (db m : FlatDb) : Prop where
  distinct : entries.Pairwise fun a b => a.key ≠ b.key
  entry : ∀ d ∈ entries, d.Agrees db m
  out : ∀ d ∈ entries, d.key ≠ k
  rest : ∀ k', k' ≠ k → (∀ d ∈ entries, d.key ≠ k') → rdfstoreFlatStoreFetch m k' = rdfstoreFlatStoreFetch db k'

theorem Coherent.off (h : Coherent entries db m) (hout : ∀ d ∈ entries, d.key ≠ k) :
    CoherentOff k entries db m :=
  ⟨h.distinct, h.entry, hout, fun k' _ => h.rest k'⟩

theorem Coherent.filter (h : Coherent entries db m) (k : Bytes) :
    CoherentOff k (entries.filter (·.key ≠ k)) db m := by
  refine ⟨h.distinct.filter _, fun d hd => h.entry d (List.mem_filter.1 hd).1, fun d hd => ?_, fun k' hk' hout => ?_⟩
  · simpa using (List.mem_filter.1 hd).2
  · refine h.rest k' fun d hd he => ?_
    exact hout d (List.mem_filter.2 ⟨hd, by simpa using he.trans_ne hk'⟩) he

/-- A new entry for the key, whatever happened at the key. -/
theorem CoherentOff.cons (h : CoherentOff k entries db m) (hd : d.Agrees db' m') (hkey : d.key = k)
    (hdb : SameOff k db db') (hm : SameOff k m m') : Coherent (d :: entries) db' m' := by
  refine ⟨List.pairwise_cons.2 ⟨fun a ha => ?_, h.distinct⟩, fun a ha => ?_, fun k' hk' => ?_⟩
  · rw [hkey]
    exact (h.out a ha).symm
  · rcases List.mem_cons.1 ha with rfl | ha
    · exact hd
    · exact (h.entry a ha).congr (hm a.key (h.out a ha)) (hdb a.key (h.out a ha))
  · have hne : k' ≠ k := fun he => hk' d List.mem_cons_self (hkey.trans he.symm)
    rw [hm k' hne, hdb k' hne]
    exact h.rest k' hne fun a ha => hk' a (List.mem_cons_of_mem d ha)

/-! ## Writing back -/

theorem cacheStore_fetch (h : d.Agrees db m) :
    rdfstoreFlatStoreFetch (cacheStore flatBackend db d).2 d.key = rdfstoreFlatStoreFetch m d.key ∧
      SameOff d.key db (cacheStore flatBackend db d).2 := by
  unfold CacheData.Agrees at h
  unfold cacheStore
  split
  · next hs =>
    split at h
    · next hc => exact absurd hc hs
    · exact ⟨h.2.trans h.1.symm, SameOff.refl _ _⟩
    · exact ⟨h.2.trans h.1.symm, SameOff.refl _ _⟩
    · exact h.elim
    · exact h.elim
  · next hs =>
    rw [not_not.1 hs] at h
    refine ⟨?_, sameOff_store _ _ _⟩
    show rdfstoreFlatStoreFetch (rdfstoreFlatStoreStore db d.key d.val) d.key = _
    rw [fetch_store_same]
    exact h.symm

/-- An entry may leave once it is written back. -/
theorem Coherent.writeBack {es₁ es₂ : List CacheData} (h : Coherent (es₁ ++ d :: es₂) db m) :
    Coherent (es₁ ++ es₂) (cacheStore flatBackend db d).2 m := by
  obtain ⟨hself, hoff⟩ := cacheStore_fetch (h.entry d (by simp))
  have hmid : (d :: (es₁ ++ es₂)).Pairwise fun a b => a.key ≠ b.key :=
    List.perm_middle.pairwise h.distinct fun h => h.symm
  rw [List.pairwise_cons] at hmid
  have hmem : ∀ a ∈ es₁ ++ es₂, a ∈ es₁ ++ d :: es₂ := fun a ha =>
    List.perm_middle.mem_iff.2 (List.mem_cons_of_mem d ha)
  refine ⟨hmid.2, fun a ha => ?_, fun k hk => ?_⟩
  · exact (h.entry a (hmem a ha)).congr rfl (hoff a.key (hmid.1 a ha).symm)
  · by_cases hkd : k = d.key
    · rw [hkd, hself]
    · rw [hoff k hkd]
      refine h.rest k fun a ha => ?_
      rcases List.mem_cons.1 (List.perm_middle.mem_iff.1 ha) with rfl | ha
      · exact Ne.symm hkd
      · exact hk a ha

theorem Coherent.purge (h : Coherent entries db m) :
    Coherent [] (entries.foldl (fun db d => (cacheStore flatBackend db d).2) db) m := by
  induction entries generalizing db with
  | nil => exact h
  | cons d entries ih => exact ih (@Coherent.writeBack d db m [] entries h)

/-! ## One operation on the list -/

theorem flatBackend_delete (db : FlatDb) (k : Bytes) :
    (flatBackend.delete db k).1 = (if (rdfstoreFlatStoreFetch db k).isSome then .ok () else .error .notFound) ∧
      rdfstoreFlatStoreFetch (flatBackend.delete db k).2 k = none ∧ SameOff k db (flatBackend.delete db k).2 := by
  cases hv : rdfstoreFlatStoreFetch db k with
  | none =>
    have hdel : flatBackend.delete db k = (.error .notFound, db) := by
      simp only [flatBackend, delete_of_fetch_none _ _ hv]
    rw [hdel]
    exact ⟨rfl, hv, SameOff.refl _ _⟩
  | some v =>
    obtain ⟨db', hdb', hnone, hother⟩ := delete_of_fetch _ _ hv
    have hdel : flatBackend.delete db k = (.ok (), db') := by
      simp only [flatBackend, hdb']
    rw [hdel]
    exact ⟨rfl, hnone, hother⟩

theorem cacheDelete_flatBackend (db : FlatDb) (data : CacheData) : cacheDelete flatBackend db data =
    ((flatBackend.delete db data.key).1, { data with state := .notFound }, (flatBackend.delete db data.key).2) := by
  unfold cacheDelete
  have hstatus := (flatBackend_delete db data.key).1
  split
  · next inst he =>
    rw [he] at hstatus
    split at hstatus
    · cases hstatus
    · cases hstatus
  · next he => rw [he]

theorem cacheFetch_agrees (db : FlatDb) (data : CacheData) (hm : rdfstoreFlatStoreFetch m data.key =
    rdfstoreFlatStoreFetch db data.key) : ∃ d, cacheFetch flatBackend db data = (.ok (), d, db) ∧
      d.key = data.key ∧ d.Agrees db m := by
  unfold cacheFetch
  cases hv : rdfstoreFlatStoreFetch db data.key with
  | none =>
    simp only [flatBackend, hv]
    exact ⟨_, rfl, rfl, hm.trans hv, hv⟩
  | some v =>
    simp only [flatBackend, hv]
    exact ⟨_, rfl, rfl, hm.trans hv, hv⟩

variable {n : Nat} {data : CacheData}

/-- A new key, after the last entry has made room for it. -/
theorem Coherent.miss (h : Coherent entries db m) (hpos : 0 < n) (hmiss : ∀ d ∈ entries, d.key ≠ data.key)
    (op : BcOp) : ∃ rest db₀, lruKey flatBackend n entries db data op =
        ((newData flatBackend op db₀ data).1, (newData flatBackend op db₀ data).2.1,
          (newData flatBackend op db₀ data).2.1 :: rest, (newData flatBackend op db₀ data).2.2) ∧
      CoherentOff data.key rest db₀ m ∧
      rdfstoreFlatStoreFetch m data.key = rdfstoreFlatStoreFetch db₀ data.key := by
  have hfind : entries.find? (·.key = data.key) = none :=
    List.find?_eq_none.2 fun d hd => by simpa using hmiss d hd
  unfold lruKey
  simp only [hfind]
  by_cases hfull : entries.length = n
  · obtain ⟨rest, z, rfl⟩ : ∃ rest z, entries = rest ++ [z] := by
      have hne : entries ≠ [] := fun he => by
        rw [he, List.length_nil] at hfull
        omega
      exact ⟨entries.dropLast, entries.getLast hne, (List.dropLast_append_getLast hne).symm⟩
    have hback : Coherent (rest ++ []) (cacheStore flatBackend db z).2 m := h.writeBack
    rw [List.append_nil] at hback
    have hout : ∀ d ∈ rest, d.key ≠ data.key := fun d hd => hmiss d (List.mem_append_left _ hd)
    refine ⟨rest, (cacheStore flatBackend db z).2, ?_, hback.off hout, hback.rest _ hout⟩
    simp only [if_pos hfull, List.getLast?_append, List.getLast?_singleton, Option.some_or, Option.elim_some,
      List.dropLast_concat]
  · refine ⟨entries, db, ?_, h.off hmiss, h.rest _ hmiss⟩
    simp only [if_neg hfull]

theorem find_or_miss (entries : List CacheData) (k : Bytes) :
    (∀ d ∈ entries, d.key ≠ k) ∨ ∃ d ∈ entries, d.key = k ∧ entries.find? (·.key = k) = some d := by
  cases hfind : entries.find? (·.key = k) with
  | none => exact Or.inl fun d hd => by simpa using List.find?_eq_none.1 hfind d hd
  | some d => exact Or.inr ⟨d, List.mem_of_find?_eq_some hfind, by simpa using List.find?_some hfind, rfl⟩

theorem Coherent.write (h : Coherent entries db m) (hpos : 0 < n) (k v : Bytes) :
    ∃ d entries' db', lruKey flatBackend n entries db ⟨k, v, .changed⟩ .write = (.ok (), d, entries', db') ∧
      Coherent entries' db' (rdfstoreFlatStoreStore m k v) := by
  have hagrees : ∀ db, (⟨k, v, .changed⟩ : CacheData).Agrees db (rdfstoreFlatStoreStore m k v) := fun db =>
    fetch_store_same m k v
  rcases find_or_miss entries k with hmiss | ⟨found, -, -, hfind⟩
  · obtain ⟨rest, db₀, hr, hoff, -⟩ := @Coherent.miss entries db m n ⟨k, v, .changed⟩ h hpos hmiss .write
    exact ⟨_, _, _, hr, hoff.cons (hagrees db₀) rfl (SameOff.refl k db₀) (sameOff_store k v m)⟩
  · unfold lruKey
    simp only [hfind]
    exact ⟨_, _, _, rfl, (h.filter k).cons (hagrees db) rfl (SameOff.refl k db) (sameOff_store k v m)⟩

theorem Coherent.read (h : Coherent entries db m) (hpos : 0 < n) (k : Bytes) {op : BcOp}
    (hop : op = .read ∨ op = .exist) :
    ∃ d entries' db', lruKey flatBackend n entries db ⟨k, [], .undef⟩ op = (.ok (), d, entries', db') ∧
      d.key = k ∧ d.Agrees db' m ∧ Coherent entries' db' m := by
  rcases find_or_miss entries k with hmiss | ⟨found, hmem, hkey, hfind⟩
  · obtain ⟨rest, db₀, hr, hoff, hm⟩ := @Coherent.miss entries db m n ⟨k, [], .undef⟩ h hpos hmiss op
    obtain ⟨d, hd, hkey, hagrees⟩ := cacheFetch_agrees db₀ ⟨k, [], .undef⟩ hm
    have hnew : newData flatBackend op db₀ ⟨k, [], .undef⟩ = (.ok (), d, db₀) := by
      rcases hop with rfl | rfl
      · exact hd
      · exact hd
    rw [hnew] at hr
    exact ⟨_, _, _, hr, hkey, hagrees, hoff.cons hagrees hkey (SameOff.refl k db₀) (SameOff.refl k m)⟩
  · have hcons := (h.filter k).cons (h.entry found hmem) hkey (SameOff.refl k db) (SameOff.refl k m)
    unfold lruKey
    simp only [hfind]
    rcases hop with rfl | rfl
    · exact ⟨_, _, _, rfl, hkey, h.entry found hmem, hcons⟩
    · exact ⟨_, _, _, rfl, hkey, h.entry found hmem, hcons⟩

theorem Coherent.delete (h : Coherent entries db m) (hpos : 0 < n) (k : Bytes) :
    ∃ e d entries' db', lruKey flatBackend n entries db ⟨k, [], .undef⟩ .delete = (e, d, entries', db') ∧
      Coherent entries' db' (flatBackend.delete m k).2 ∧
      (e = (flatBackend.delete m k).1 ↔
        ¬ ∃ d ∈ entries, d.key = k ∧ d.state = .changed ∧ rdfstoreFlatStoreFetch db k = none) := by
  obtain ⟨hstatus, hnone, hother⟩ := flatBackend_delete m k
  have hagrees : ∀ db₀, (⟨k, [], .notFound⟩ : CacheData).Agrees (flatBackend.delete db₀ k).2
      (flatBackend.delete m k).2 := fun db₀ => ⟨hnone, (flatBackend_delete db₀ k).2.1⟩
  rcases find_or_miss entries k with hmiss | ⟨found, hmem, hkey, hfind⟩
  · obtain ⟨rest, db₀, hr, hoff, hm⟩ := @Coherent.miss entries db m n ⟨k, [], .undef⟩ h hpos hmiss .delete
    rw [newData, cacheDelete_flatBackend] at hr
    refine ⟨_, _, _, _, hr, hoff.cons (hagrees db₀) rfl (flatBackend_delete db₀ k).2.2 hother, ?_⟩
    have hsame : (flatBackend.delete db₀ k).1 = (flatBackend.delete m k).1 := by
      rw [hstatus, (flatBackend_delete db₀ k).1, hm]
    simp only [hsame, true_iff]
    rintro ⟨d, hd, hdk, -⟩
    exact hmiss d hd hdk
  · unfold lruKey
    simp only [hfind, cacheDelete_flatBackend]
    refine ⟨_, _, _, _, rfl, (h.filter k).cons (hagrees db) rfl (flatBackend_delete db k).2.2 hother, ?_⟩
    have hfound := h.entry found hmem
    have honly : (∃ d ∈ entries, d.key = k ∧ d.state = .changed ∧ rdfstoreFlatStoreFetch db k = none) ↔
        found.state = .changed ∧ rdfstoreFlatStoreFetch db k = none := by
      constructor
      · rintro ⟨d, hd, hdk, hchanged, hdb⟩
        have hsame : d = found := by
          have : Std.Symm fun a b : CacheData => a.key ≠ b.key := ⟨fun _ _ h => h.symm⟩
          by_contra hne
          exact h.distinct.forall hd hmem hne (hdk.trans hkey.symm)
        exact ⟨hsame ▸ hchanged, hdb⟩
      · exact fun hc => ⟨found, hmem, hkey, hc⟩
    rw [honly, hstatus, (flatBackend_delete db k).1]
    unfold CacheData.Agrees at hfound
    rw [hkey] at hfound
    split at hfound
    · next hs =>
      rw [hfound, hs]
      cases rdfstoreFlatStoreFetch db k with
      | none => simp
      | some v => simp
    · next hs => simp [hfound.1, hfound.2]
    · next hs => simp [hfound.1, hfound.2, hs]
    · exact hfound.elim
    · exact hfound.elim

end

/-! ## One operation on the cached table -/

/-- The cache before its real store is the table `m`. -/
def Simulates (me : BackendCaching FlatDb) (m : FlatDb) : Prop :=
  ∃ l, me.cache.Ok l ∧ Coherent (me.cache.entries l) me.inst m

section

variable {me : BackendCaching FlatDb} {m : FlatDb}

theorem simulates_open (n : Nat) (db : FlatDb) : Simulates (backendCachingOpen n db) db :=
  ⟨[], initCachingstore_ok n, coherent_nil db⟩

theorem onlyCached_iff {l : List Addr} (h : me.cache.Ok l) (key : Bytes) : OnlyCached me key ↔
    ∃ d ∈ me.cache.entries l, d.key = key ∧ d.state = .changed ∧ rdfstoreFlatStoreFetch me.inst key = none := by
  unfold OnlyCached CachingStore.entries
  constructor
  · rintro ⟨i, hlookup, hchanged, hdb⟩
    obtain ⟨hi, hkey⟩ := h.lookup_some.1 hlookup
    exact ⟨_, List.mem_map_of_mem hi, hkey, hchanged, hdb⟩
  · rintro ⟨d, hd, hkey, hchanged, hdb⟩
    obtain ⟨i, hi, rfl⟩ := List.mem_map.1 hd
    exact ⟨i, h.lookup_some.2 ⟨hi, hkey⟩, hchanged, hdb⟩

theorem Simulates.store (h : Simulates me m) (key val : Bytes) :
    ∃ me', backendCachingStore flatBackend me key val = some (.ok (), me') ∧
      Simulates me' (rdfstoreFlatStoreStore m key val) := by
  obtain ⟨l, hok, hco⟩ := h
  obtain ⟨d, entries', db', hr, hco'⟩ := hco.write hok.pos key val
  obtain ⟨c, l', hkey, hok', hentries, -⟩ := @CachingStore.Ok.cachekey _ l _ flatBackend hok me.inst
    ⟨key, val, .changed⟩ .write
  rw [hr] at hkey hentries
  refine ⟨⟨c, db'⟩, ?_, l', hok', hentries ▸ hco'⟩
  unfold backendCachingStore
  rw [hkey]
  rfl

/-- What an entry answers is what is in the table. -/
theorem CacheData.Agrees.answer {d : CacheData} {db : FlatDb} (h : d.Agrees db m) :
    (if d.state = .notFound then Except.error FlatStoreError.notFound else .ok d.val) =
        (flatBackend.fetch m d.key).1 ∧
      (if d.state = .exist ∨ d.state = .changed then Except.ok () else .error .notFound) =
        (flatBackend.exist m d.key).1 := by
  unfold CacheData.Agrees at h
  simp only [flatBackend, exists_eq_isSome]
  split at h
  · next hs => simp [hs, h]
  · next hs => simp [hs, h.1]
  · next hs => simp [hs, h.1]
  · exact h.elim
  · exact h.elim

theorem Simulates.read (h : Simulates me m) (key : Bytes) {op : BcOp} (hop : op = .read ∨ op = .exist) :
    ∃ d me', cachekey flatBackend me ⟨key, [], .undef⟩ op = some (.ok (), d, me') ∧ d.key = key ∧
      d.Agrees me'.inst m ∧ Simulates me' m := by
  obtain ⟨l, hok, hco⟩ := h
  obtain ⟨d, entries', db', hr, hdk, hagrees, hco'⟩ := hco.read hok.pos key hop
  obtain ⟨c, l', hkey, hok', hentries, -⟩ := @CachingStore.Ok.cachekey _ l _ flatBackend hok me.inst
    ⟨key, [], .undef⟩ op
  rw [hr] at hkey hentries
  exact ⟨d, ⟨c, db'⟩, hkey, hdk, hagrees, l', hok', hentries ▸ hco'⟩

theorem flatBackend_fetch_snd (key : Bytes) : (flatBackend.fetch m key).2 = m := by
  simp only [flatBackend]
  split
  · rfl
  · rfl

theorem Simulates.fetch (h : Simulates me m) (key : Bytes) :
    ∃ me', backendCachingFetch flatBackend me key = some ((flatBackend.fetch m key).1, me') ∧
      Simulates me' m := by
  obtain ⟨d, me', hkey, rfl, hagrees, hsim⟩ := h.read key (Or.inl rfl)
  refine ⟨me', ?_, hsim⟩
  unfold backendCachingFetch
  rw [hkey, ← hagrees.answer.1]
  rfl

theorem Simulates.exist (h : Simulates me m) (key : Bytes) :
    ∃ me', backendCachingExists flatBackend me key = some ((flatBackend.exist m key).1, me') ∧
      Simulates me' m := by
  obtain ⟨d, me', hkey, rfl, hagrees, hsim⟩ := h.read key (Or.inr rfl)
  refine ⟨me', ?_, hsim⟩
  unfold backendCachingExists
  rw [hkey, ← hagrees.answer.2]
  rfl

theorem Simulates.delete (h : Simulates me m) (key : Bytes) :
    ∃ e me', backendCachingDelete flatBackend me key = some (e, me') ∧
      Simulates me' (flatBackend.delete m key).2 ∧
      (e = (flatBackend.delete m key).1 ↔ ¬ OnlyCached me key) := by
  obtain ⟨l, hok, hco⟩ := h
  obtain ⟨e, d, entries', db', hr, hco', hiff⟩ := hco.delete hok.pos key
  obtain ⟨c, l', hkey, hok', hentries, -⟩ := @CachingStore.Ok.cachekey _ l _ flatBackend hok me.inst
    ⟨key, [], .undef⟩ .delete
  rw [hr] at hkey hentries
  refine ⟨e, ⟨c, db'⟩, ?_, ⟨l', hok', hentries ▸ hco'⟩, ?_⟩
  · unfold backendCachingDelete
    rw [hkey]
    rfl
  · rw [hiff, onlyCached_iff hok]

theorem Simulates.purge (h : Simulates me m) : Simulates (purgecache flatBackend me) m := by
  obtain ⟨l, hok, hco⟩ := h
  obtain ⟨c, hpurge, hok', -⟩ := @CachingStore.Ok.purgecache _ l _ flatBackend hok me.inst
  rw [hpurge]
  exact ⟨[], hok', hco.purge⟩

/-- An operation on the cached table answers as on the table it stands for, but for a delete of a
key that only the cache has. -/
theorem Simulates.step (h : Simulates me m) (op : StoreOp) :
    ∃ r me', op.cached flatBackend me = some (r, me') ∧ Simulates me' (op.direct flatBackend m).2 ∧
      (r = (op.direct flatBackend m).1 ↔ ∀ key, op = .delete key → ¬ OnlyCached me key) := by
  cases op with
  | store key val =>
    obtain ⟨me', hr, hsim⟩ := h.store key val
    exact ⟨.ok none, me', by rw [StoreOp.cached, hr]; rfl, hsim, iff_of_true rfl nofun⟩
  | fetch key =>
    obtain ⟨me', hr, hsim⟩ := h.fetch key
    refine ⟨(flatBackend.fetch m key).1.map some, me', by rw [StoreOp.cached, hr]; rfl, ?_, iff_of_true rfl nofun⟩
    rw [StoreOp.direct, flatBackend_fetch_snd]
    exact hsim
  | exist key =>
    obtain ⟨me', hr, hsim⟩ := h.exist key
    exact ⟨(flatBackend.exist m key).1.map fun _ => none, me', by rw [StoreOp.cached, hr]; rfl, hsim,
      iff_of_true rfl nofun⟩
  | delete key =>
    obtain ⟨e, me', hr, hsim, hiff⟩ := h.delete key
    refine ⟨e.map fun _ => none, me', by rw [StoreOp.cached, hr]; rfl, hsim, ?_⟩
    have hmap : (e.map fun _ => (none : Option Bytes)) = ((flatBackend.delete m key).1.map fun _ => none) ↔
        e = (flatBackend.delete m key).1 := by
      cases e <;> cases (flatBackend.delete m key).1 <;> simp [Except.map]
    rw [StoreOp.direct, hmap, hiff]
    constructor
    · rintro hnot key' hkey
      cases hkey
      exact hnot
    · exact fun hall => hall key rfl
  | sync =>
    exact ⟨.ok none, purgecache flatBackend me, rfl, h.purge, iff_of_true rfl nofun⟩

theorem Simulates.run (h : Simulates me m) (ops : List StoreOp) :
    ∃ replies me', runCached flatBackend ops me = some (replies, me') ∧
      (replies = (runDirect flatBackend ops m).1 ↔ DeletesStored ops me) := by
  induction ops generalizing me m with
  | nil => exact ⟨[], me, rfl, iff_of_true rfl trivial⟩
  | cons op ops ih =>
    obtain ⟨r, me₁, hr, hsim, hiff⟩ := h.step op
    obtain ⟨rs, me₂, hrs, hiff'⟩ := ih hsim
    refine ⟨r :: rs, me₂, ?_, ?_⟩
    · rw [runCached, hr]
      show (runCached flatBackend ops me₁).bind _ = _
      rw [hrs]
      rfl
    · rw [runDirect, List.cons.injEq, hiff, hiff', DeletesStored]
      refine and_congr_right fun _ => ⟨fun hsafe r' me' hr' => ?_, fun hall => hall r me₁ hr⟩
      rw [hr] at hr'
      cases hr'
      exact hsafe

end

/-! ## Whole runs -/

/-- The cached table answers as the real store would exactly when no delete of the run comes to a key
that only the cache has. -/
theorem cachedReplies_iff (n : Nat) (db : FlatDb) (ops : List StoreOp) :
    ∃ replies me, runCached flatBackend ops (backendCachingOpen n db) = some (replies, me) ∧
      (replies = (runDirect flatBackend ops db).1 ↔ DeletesStored ops (backendCachingOpen n db)) :=
  (simulates_open n db).run ops

/-- A key is stored and deleted, and the delete does not find it. -/
theorem cachedDelete_not_found :
    (runCached flatBackend [.store [1] [2], .delete [1]] (backendCachingOpen 1 ∅)).map (·.1) =
        some [.ok none, .error .notFound] ∧
      (runDirect flatBackend [.store [1] [2], .delete [1]] ∅).1 = [.ok none, .ok none] := by
  decide

end RdfStore
