import RdfStore.CacheRuns

/-!
# Plain and compressed access to one table

The plain operations of the caching store go through the cache, the compressed ones
go to the real store past it.  A compressed read does not see what is only in the
cache, and a compressed write leaves what the cache says of the key as it was.

    every read is right at every point of the run ↔ every step meets its condition     (tableReads_iff)
-/

namespace RdfStore

open ByteMem Ring SortedIndex

/-- An encoder and a decoder that lose nothing. -/
structure Codec where
  encode : Bytes → Bytes
  decode : Bytes → Bytes
  lossless : ∀ bits, decode (encode bits) = bits

inductive TableOp
  | plain (op : StoreOp)
  | fetchCompressed (key : Bytes)
  | storeCompressed (key bits : Bytes)

/-- What was written last under a key, and by which path. -/
inductive Written
  | plain (val : Bytes)
  | compressed (bits : Bytes)

section

variable (c : Codec)

def Written.bytes : Written → Bytes
  | .plain val => val
  | .compressed bits => c.encode bits

def Written.bits : Written → Bytes
  | .plain val => c.decode val
  | .compressed bits => bits

theorem Written.decode_bytes (v : Written) : c.decode (v.bytes c) = v.bits c := by
  cases v with
  | plain val => rfl
  | compressed bits => exact c.lossless bits

def TableOp.step (me : BackendCaching FlatDb) : TableOp → Option (Reply × BackendCaching FlatDb)
  | .plain op => op.cached flatBackend me
  | .fetchCompressed key =>
    let r := backendCachingFetchCompressed flatBackend c.decode me key
    some (r.1.map some, r.2)
  | .storeCompressed key bits =>
    let r := backendCachingStoreCompressed flatBackend c.encode me key bits
    some (r.1.map fun _ => none, r.2)

/-- The content after an operation, when `w` was the content before. -/
def TableOp.writes (w : Bytes → Option Written) : TableOp → Bytes → Option Written
  | .plain (.store key val) => fun k => if k = key then some (.plain val) else w k
  | .plain (.delete key) => fun k => if k = key then none else w k
  | .storeCompressed key bits => fun k => if k = key then some (.compressed bits) else w k
  | _ => w

def foundOr (v : Option Bytes) : Reply :=
  match v with
  | some v => .ok (some v)
  | none => .error .notFound

/-- The answer `r` of a read is what was written last. -/
def TableOp.Right (w : Bytes → Option Written) (r : Reply) : TableOp → Prop
  | .plain (.fetch key) => r = foundOr ((w key).map (Written.bytes c))
  | .plain (.exist key) => r = if (w key).isSome then .ok none else .error .notFound
  | .fetchCompressed key => r = foundOr ((w key).map (Written.bits c))
  | _ => True

/-- A plain fetch of any key would be right. -/
def FetchesRight (w : Bytes → Option Written) (me : BackendCaching FlatDb) : Prop :=
  ∀ key, ∃ r me', TableOp.step c me (.plain (.fetch key)) = some (r, me') ∧ TableOp.Right c w r (.plain (.fetch key))

/-- Every read of the run is right, and at no point would a plain fetch be wrong. -/
def ReadsRight : List TableOp → (Bytes → Option Written) → BackendCaching FlatDb → Prop
  | [], _, _ => True
  | op :: ops, w, me => ∃ r me', op.step c me = some (r, me') ∧ op.Right c w r ∧
      FetchesRight c (op.writes w) me' ∧ ReadsRight ops (op.writes w) me'

/-- A compressed fetch does not come to a key that is changed in the cache, unless the real store has
a value that decodes to the same; a compressed store does not come to a key that is in the cache,
unless with the very value. -/
def TableOp.Meets (me : BackendCaching FlatDb) : TableOp → Prop
  | .plain _ => True
  | .fetchCompressed key => ∀ i, me.cache.lookup ⟨key, [], .undef⟩ = some i →
      (me.cache.cells i).data.state = .changed →
      (rdfstoreFlatStoreFetch me.inst key).map c.decode = some (c.decode (me.cache.cells i).data.val)
  | .storeCompressed key bits => ∀ i, me.cache.lookup ⟨key, [], .undef⟩ = some i →
      (me.cache.cells i).data.state ≠ .notFound ∧ (me.cache.cells i).data.val = c.encode bits

def RunMeets : List TableOp → BackendCaching FlatDb → Prop
  | [], _ => True
  | op :: ops, me => op.Meets c me ∧ ∀ r me', op.step c me = some (r, me') → RunMeets ops me'

/-- What the table `db` was found to have. -/
def contentOf (db : FlatDb) (key : Bytes) : Option Written := (rdfstoreFlatStoreFetch db key).map .plain

end

section

variable {c : Codec} {me : BackendCaching FlatDb} {m : FlatDb} {w : Bytes → Option Written}

/-- The table `m` has the bytes of the content `w`. -/
def HasContent (c : Codec) (m : FlatDb) (w : Bytes → Option Written) : Prop :=
  ∀ k, rdfstoreFlatStoreFetch m k = (w k).map (Written.bytes c)

theorem hasContent_contentOf (db : FlatDb) : HasContent c db (contentOf db) := by
  intro k
  rw [contentOf]
  cases rdfstoreFlatStoreFetch db k <;> rfl

theorem flatBackend_fetch (key : Bytes) :
    ((flatBackend.fetch m key).1.map some : Reply) = foundOr (rdfstoreFlatStoreFetch m key) := by
  simp only [flatBackend]
  cases rdfstoreFlatStoreFetch m key <;> rfl

/-! ## The plain operations -/

theorem Simulates.fetchesRight (h : Simulates me m) (hw : HasContent c m w) : FetchesRight c w me := by
  intro key
  obtain ⟨me', hr, -⟩ := h.fetch key
  refine ⟨(flatBackend.fetch m key).1.map some, me', ?_, ?_⟩
  · rw [TableOp.step, StoreOp.cached, hr]
    rfl
  · rw [TableOp.Right, flatBackend_fetch, hw key]

theorem Simulates.plain (h : Simulates me m) (hw : HasContent c m w) (op : StoreOp) :
    ∃ r me' m', op.cached flatBackend me = some (r, me') ∧ Simulates me' m' ∧
      HasContent c m' ((TableOp.plain op).writes w) ∧ (TableOp.plain op).Right c w r := by
  obtain ⟨r, me', hr, hsim, hiff⟩ := h.step op
  refine ⟨r, me', (op.direct flatBackend m).2, hr, hsim, ?_, ?_⟩
  · cases op with
    | store key val =>
      intro k
      show rdfstoreFlatStoreFetch (rdfstoreFlatStoreStore m key val) k = _
      rw [fetch_store, hw k]
      simp only [TableOp.writes]
      split
      · rfl
      · rfl
    | delete key =>
      intro k
      obtain ⟨-, hnone, hother⟩ := flatBackend_delete m key
      show rdfstoreFlatStoreFetch (flatBackend.delete m key).2 k = _
      simp only [TableOp.writes]
      split
      · next he => rw [he, hnone]; rfl
      · next hne => rw [hother k hne, hw k]
    | fetch key =>
      rw [StoreOp.direct, flatBackend_fetch_snd]
      exact hw
    | exist key | sync => exact hw
  · cases op with
    | fetch key =>
      have hr : r = (StoreOp.direct flatBackend m (.fetch key)).1 := hiff.2 fun _ hdelete => by cases hdelete
      rw [TableOp.Right, hr, StoreOp.direct, flatBackend_fetch, hw key]
    | exist key =>
      have hr : r = (StoreOp.direct flatBackend m (.exist key)).1 := hiff.2 fun _ hdelete => by cases hdelete
      rw [TableOp.Right, hr, StoreOp.direct]
      simp only [flatBackend, exists_eq_isSome, hw key, Option.isSome_map]
      split
      · rfl
      · rfl
    | store | delete | sync => trivial

/-! ## The compressed operations -/

/-- What the cache says of a key, beside what the real store says. -/
theorem Simulates.entry (h : Simulates me m) (key : Bytes) :
    (me.cache.lookup ⟨key, [], .undef⟩ = none ∧
        rdfstoreFlatStoreFetch m key = rdfstoreFlatStoreFetch me.inst key) ∨
      ∃ i, me.cache.lookup ⟨key, [], .undef⟩ = some i ∧ (me.cache.cells i).data.key = key ∧
        (me.cache.cells i).data.Agrees me.inst m := by
  obtain ⟨l, hok, hco⟩ := h
  cases hlookup : me.cache.lookup ⟨key, [], .undef⟩ with
  | none =>
    refine Or.inl ⟨rfl, hco.rest key fun d hd => ?_⟩
    obtain ⟨a, ha, rfl⟩ := List.mem_map.1 hd
    exact hok.lookup_none.1 hlookup a ha
  | some i =>
    obtain ⟨hi, hkey⟩ := hok.lookup_some.1 hlookup
    exact Or.inr ⟨i, rfl, hkey, hco.entry _ (List.mem_map_of_mem hi)⟩

theorem fetchCompressed_right_iff (h : Simulates me m) (hw : HasContent c m w) (key : Bytes) :
    TableOp.Right c w (((flatBackend.fetch me.inst key).1.map c.decode).map some) (.fetchCompressed key) ↔
      (TableOp.fetchCompressed key).Meets c me := by
  have hleft : (((flatBackend.fetch me.inst key).1.map c.decode).map some : Reply) =
      foundOr ((rdfstoreFlatStoreFetch me.inst key).map c.decode) := by
    simp only [flatBackend]
    cases rdfstoreFlatStoreFetch me.inst key <;> rfl
  have hright : (w key).map (Written.bits c) = (rdfstoreFlatStoreFetch m key).map c.decode := by
    rw [hw key, Option.map_map]
    exact congrArg (Option.map · (w key)) (funext fun v => (v.decode_bytes c).symm)
  have hfound : ∀ a b : Option Bytes, foundOr a = foundOr b ↔ a = b := by
    intro a b
    cases a <;> cases b <;> simp [foundOr]
  rw [TableOp.Right, hleft, hright, hfound, TableOp.Meets]
  rcases h.entry key with ⟨hnone, hsame⟩ | ⟨i, hlookup, hkey, hagrees⟩
  · rw [hnone, hsame]
    simp
  · rw [hlookup]
    simp only [Option.some.injEq, forall_eq']
    unfold CacheData.Agrees at hagrees
    rw [hkey] at hagrees
    split at hagrees
    · next hs => simp [hs, hagrees]
    · next hs => simp [hs, hagrees]
    · next hs => simp [hs, hagrees]
    · exact hagrees.elim
    · exact hagrees.elim

theorem Simulates.storeCompressed (h : Simulates me m) (key bits : Bytes)
    (hmeets : (TableOp.storeCompressed key bits).Meets c me) :
    Simulates { me with inst := rdfstoreFlatStoreStore me.inst key (c.encode bits) }
      (rdfstoreFlatStoreStore m key (c.encode bits)) := by
  obtain ⟨l, hok, hco⟩ := h
  refine ⟨l, hok, hco.distinct, fun d hd => ?_, fun k hk => ?_⟩
  · have hagrees := hco.entry d hd
    by_cases hkey : d.key = key
    · obtain ⟨a, ha, hda⟩ := List.mem_map.1 hd
      have hlookup : me.cache.lookup ⟨key, [], .undef⟩ = some a := hok.lookup_some.2 ⟨ha, by rw [hda, hkey]⟩
      obtain ⟨hstate, hval⟩ := hmeets a hlookup
      rw [hda] at hstate hval
      unfold CacheData.Agrees at hagrees ⊢
      rw [hkey, fetch_store_same, fetch_store_same, hval]
      split at hagrees
      · simp
      · simp
      · next hs => exact absurd hs hstate
      · exact hagrees.elim
      · exact hagrees.elim
    · exact hagrees.congr (fetch_store_of_ne _ _ _ _ hkey) (fetch_store_of_ne _ _ _ _ hkey)
  · rw [fetch_store, fetch_store, hco.rest k hk]

/-- A fetch of a key that is in the cache. -/
theorem backendCachingFetch_hit {key : Bytes} {i : Addr} (h : me.cache.lookup ⟨key, [], .undef⟩ = some i) :
    ∃ me', backendCachingFetch flatBackend me key =
      some (if (me.cache.cells i).data.state = .notFound then .error .notFound else .ok (me.cache.cells i).data.val, me') := by
  refine ⟨⟨me.cache.toFront i, me.inst⟩, ?_⟩
  unfold backendCachingFetch cachekey
  simp only [h, data_toFront]
  rfl

/-- After a compressed store that does not meet its condition a plain fetch is wrong. -/
theorem not_fetchesRight_storeCompressed {key bits : Bytes}
    (hnot : ¬ (TableOp.storeCompressed key bits).Meets c me) :
    ¬ FetchesRight c ((TableOp.storeCompressed key bits).writes w)
      { me with inst := rdfstoreFlatStoreStore me.inst key (c.encode bits) } := by
  intro hright
  rw [TableOp.Meets] at hnot
  push Not at hnot
  obtain ⟨i, hlookup, himp⟩ := hnot
  obtain ⟨r, me', hstep, hr⟩ := hright key
  obtain ⟨me'', hfetch⟩ := @backendCachingFetch_hit
    { me with inst := rdfstoreFlatStoreStore me.inst key (c.encode bits) } key i hlookup
  rw [TableOp.step, StoreOp.cached, hfetch, Option.map_some, Option.some.injEq] at hstep
  have hanswer : (Except.map some (if (me.cache.cells i).data.state = .notFound then .error .notFound
      else .ok (me.cache.cells i).data.val) : Reply) = r := congrArg Prod.fst hstep
  rw [TableOp.Right, TableOp.writes] at hr
  simp only [if_true, Option.map_some, Written.bytes, foundOr] at hr
  rw [hr] at hanswer
  split at hanswer
  · cases hanswer
  · next hs => exact himp hs (Option.some.inj (Except.ok.inj hanswer))

/-! ## Runs -/

/-- One operation: right, with every plain fetch right after it, exactly when it meets its condition. -/
theorem TableOp.step_spec (h : Simulates me m) (hw : HasContent c m w) (op : TableOp) :
    ∃ r me', op.step c me = some (r, me') ∧
      (op.Right c w r ∧ FetchesRight c (op.writes w) me' ↔ op.Meets c me) ∧
      (op.Meets c me → ∃ m', Simulates me' m' ∧ HasContent c m' (op.writes w)) := by
  cases op with
  | plain op =>
    obtain ⟨r, me', m', hr, hsim, hw', hright⟩ := h.plain hw op
    exact ⟨r, me', hr, iff_of_true ⟨hright, hsim.fetchesRight hw'⟩ trivial, fun _ => ⟨m', hsim, hw'⟩⟩
  | fetchCompressed key =>
    have hinst : (flatBackend.fetch me.inst key).2 = me.inst := flatBackend_fetch_snd key
    have hme : ({ me with inst := (flatBackend.fetch me.inst key).2 } : BackendCaching FlatDb) = me := by rw [hinst]
    refine ⟨_, _, rfl, ?_, fun _ => ⟨m, ?_, hw⟩⟩
    · show _ ∧ FetchesRight c w { me with inst := (flatBackend.fetch me.inst key).2 } ↔ _
      rw [hme, and_iff_left (h.fetchesRight hw)]
      exact fetchCompressed_right_iff h hw key
    · show Simulates { me with inst := (flatBackend.fetch me.inst key).2 } m
      rw [hme]
      exact h
  | storeCompressed key bits =>
    have hw' : HasContent c (rdfstoreFlatStoreStore m key (c.encode bits))
        ((TableOp.storeCompressed key bits).writes w) := by
      intro k
      rw [fetch_store, hw k]
      simp only [TableOp.writes]
      split
      · rfl
      · rfl
    refine ⟨_, _, rfl, ⟨fun hright => ?_, fun hmeets => ⟨trivial, ?_⟩⟩, fun hmeets => ?_⟩
    · by_contra hnot
      exact not_fetchesRight_storeCompressed hnot hright.2
    · exact (h.storeCompressed key bits hmeets).fetchesRight hw'
    · exact ⟨_, h.storeCompressed key bits hmeets, hw'⟩

theorem readsRight_iff (h : Simulates me m) (hw : HasContent c m w) (ops : List TableOp) :
    ReadsRight c ops w me ↔ RunMeets c ops me := by
  induction ops generalizing me m w with
  | nil => exact Iff.rfl
  | cons op ops ih =>
    obtain ⟨r, me', hstep, hiff, hnext⟩ := TableOp.step_spec h hw op
    constructor
    · rintro ⟨r', me'', hstep', hright, hfetches, hrest⟩
      rw [hstep] at hstep'
      cases hstep'
      have hmeets := hiff.1 ⟨hright, hfetches⟩
      obtain ⟨m', hsim, hw'⟩ := hnext hmeets
      refine ⟨hmeets, fun r'' me'' hstep'' => ?_⟩
      rw [hstep] at hstep''
      cases hstep''
      exact (ih hsim hw').1 hrest
    · rintro ⟨hmeets, hrest⟩
      obtain ⟨hright, hfetches⟩ := hiff.2 hmeets
      obtain ⟨m', hsim, hw'⟩ := hnext hmeets
      exact ⟨r, me', hstep, hright, hfetches, (ih hsim hw').2 (hrest r me' hstep)⟩

end

/-- From an empty cache, every read of a run is right, and every plain fetch at every point of it would
be, exactly when every compressed operation of the run meets its condition. -/
theorem tableReads_iff (c : Codec) (n : Nat) (db : FlatDb) (ops : List TableOp) :
    ReadsRight c ops (contentOf db) (backendCachingOpen n db) ↔ RunMeets c ops (backendCachingOpen n db) :=
  readsRight_iff (simulates_open n db) (hasContent_contentOf db) ops

/-- The codec that leaves the bytes as they are. -/
def plainCodec : Codec := ⟨id, id, fun _ => rfl⟩

/-- A key is written through the cache and read past it. -/
theorem fetchCompressed_misses_store :
    ∃ me, (TableOp.plain (.store [1] [2])).step plainCodec (backendCachingOpen 1 ∅) = some (.ok none, me) ∧
      ((TableOp.fetchCompressed [1]).step plainCodec me).map (·.1) = some (.error .notFound) := by
  refine ⟨_, rfl, by decide⟩

end RdfStore
