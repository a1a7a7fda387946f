import RdfStore.CacheFaults

/-!
# Reads that fail

When the real store fails to fetch a key, the cache keeps an entry for it all the
same, in the state `UNDEF`.  The next fetch finds that entry, takes it for the value
and answers 0 with no bytes; only `backend_caching_exists` asks for more.

    no read of a failed key is turned into data ↔ no read comes to such an entry       (honestRun_iff)
-/

namespace RdfStore

open ByteMem Ring SortedIndex

/-! ## Failed keys -/

def Failure (r : Reply) : Prop := ∃ e, r = .error e ∧ e ≠ .notFound

/-- The keys whose last read failed and that were not stored since, after an operation answered `r`. -/
def CounterOp.failed (failed : Bytes → Prop) (r : Reply) : CounterOp → Bytes → Prop
  | .cache (.plain (.store key _)) => fun k => failed k ∧ k ≠ key
  | .cache (.storeCompressed key _) => fun k => failed k ∧ (k = key → ∃ e, r = .error e)
  | .cache (.plain (.fetch key)) | .cache (.plain (.exist key)) => fun k => failed k ∨ k = key ∧ Failure r
  | .inc key | .dec key => fun k => (failed k ∧ (k = key → ∃ e, r = .error e)) ∨ k = key ∧ Failure r
  | _ => failed

section

variable {σ : Type} (b : CursorBackend σ) (encode decode : Bytes → Bytes) (view : σ → FlatDb)

/-- A counter that answers 0 stepped the value that the real store holds, and it is stopped by nothing
but a value that is no counter. -/
def HonestCount (step : Nat → Nat) (me : BackendCaching σ) (key : Bytes) : Prop :=
  (∃ r me', backendCachingCount b.toBackend step me key = some (r, me') ∧
      ∀ v', r = .ok v' → ∃ v, rdfstoreFlatStoreFetch (view me.inst) key = some v ∧
        v' = packInt (step (unpackInt v)) ++ v.drop 4) ∨
    backendCachingCount b.toBackend step me key = none ∧
      ∃ v, rdfstoreFlatStoreFetch (view me.inst) key = some v ∧ v.length < 4

/-- A read of a failed key reports success with what the real store holds, or none. -/
def CounterOp.Honest (failed : Bytes → Prop) (me : BackendCaching σ) : CounterOp → Prop
  | .cache (.plain (.fetch key)) => failed key → ∃ r me', backendCachingFetch b.toBackend me key = some (r, me') ∧
      ∀ v, r = .ok v → rdfstoreFlatStoreFetch (view me'.inst) key = some v
  | .cache (.plain (.exist key)) => failed key → ∃ r me', backendCachingExists b.toBackend me key = some (r, me') ∧
      (r = .ok () → (rdfstoreFlatStoreFetch (view me'.inst) key).isSome)
  | .inc key => failed key → HonestCount b view (· + 1) me key
  | .dec key => failed key → HonestCount b view (· + (2 ^ 32 - 1)) me key
  | _ => True

def HonestRun : List CounterOp → (Bytes → Prop) → BackendCaching σ → Prop
  | [], _, _ => True
  | op :: ops, failed, me => op.Honest b view failed me ∧
      ∀ r me', op.step b encode decode me = some (r, me') → HonestRun ops (op.failed failed r) me'

/-- The key has the entry that a failed read left. -/
def LeftUndef (me : BackendCaching σ) (key : Bytes) : Prop :=
  ∃ i, me.cache.lookup ⟨key, [], .undef⟩ = some i ∧
    (me.cache.cells i).data.state = CState.undef

/-- A fetch comes to an entry that a failed read left only if the store holds no bytes there, and a
counter only if the store holds no counter there. -/
def CounterOp.Loaded (failed : Bytes → Prop) (me : BackendCaching σ) : CounterOp → Prop
  | .cache (.plain (.fetch key)) => failed key → LeftUndef me key →
      rdfstoreFlatStoreFetch (view me.inst) key = some []
  | .inc key | .dec key => failed key → LeftUndef me key →
      ∃ v, rdfstoreFlatStoreFetch (view me.inst) key = some v ∧ v.length < 4
  | _ => True

def LoadedRun : List CounterOp → (Bytes → Prop) → BackendCaching σ → Prop
  | [], _, _ => True
  | op :: ops, failed, me => op.Loaded view failed me ∧
      ∀ r me', op.step b encode decode me = some (r, me') → LoadedRun ops (op.failed failed r) me'

end

/-! ## The entries of failed keys -/

/-- An entry of a failed key: what the store holds, or a key not found, or what the failure left. -/
def CacheData.FromStore (d : CacheData) (db : FlatDb) : Prop :=
  match d.state with
  | .exist => rdfstoreFlatStoreFetch db d.key = some d.val
  | .notFound => True
  | .undef => d.val = []
  | .changed | .deleted => False

def FromStore (failed : Bytes → Prop) (entries : List CacheData) (db : FlatDb) : Prop :=
  ∀ d ∈ entries, failed d.key → d.FromStore db

theorem CacheData.FromStore.congr {d : CacheData} {db db' : FlatDb} (h : d.FromStore db)
    (hdb : rdfstoreFlatStoreFetch db' d.key = rdfstoreFlatStoreFetch db d.key) : d.FromStore db' := by
  unfold CacheData.FromStore at h ⊢
  rw [hdb]
  exact h

theorem FromStore.mono {failed failed' : Bytes → Prop} {entries : List CacheData} {db : FlatDb}
    (h : FromStore failed entries db) (himp : ∀ k, failed' k → failed k) : FromStore failed' entries db :=
  fun d hd hf => h d hd (himp _ hf)

section

variable {σ : Type} {b : CursorBackend σ} {view : σ → FlatDb} {failed : Bytes → Prop} {n : Nat}
  {entries entries' : List CacheData} {inst inst' : σ} {d data : CacheData} {e : Except FlatStoreError Unit}

/-- What is written back is none of the failed keys. -/
theorem FromStore.writeBack (hb : b.IsTable view) (h : FromStore failed entries (view inst)) {k : Bytes}
    (hk : failed k) : rdfstoreFlatStoreFetch (view (writeBackAll b.toBackend (evicted n entries) inst)) k =
      rdfstoreFlatStoreFetch (view inst) k := by
  refine writeBackAll_off hb fun x hx hchanged he => ?_
  have hmem : x ∈ entries := by
    rw [← kept_append_evicted n entries]
    exact List.mem_append_right _ hx
  have hfrom := h x hmem (he ▸ hk)
  unfold CacheData.FromStore at hfrom
  rw [hchanged] at hfrom
  exact hfrom

/-- What `_fetch` puts into a new cell. -/
theorem cacheFetch_fromStore (hb : b.IsTable view) (hval : data.val = []) (hundef : data.state = .undef)
    (hr : cacheFetch b.toBackend inst data = (e, d, inst')) :
    d.key = data.key ∧ d.FromStore (view inst') ∧ view inst' = view inst ∧
      (e = .ok () → d.state = .exist ∨ d.state = .notFound) := by
  have hview := hb.fetch_view inst data.key
  unfold cacheFetch at hr
  unfold CacheData.FromStore
  split at hr
  · next val s hs =>
    rw [hs] at hview
    cases hr
    refine ⟨rfl, ?_, hview, fun _ => Or.inl rfl⟩
    show rdfstoreFlatStoreFetch (view inst') data.key = some val
    rw [hview]
    exact hb.fetch_ok inst data.key val (by rw [hs])
  · next s hs =>
    rw [hs] at hview
    cases hr
    exact ⟨rfl, trivial, hview, fun _ => Or.inr rfl⟩
  · next err s hne hs =>
    rw [hs] at hview
    cases hr
    refine ⟨rfl, ?_, hview, nofun⟩
    rw [hundef]
    exact hval

/-- The entries below the head, which are of other keys. -/
theorem FromStore.rest (h : FromStore failed entries (view inst)) {rest : List CacheData}
    (hrest : ∀ x ∈ rest, x ∈ entries ∧ x.key ≠ data.key) {s : σ}
    (hs : ∀ k, failed k → rdfstoreFlatStoreFetch (view s) k = rdfstoreFlatStoreFetch (view inst) k)
    (hoff : SameOff data.key (view s) (view inst')) {failed' : Bytes → Prop}
    (himp : ∀ k, k ≠ data.key → failed' k → failed k) : FromStore failed' rest (view inst') := by
  intro x hx hf
  obtain ⟨hmem, hne⟩ := hrest x hx
  have hold : failed x.key := himp _ hne hf
  refine (h x hmem hold).congr ?_
  rw [hoff x.key hne, hs x.key hold]

/-- The entry that a read leaves at the head. -/
theorem FromStore.read (hb : b.IsTable view) (h : FromStore failed entries (view inst)) {key : Bytes} {op : BcOp}
    (hop : op = .read ∨ op = .exist) (hr : lruKey b.toBackend n entries inst ⟨key, [], .undef⟩ op =
      (e, d, entries', inst')) :
    d.key = key ∧ (failed key ∨ e ≠ .ok () → d.FromStore (view inst')) ∧
      (failed key → rdfstoreFlatStoreFetch (view inst') key = rdfstoreFlatStoreFetch (view inst) key) ∧
      ((e = .ok () ∧ d ∈ entries) ∨
        (∀ x ∈ entries, x.key ≠ key) ∧ (e = .ok () → d.state = .exist ∨ d.state = .notFound)) := by
  rcases lruKey_cases hr with ⟨hmiss, hnew, -⟩ | ⟨found, hmem, hkey, -, hfound, -⟩
  · have hfetch : cacheFetch b.toBackend (writeBackAll b.toBackend (evicted n entries) inst) ⟨key, [], .undef⟩ =
        (e, d, inst') := by
      rcases hop with rfl | rfl <;> exact hnew
    obtain ⟨hkey, hfrom, hview, hstate⟩ := cacheFetch_fromStore hb rfl rfl hfetch
    refine ⟨hkey, fun _ => hfrom, fun hk => ?_, Or.inr ⟨hmiss, hstate⟩⟩
    rw [hview, h.writeBack hb hk]
  · have hsame : e = .ok () ∧ d = found ∧ inst' = inst := by
      rcases hop with rfl | rfl <;> (cases hfound; exact ⟨rfl, rfl, rfl⟩)
    obtain ⟨rfl, rfl, rfl⟩ := hsame
    have hkey : d.key = key := hkey
    refine ⟨hkey, fun hk => ?_, fun _ => rfl, Or.inl ⟨rfl, hmem⟩⟩
    rcases hk with hk | hk
    · exact h d hmem (hkey ▸ hk)
    · exact absurd rfl hk

end

/-! ## One operation -/

/-- An answer of a read that failed. -/
theorem StoreOp.failure_answer {op : StoreOp} {e : Except FlatStoreError Unit} {d : CacheData}
    (h : Failure (op.answer e d)) : e ≠ .ok () := by
  rintro rfl
  obtain ⟨err, herr, hne⟩ := h
  cases op with
  | fetch key =>
    simp only [StoreOp.answer] at herr
    split at herr
    · cases herr; exact hne rfl
    · cases herr
  | exist key =>
    simp only [StoreOp.answer] at herr
    split at herr
    · cases herr
    · cases herr; exact hne rfl
  | store | delete | sync => cases herr

section

variable {σ : Type} {b : CursorBackend σ} {view : σ → FlatDb} {encode decode : Bytes → Bytes}
  {failed : Bytes → Prop} {n : Nat} {entries entries' : List CacheData} {inst inst' : σ}

/-- An operation on a key keeps `FromStore`, if the head it leaves does. -/
theorem FromStore.key (hb : b.IsTable view) (h : FromStore failed entries (view inst)) {data d : CacheData}
    {bop : BcOp} {e : Except FlatStoreError Unit}
    (hr : lruKey b.toBackend n entries inst data bop = (e, d, entries', inst')) {failed' : Bytes → Prop}
    (hhead : failed' d.key → d.FromStore (view inst'))
    (himp : ∀ k, k ≠ data.key → failed' k → failed k) : FromStore failed' entries' (view inst') := by
  have hcons : ∀ rest, FromStore failed' rest (view inst') → FromStore failed' (d :: rest) (view inst') := by
    intro rest hrest x hx
    rcases List.mem_cons.1 hx with rfl | hx
    · exact hhead
    · exact hrest x hx
  rcases lruKey_cases hr with ⟨hmiss, hnew, rfl⟩ | ⟨found, -, -, -, hfound, rfl⟩
  · refine hcons _ (h.rest (fun x hx => ?_) (fun k hk => h.writeBack hb hk) (newData_off hb hnew) himp)
    have hmem : x ∈ entries := by
      rw [← kept_append_evicted n entries]
      exact List.mem_append_left _ hx
    exact ⟨hmem, hmiss x hmem⟩
  · refine hcons _ (h.rest (fun x hx => ?_) (fun k _ => rfl) (foundData_off hb hfound) himp)
    obtain ⟨hmem, hne⟩ := List.mem_filter.1 hx
    exact ⟨hmem, by simpa using hne⟩

theorem FromStore.does (hb : b.IsTable view) (h : FromStore failed entries (view inst)) {op : CacheOp} {r : Reply}
    (hdoes : op.Does b encode decode n entries inst r entries' inst') :
    FromStore ((CounterOp.cache op).failed failed r) entries' (view inst') := by
  cases hdoes with
  | key op data bop haccess e d entries' inst' hr =>
    cases op with
    | store key val =>
      cases haccess
      have hkey : d.key = key := by
        rcases lruKey_cases hr with ⟨-, hnew, -⟩ | ⟨found, -, -, -, hfound, -⟩
        · cases hnew; rfl
        · cases hfound; rfl
      exact h.key hb hr (fun hf => absurd hkey hf.2) fun k _ hf => hf.1
    | fetch key =>
      cases haccess
      obtain ⟨hkey, hfrom, -⟩ := h.read hb (Or.inl rfl) hr
      refine h.key hb hr (fun hf => hfrom (hf.imp (fun hf => hkey ▸ hf) fun hf => ?_)) fun k hk hf => ?_
      · exact StoreOp.failure_answer hf.2
      · exact hf.resolve_right fun hk' => hk hk'.1
    | exist key =>
      cases haccess
      obtain ⟨hkey, hfrom, -⟩ := h.read hb (Or.inr rfl) hr
      refine h.key hb hr (fun hf => hfrom (hf.imp (fun hf => hkey ▸ hf) fun hf => ?_)) fun k hk hf => ?_
      · exact StoreOp.failure_answer hf.2
      · exact hf.resolve_right fun hk' => hk hk'.1
    | delete key =>
      cases haccess
      refine h.key hb hr (fun _ => ?_) fun k _ hf => hf
      have hdel : ∃ s e s', cacheDelete b.toBackend s ⟨key, [], .undef⟩ = (e, d, s') := by
        rcases lruKey_cases hr with ⟨-, hnew, -⟩ | ⟨found, -, -, -, hfound, -⟩
        · exact ⟨_, _, _, hnew⟩
        · exact ⟨_, _, _, hfound⟩
      obtain ⟨s, e', s', hdel⟩ := hdel
      rw [(cacheDelete_spec hb hdel).1]
      trivial
    | sync => cases haccess
  | fetchCompressed key =>
    show FromStore failed entries _
    rw [hb.fetch_view]
    exact h
  | storeCompressed key bits =>
    intro x hx hf
    refine (h x hx hf.1).congr ?_
    by_cases hkey : x.key = key
    · obtain ⟨e, he⟩ := hf.2 hkey
      cases hr : (b.store inst key (encode bits)).1 with
      | ok u => rw [hr] at he; cases he
      | error e' => rw [hb.store_error inst key _ e' hr]
    · exact hb.store_off inst key (encode bits) x.key hkey
  | purge _ r inst' hr => exact nofun

end

/-! ## Failed keys read again -/

/-- The cache is one, and holds nothing of a failed key but what the real store holds. -/
def Sound {σ : Type} (view : σ → FlatDb) (failed : Bytes → Prop) (me : BackendCaching σ) : Prop :=
  ∃ l, me.cache.Ok l ∧ FromStore failed (me.cache.entries l) (view me.inst)

section

variable {σ : Type} {b : CursorBackend σ} {view : σ → FlatDb} {encode decode : Bytes → Bytes}
  {failed : Bytes → Prop} {me me' : BackendCaching σ} {l : List Addr}

theorem Sound.cache (hb : b.IsTable view) (h : Sound view failed me) (op : CacheOp) :
    ∃ r me', op.step b encode decode me = some (r, me') ∧ Sound view ((CounterOp.cache op).failed failed r) me' := by
  obtain ⟨l, hok, hfrom⟩ := h
  obtain ⟨r, me', l', hstep, hok', -, hdoes⟩ := op.spec b encode decode hok
  exact ⟨r, me', hstep, l', hok', hfrom.does hb hdoes⟩

theorem Sound.store (hb : b.IsTable view) (h : Sound view failed me) (key val : Bytes) :
    ∃ me', backendCachingStore b.toBackend me key val = some (.ok (), me') ∧
      Sound view (fun k => failed k ∧ k ≠ key) me' := by
  obtain ⟨l, hok, hfrom⟩ := h
  rcases hr : lruKey b.toBackend me.cache.maxcache (me.cache.entries l) me.inst ⟨key, val, .changed⟩ .write with
    ⟨e, d, entries', inst'⟩
  obtain ⟨-, c, l', hstore, hok', hentries, -⟩ := backendCachingStore_lru hok key val hr
  have hdoes : (CacheOp.plain (.store key val)).Does b id id me.cache.maxcache (me.cache.entries l) me.inst
      (StoreOp.answer (.store key val) e d) entries' inst' := .key _ _ _ rfl e d entries' inst' hr
  exact ⟨⟨c, inst'⟩, hstore, l', hok', hentries ▸ hfrom.does hb hdoes⟩

/-- What a fetch leaves, in the words of `CounterOp.failed`. -/
theorem Sound.fetch (hb : b.IsTable view) (h : Sound view failed me) {key : Bytes} {r : Except FlatStoreError Bytes}
    (hr : backendCachingFetch b.toBackend me key = some (r, me')) :
    Sound view (fun k => failed k ∨ k = key ∧ Failure (r.map some)) me' := by
  obtain ⟨r', me₁, hstep, hsound⟩ := @Sound.cache _ b view id id _ me hb h (.plain (.fetch key))
  have hstep : (backendCachingFetch b.toBackend me key).map (fun r => (r.1.map some, r.2)) = some (r', me₁) := hstep
  rw [hr] at hstep
  cases hstep
  exact hsound

/-- The same for the counters, which fetch and store. -/
theorem Sound.count (hb : b.IsTable view) (h : Sound view failed me) {step : Nat → Nat} {key : Bytes}
    {r : Except FlatStoreError Bytes} (hr : backendCachingCount b.toBackend step me key = some (r, me')) :
    Sound view ((CounterOp.inc key).failed failed (r.map some)) me' := by
  cases hfetch : backendCachingFetch b.toBackend me key with
  | none => rw [backendCachingCount, hfetch] at hr; cases hr
  | some p =>
    obtain ⟨r₁, me₁⟩ := p
    have hsound := h.fetch hb hfetch
    cases r₁ with
    | error e =>
      rw [backendCachingCount_error hfetch] at hr
      cases hr
      obtain ⟨l, hok, hfrom⟩ := hsound
      exact ⟨l, hok, hfrom.mono fun k hk => hk.imp And.left id⟩
    | ok val =>
      rw [backendCachingCount_ok hfetch] at hr
      split at hr
      · cases hr
      · obtain ⟨me₂, hstore, hsound₂⟩ := hsound.store hb key (packInt (step (unpackInt val)) ++ val.drop 4)
        rw [hstore] at hr
        cases hr
        obtain ⟨l, hok, hfrom⟩ := hsound₂
        refine ⟨l, hok, hfrom.mono fun k hk => ?_⟩
        rcases hk with ⟨hk, hne⟩ | ⟨-, e, he, -⟩
        · refine ⟨Or.inl hk, fun hkey => ?_⟩
          obtain ⟨e, he⟩ := hne hkey
          cases he
        · cases he

theorem Sound.step (hb : b.IsTable view) (h : Sound view failed me) {op : CounterOp} {r : Reply}
    (hr : op.step b encode decode me = some (r, me')) : Sound view (op.failed failed r) me' := by
  cases op with
  | cache op =>
    obtain ⟨r', me₁, hstep, hsound⟩ := @Sound.cache _ b view encode decode _ me hb h op
    have hr : op.step b encode decode me = some (r, me') := hr
    rw [hstep] at hr
    cases hr
    exact hsound
  | inc key | dec key =>
    simp only [CounterOp.step, backendCachingInc, backendCachingDec, Option.map_eq_some_iff] at hr
    obtain ⟨⟨r₁, me₁⟩, hcount, heq⟩ := hr
    cases heq
    exact h.count hb hcount

theorem leftUndef_iff (h : me.cache.Ok l) (key : Bytes) : LeftUndef me key ↔
    ∃ d ∈ me.cache.entries l, d.key = key ∧ d.state = .undef := by
  unfold LeftUndef CachingStore.entries
  constructor
  · rintro ⟨i, hlookup, hundef⟩
    obtain ⟨hi, hkey⟩ := h.lookup_some.1 hlookup
    exact ⟨_, List.mem_map_of_mem hi, hkey, hundef⟩
  · rintro ⟨d, hd, hkey, hundef⟩
    obtain ⟨i, hi, rfl⟩ := List.mem_map.1 hd
    exact ⟨i, h.lookup_some.2 ⟨hi, hkey⟩, hundef⟩

/-- A fetch of a failed key answers what the store holds, or no bytes if the key was left undefined. -/
theorem FromStore.fetch (hb : b.IsTable view) (hok : me.cache.Ok l)
    (h : FromStore failed (me.cache.entries l) (view me.inst)) {key : Bytes} (hk : failed key) :
    ∃ r me', backendCachingFetch b.toBackend me key = some (r, me') ∧
      rdfstoreFlatStoreFetch (view me'.inst) key = rdfstoreFlatStoreFetch (view me.inst) key ∧
      ((LeftUndef me key ∧ r = .ok []) ∨
        ¬ LeftUndef me key ∧ ∀ v, r = .ok v → rdfstoreFlatStoreFetch (view me.inst) key = some v) := by
  rcases hr : lruKey b.toBackend me.cache.maxcache (me.cache.entries l) me.inst ⟨key, [], .undef⟩ .read with
    ⟨e, d, entries', inst'⟩
  obtain ⟨hkey, hfrom, hview, hwhere⟩ := h.read hb (Or.inl rfl) hr
  obtain ⟨c, l', hfetch, -⟩ := backendCachingFetch_lru hok key hr
  replace hfrom := hfrom (Or.inl hk)
  refine ⟨_, _, hfetch, hview hk, ?_⟩
  rw [leftUndef_iff hok]
  have hvalue : e = .ok () → d.state ≠ .notFound → d.state ≠ .undef →
      rdfstoreFlatStoreFetch (view me.inst) key = some d.val := by
    intro he hne hundef
    rw [← hview hk]
    unfold CacheData.FromStore at hfrom
    split at hfrom
    · exact hkey ▸ hfrom
    · next hs => exact absurd hs hne
    · next hs => exact absurd hs hundef
    · exact hfrom.elim
    · exact hfrom.elim
  have hanswer : ∀ v, (e.bind fun _ => if d.state = .notFound then Except.error FlatStoreError.notFound
      else .ok d.val) = .ok v → e = .ok () ∧ d.state ≠ .notFound ∧ d.val = v := by
    intro v hv
    cases e with
    | error e => cases hv
    | ok u =>
      have hv : (if d.state = .notFound then Except.error FlatStoreError.notFound else .ok d.val) = .ok v := hv
      split at hv
      · cases hv
      · next hs => cases hv; exact ⟨rfl, hs, rfl⟩
  rcases hwhere with ⟨rfl, hmem⟩ | ⟨hmiss, hstate⟩
  · by_cases hundef : d.state = .undef
    · left
      refine ⟨⟨d, hmem, hkey, hundef⟩, ?_⟩
      unfold CacheData.FromStore at hfrom
      rw [hundef] at hfrom
      show (if d.state = .notFound then Except.error FlatStoreError.notFound else .ok d.val) = .ok []
      rw [if_neg (by rw [hundef]; nofun), hfrom]
    · right
      refine ⟨?_, fun v hv => ?_⟩
      · rintro ⟨x, hx, hxkey, hxundef⟩
        obtain ⟨i, hi, rfl⟩ := List.mem_map.1 hx
        obtain ⟨j, hj, rfl⟩ := List.mem_map.1 hmem
        have hlookup : ∀ a ∈ l, (me.cache.cells a).data.key = key → me.cache.lookup ⟨key, [], .undef⟩ = some a :=
          fun a ha hakey => hok.lookup_some.2 ⟨ha, hakey⟩
        have hij : i = j := Option.some.inj ((hlookup i hi hxkey).symm.trans (hlookup j hj hkey))
        exact hundef (hij ▸ hxundef)
      · obtain ⟨he, hne, rfl⟩ := hanswer v hv
        exact hvalue he hne hundef
  · right
    refine ⟨fun ⟨x, hx, hxkey, _⟩ => hmiss x hx hxkey, fun v hv => ?_⟩
    obtain ⟨he, hne, rfl⟩ := hanswer v hv
    refine hvalue he hne ?_
    rcases hstate he with hs | hs
    · rw [hs]; nofun
    · rw [hs]; nofun

/-- `backend_caching_exists` asks for the states that have a value. -/
theorem FromStore.exist (hb : b.IsTable view) (hok : me.cache.Ok l)
    (h : FromStore failed (me.cache.entries l) (view me.inst)) (key : Bytes) :
    (CounterOp.cache (.plain (.exist key))).Honest b view failed me := by
  intro hk
  rcases hr : lruKey b.toBackend me.cache.maxcache (me.cache.entries l) me.inst ⟨key, [], .undef⟩ .exist with
    ⟨e, d, entries', inst'⟩
  obtain ⟨hkey, hfrom, -⟩ := h.read hb (Or.inr rfl) hr
  obtain ⟨c, l', hexist, -⟩ := backendCachingExists_lru hok key hr
  replace hfrom := hfrom (Or.inl hk)
  refine ⟨_, _, hexist, fun hanswer => ?_⟩
  have hstate : d.state = .exist ∨ d.state = .changed := by
    cases e with
    | error e => cases hanswer
    | ok u =>
      have hanswer : (if d.state = .exist ∨ d.state = .changed then Except.ok ()
          else .error FlatStoreError.notFound) = .ok () := hanswer
      split at hanswer
      · next hs => exact hs
      · cases hanswer
  unfold CacheData.FromStore at hfrom
  rcases hstate with hs | hs
  · rw [hs] at hfrom
    show (rdfstoreFlatStoreFetch (view inst') key).isSome
    rw [← hkey, hfrom]
    rfl
  · rw [hs] at hfrom
    exact hfrom.elim

theorem FromStore.count_iff (hb : b.IsTable view) (hok : me.cache.Ok l)
    (h : FromStore failed (me.cache.entries l) (view me.inst)) (step : Nat → Nat) {key : Bytes} (hk : failed key) :
    HonestCount b view step me key ↔
      (LeftUndef me key → ∃ v, rdfstoreFlatStoreFetch (view me.inst) key = some v ∧ v.length < 4) := by
  obtain ⟨r, me₁, hfetch, -, hr⟩ := h.fetch hb hok hk
  unfold HonestCount
  rcases hr with ⟨hleft, rfl⟩ | ⟨hleft, hvalue⟩
  · constructor
    · rintro (⟨r, me', hcount, -⟩ | ⟨-, hshort⟩)
      · rw [backendCachingCount_ok hfetch] at hcount
        cases hcount
      · exact fun _ => hshort
    · exact fun hshort => Or.inr ⟨backendCachingCount_ok hfetch, hshort hleft⟩
  · refine ⟨fun _ hl => absurd hl hleft, fun _ => ?_⟩
    cases r with
    | error e => exact Or.inl ⟨_, _, backendCachingCount_error hfetch, fun _ hv => by cases hv⟩
    | ok v =>
      rw [backendCachingCount_ok hfetch]
      have hheld := hvalue v rfl
      by_cases hshort : v.length < 4
      · exact Or.inr ⟨if_pos hshort, v, hheld, hshort⟩
      · left
        obtain ⟨me₂, hstore, -⟩ := (Sound.fetch hb ⟨l, hok, h⟩ hfetch).store hb key
          (packInt (step (unpackInt v)) ++ v.drop 4)
        refine ⟨.ok (packInt (step (unpackInt v)) ++ v.drop 4), me₂, ?_, fun v' hv' => ⟨v, hheld, ?_⟩⟩
        · rw [if_neg hshort, hstore]
          rfl
        · exact (Except.ok.inj hv').symm

theorem Sound.honest_iff (hb : b.IsTable view) (h : Sound view failed me) (op : CounterOp) :
    op.Honest b view failed me ↔ op.Loaded view failed me := by
  obtain ⟨l, hok, hfrom⟩ := h
  cases op with
  | cache op =>
    cases op with
    | plain op =>
      cases op with
      | fetch key =>
        constructor
        · intro hhonest hk hleft
          obtain ⟨r, me', hfetch, hvalue⟩ := hhonest hk
          obtain ⟨r', me₁, hfetch', hview, hr⟩ := hfrom.fetch hb hok hk
          rw [hfetch] at hfetch'
          cases hfetch'
          rcases hr with ⟨-, hr⟩ | ⟨hnot, -⟩
          · rw [← hview]
            exact hvalue [] hr
          · exact absurd hleft hnot
        · intro hloaded hk
          obtain ⟨r, me', hfetch, hview, hr⟩ := hfrom.fetch hb hok hk
          refine ⟨r, me', hfetch, fun v hv => ?_⟩
          rw [hview]
          rcases hr with ⟨hleft, hr⟩ | ⟨-, hvalue⟩
          · rw [hr] at hv
            cases hv
            exact hloaded hk hleft
          · exact hvalue v hv
      | exist key => exact iff_of_true (hfrom.exist hb hok key) trivial
      | store | delete | sync => exact Iff.rfl
    | fetchCompressed | storeCompressed | first | next | fromKey | close => exact Iff.rfl
  | inc key | dec key => exact forall_congr' fun hk => hfrom.count_iff hb hok _ hk

theorem Sound.run_iff (hb : b.IsTable view) (h : Sound view failed me) (ops : List CounterOp) :
    HonestRun b encode decode view ops failed me ↔ LoadedRun b encode decode view ops failed me := by
  induction ops generalizing failed me with
  | nil => exact Iff.rfl
  | cons op ops ih =>
    unfold HonestRun LoadedRun
    rw [h.honest_iff hb op]
    refine and_congr_right fun _ => forall_congr' fun r => forall_congr' fun me' => forall_congr' fun hstep => ?_
    exact ih (h.step hb hstep)

end

/-- In the runs from an empty cache over a real store that may fail, a read of a key whose last read
failed answers success with what the store does not hold exactly when it comes to the entry that the
failed read left. -/
theorem honestRun_iff {σ : Type} {b : CursorBackend σ} {view : σ → FlatDb} (hb : b.IsTable view)
    (encode decode : Bytes → Bytes) (n : Nat) (inst : σ) (ops : List CounterOp) :
    HonestRun b encode decode view ops (fun _ => False) (backendCachingOpen n inst) ↔
      LoadedRun b encode decode view ops (fun _ => False) (backendCachingOpen n inst) :=
  Sound.run_iff hb ⟨[], initCachingstore_ok n, nofun⟩ ops

/-- A read that failed is asked for again by `backend_caching_exists`. -/
theorem honestRun_exist : HonestRun failingReads id id Prod.fst
    [.cache (.plain (.fetch [1])), .cache (.plain (.exist [1]))] (fun _ => False)
    (backendCachingOpen 1 (rdfstoreFlatStoreStore ∅ [1] [7], [true])) :=
  (honestRun_iff failingReads_isTable id id 1 _ _).2 ⟨False.elim, fun _ _ _ => ⟨trivial, fun _ _ _ => trivial⟩⟩

/-- The read that failed left an entry with no bytes, which the next read answers. -/
theorem failedRead_answers_empty : ∃ me me',
    backendCachingFetch failingReads.toBackend
      (backendCachingOpen 1 (rdfstoreFlatStoreStore ∅ [1] [7], [true])) [1] = some (.error (.other 5), me) ∧
    backendCachingFetch failingReads.toBackend me [1] = some (.ok [], me') ∧
    rdfstoreFlatStoreFetch me'.inst.1 [1] = some [7] ∧
    ¬ HonestRun failingReads id id Prod.fst [.cache (.plain (.fetch [1])), .cache (.plain (.fetch [1]))]
      (fun _ => False) (backendCachingOpen 1 (rdfstoreFlatStoreStore ∅ [1] [7], [true])) := by
  refine ⟨_, _, rfl, rfl, rfl, fun h => ?_⟩
  obtain ⟨r, me', hfetch, hvalue⟩ := (h.2 _ _ rfl).1 (Or.inr ⟨rfl, .other 5, rfl, nofun⟩)
  have hempty : some (r, me') = some (.ok [], _) := hfetch.symm.trans rfl
  cases hempty
  exact absurd (hvalue [] rfl) (by decide)

end RdfStore
