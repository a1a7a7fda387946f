import RdfStore.CacheCoherence

/-!
# Runs on the cached table

Every operation of the caching store on any real store, and what each of them does
to the list of entries: the operations on a key are a `cachekey`, the walks over
the keys purge the cache first, and the compressed operations go past it.

| theorem         | says                                                       |
|-----------------|------------------------------------------------------------|
| `CacheOp.spec`  | what one operation does to the list                        |
-/

namespace RdfStore

open ByteMem Ring SortedIndex

/-! ## The operations -/

inductive CacheOp
  | plain (op : StoreOp)
  | fetchCompressed (key : Bytes)
  | storeCompressed (key bits : Bytes)
  | first
  | next (previousKey : Bytes)
  | fromKey (closestKey : Bytes)
  | close

/-- The key an operation brings to `cachekey`, with the data it brings and what for. -/
def StoreOp.access : StoreOp → Option (CacheData × BcOp)
  | .store key val => some (⟨key, val, .changed⟩, .write)
  | .fetch key => some (⟨key, [], .undef⟩, .read)
  | .exist key => some (⟨key, [], .undef⟩, .exist)
  | .delete key => some (⟨key, [], .undef⟩, .delete)
  | .sync => none

/-- What an operation answers when `cachekey` answered so. -/
def StoreOp.answer (op : StoreOp) (e : Except FlatStoreError Unit) (d : CacheData) : Reply :=
  match op, e with
  | .fetch _, .ok () => if d.state = .notFound then .error .notFound else .ok (some d.val)
  | .exist _, .ok () => if d.state = .exist ∨ d.state = .changed then .ok none else .error .notFound
  | _, .ok () => .ok none
  | _, .error e => .error e

def CacheOp.access : CacheOp → Option (CacheData × BcOp)
  | .plain op => op.access
  | _ => none

section

variable {σ : Type} (b : CursorBackend σ) (encode decode : Bytes → Bytes)

def CacheOp.step (me : BackendCaching σ) : CacheOp → Option (Reply × BackendCaching σ)
  | .plain op => op.cached b.toBackend me
  | .fetchCompressed key =>
    let r := backendCachingFetchCompressed b.toBackend decode me key
    some (r.1.map some, r.2)
  | .storeCompressed key bits =>
    let r := backendCachingStoreCompressed b.toBackend encode me key bits
    some (r.1.map fun _ => none, r.2)
  | .first => some ((backendCachingFirst b me).1.map some, (backendCachingFirst b me).2)
  | .next previousKey =>
    some ((backendCachingNext b me previousKey).1.map some, (backendCachingNext b me previousKey).2)
  | .fromKey closestKey =>
    some ((backendCachingFrom b me closestKey).1.map some, (backendCachingFrom b me closestKey).2)
  | .close => some ((backendCachingClose b me).1.map fun _ => none, (backendCachingClose b me).2)

def runCache : List CacheOp → BackendCaching σ → Option (List Reply × BackendCaching σ)
  | [], me => some ([], me)
  | op :: ops, me => do
    let (r, me) ← op.step b encode decode me
    let (rs, me) ← runCache ops me
    some (r :: rs, me)

end

/-! ## What they do to the list -/

section

variable {σ : Type} {me : BackendCaching σ} {l : List Addr}

/-- The operations on a key are a `cachekey`. -/
theorem StoreOp.cached_eq {op : StoreOp} {data : CacheData} {bop : BcOp} (h : op.access = some (data, bop))
    (b : Backend σ) (me : BackendCaching σ) :
    op.cached b me = (cachekey b me data bop).map fun r => (op.answer r.1 r.2.1, r.2.2) := by
  cases op with
  | sync => cases h
  | store key val =>
    cases h
    simp only [StoreOp.cached, backendCachingStore]
    rcases cachekey b me _ _ with _ | ⟨e | u, d, me'⟩ <;> rfl
  | fetch key =>
    cases h
    simp only [StoreOp.cached, backendCachingFetch]
    rcases cachekey b me _ _ with _ | ⟨e | u, d, me'⟩
    · rfl
    · rfl
    · show some (Except.map some (if d.state = .notFound then _ else _), me') = some (StoreOp.answer _ _ d, me')
      unfold StoreOp.answer
      split
      · rfl
      · rfl
  | exist key =>
    cases h
    simp only [StoreOp.cached, backendCachingExists]
    rcases cachekey b me _ _ with _ | ⟨e | u, d, me'⟩
    · rfl
    · rfl
    · show some (Except.map (fun _ => none) (if d.state = .exist ∨ d.state = .changed then _ else _), me') =
        some (StoreOp.answer _ _ d, me')
      unfold StoreOp.answer
      split
      · rfl
      · rfl
  | delete key =>
    cases h
    simp only [StoreOp.cached, backendCachingDelete]
    rcases cachekey b me _ _ with _ | ⟨e | u, d, me'⟩ <;> rfl

/-- The entries of the list go to the real store, from the one used last on. -/
def writeBackAll (b : Backend σ) (entries : List CacheData) (inst : σ) : σ :=
  entries.foldl (fun inst d => (cacheStore b inst d).2) inst

/-- What the operations that purge the cache ask the real store for. -/
def CacheOp.afterPurge (b : CursorBackend σ) (inst : σ) : CacheOp → Option (Reply × σ)
  | .plain .sync => some ((b.sync inst).1.map fun _ => none, (b.sync inst).2)
  | .first => some ((b.first inst).1.map some, (b.first inst).2)
  | .next previousKey => some ((b.next inst previousKey).1.map some, (b.next inst previousKey).2)
  | .fromKey closestKey => some ((b.fromKey inst closestKey).1.map some, (b.fromKey inst closestKey).2)
  | .close => some ((b.close inst).1.map fun _ => none, (b.close inst).2)
  | _ => none

/-- What an operation answers and leaves, of the entries and of the real store. -/
inductive CacheOp.Does (b : CursorBackend σ) (encode decode : Bytes → Bytes) (maxcache : Nat)
    (entries : List CacheData) (inst : σ) : CacheOp → Reply → List CacheData → σ → Prop
  | key (op : StoreOp) (data : CacheData) (bop : BcOp) (h : op.access = some (data, bop))
      (e : Except FlatStoreError Unit) (d : CacheData) (entries' : List CacheData) (inst' : σ)
      (hr : lruKey b.toBackend maxcache entries inst data bop = (e, d, entries', inst')) :
      Does b encode decode maxcache entries inst (.plain op) (op.answer e d) entries' inst'
  | fetchCompressed (key : Bytes) :
      Does b encode decode maxcache entries inst (.fetchCompressed key)
        (((b.fetch inst key).1.map decode).map some) entries (b.fetch inst key).2
  | storeCompressed (key bits : Bytes) :
      Does b encode decode maxcache entries inst (.storeCompressed key bits)
        ((b.store inst key (encode bits)).1.map fun _ => none) entries (b.store inst key (encode bits)).2
  | purge (op : CacheOp) (r : Reply) (inst' : σ)
      (h : op.afterPurge b (writeBackAll b.toBackend entries inst) = some (r, inst')) :
      Does b encode decode maxcache entries inst op r [] inst'

theorem CacheOp.spec (b : CursorBackend σ) (encode decode : Bytes → Bytes) (h : me.cache.Ok l) (op : CacheOp) :
    ∃ r me' l', op.step b encode decode me = some (r, me') ∧ me'.cache.Ok l' ∧
      me'.cache.maxcache = me.cache.maxcache ∧
      op.Does b encode decode me.cache.maxcache (me.cache.entries l) me.inst r (me'.cache.entries l') me'.inst := by
  have hpurge : ∀ (r : Reply) (inst' : σ), op.afterPurge b (writeBackAll b.toBackend (me.cache.entries l) me.inst) =
      some (r, inst') → op.step b encode decode me = some (r, { purgecache b.toBackend me with inst := inst' }) →
      ∃ r me' l', op.step b encode decode me = some (r, me') ∧ me'.cache.Ok l' ∧
        me'.cache.maxcache = me.cache.maxcache ∧
        op.Does b encode decode me.cache.maxcache (me.cache.entries l) me.inst r (me'.cache.entries l') me'.inst := by
    intro r inst' hr hstep
    obtain ⟨c, hc, hok, hmax⟩ := @CachingStore.Ok.purgecache _ l _ b.toBackend h me.inst
    have hcache : (purgecache b.toBackend me).cache = c := by rw [hc]
    refine ⟨r, _, [], hstep, ?_, ?_, .purge op r inst' hr⟩
    · exact hcache ▸ hok
    · exact hcache ▸ hmax
  have hinst : (purgecache b.toBackend me).inst = writeBackAll b.toBackend (me.cache.entries l) me.inst := by
    obtain ⟨c, hc, -⟩ := @CachingStore.Ok.purgecache _ l _ b.toBackend h me.inst
    rw [hc]
    rfl
  cases op with
  | plain op =>
    cases haccess : op.access with
    | none =>
      cases op with
      | sync => exact hpurge _ _ rfl (by rw [← hinst]; rfl)
      | store | fetch | exist | delete => cases haccess
    | some a =>
      obtain ⟨data, bop⟩ := a
      obtain ⟨c, l', hkey, hok, hentries, hmax⟩ := @CachingStore.Ok.cachekey _ l _ b.toBackend h me.inst data bop
      rcases hr : lruKey b.toBackend me.cache.maxcache (me.cache.entries l) me.inst data bop with
        ⟨e, d, entries', inst'⟩
      rw [hr] at hkey hentries
      refine ⟨op.answer e d, ⟨c, inst'⟩, l', ?_, hok, hmax, ?_⟩
      · rw [CacheOp.step, StoreOp.cached_eq haccess, hkey]
        rfl
      · rw [hentries]
        exact .key op data bop haccess e d entries' inst' hr
  | fetchCompressed key => exact ⟨_, _, l, rfl, h, rfl, .fetchCompressed key⟩
  | storeCompressed key bits => exact ⟨_, _, l, rfl, h, rfl, .storeCompressed key bits⟩
  | first => exact hpurge _ _ rfl (by rw [← hinst]; rfl)
  | next previousKey => exact hpurge _ _ rfl (by rw [← hinst]; rfl)
  | fromKey closestKey => exact hpurge _ _ rfl (by rw [← hinst]; rfl)
  | close => exact hpurge _ _ rfl (by rw [← hinst]; rfl)

end

end RdfStore
