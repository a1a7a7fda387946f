import RdfStore.CacheRuns

/-!
# The shape of the cache

After every operation of a run, on any real store: `idx` is in order and within
bounds, the links run through the cached cells and no others, the head is the key
just used, and a key that had to leave is the one used longest ago.
-/

namespace RdfStore

open ByteMem Ring SortedIndex

/-- `idx` ascends in `_cmp` and has at most `maxcache` cells; `nxt` leads from the head through these,
each once, and back to the head, and `prev` the other way. -/
structure CachingStore.Shape (me : CachingStore) : Prop where
  sorted : me.idx.Pairwise fun a b => cacheCmp (me.cells a).data (me.cells b).data = .lt
  room : me.idx.length ≤ me.maxcache
  ring : ∃ l, l.Perm me.idx ∧ IsRing me.cells l ∧ me.head = l.head?

def CachingStore.Cached (me : CachingStore) (key : Bytes) : Prop := ∃ a ∈ me.idx, (me.cells a).data.key = key

def CacheOp.usedKey (op : CacheOp) : Option Bytes := op.access.map fun a => a.1.key

/-- The keys that a run used, the one used last in front. -/
def uses (ops : List CacheOp) : List Bytes := (ops.filterMap CacheOp.usedKey).reverse

/-! ## Keys in order of use -/

/-- Every key of `keys` was used after the keys behind it. -/
structure Recent (keys used : List Bytes) : Prop where
  mem : ∀ k ∈ keys, k ∈ used
  order : keys.Pairwise fun a b => used.idxOf a < used.idxOf b

theorem Recent.use {keys rest used : List Bytes} {k : Bytes} (h : Recent keys used) (hsub : rest.Sublist keys)
    (hk : k ∉ rest) : Recent (k :: rest) (k :: used) := by
  have hidx : ∀ a ∈ rest, (k :: used).idxOf a = used.idxOf a + 1 := by
    intro a ha
    have hne : k ≠ a := fun he => hk (he ▸ ha)
    rw [List.idxOf_cons_ne _ hne]
  refine ⟨fun a ha => ?_, List.pairwise_cons.2 ⟨fun a ha => ?_, ?_⟩⟩
  · rcases List.mem_cons.1 ha with rfl | ha
    · exact List.mem_cons_self
    · exact List.mem_cons_of_mem k (h.mem a (hsub.subset ha))
  · rw [List.idxOf_cons_self, hidx a ha]
    exact Nat.succ_pos _
  · refine (h.order.sublist hsub).imp_of_mem fun ha hb hlt => ?_
    rw [hidx _ ha, hidx _ hb]
    exact Nat.succ_lt_succ hlt

theorem recent_nil (used : List Bytes) : Recent [] used := ⟨nofun, List.Pairwise.nil⟩

/-! ## One operation -/

section

variable {σ : Type}

/-- The keys after `cachekey`. -/
theorem lruKey_keys (b : Backend σ) (n : Nat) (entries : List CacheData) (inst : σ) (data : CacheData) (op : BcOp) :
    (data.key ∈ entries.map (·.key) ∧ (lruKey b n entries inst data op).2.2.1.map (·.key) =
        data.key :: (entries.map (·.key)).filter (· ≠ data.key)) ∨
      (data.key ∉ entries.map (·.key) ∧ (lruKey b n entries inst data op).2.2.1.map (·.key) =
        data.key :: if entries.length = n then (entries.map (·.key)).dropLast else entries.map (·.key)) := by
  unfold lruKey
  rcases find_or_miss entries data.key with hmiss | ⟨found, hmem, hkey, hfind⟩
  · right
    have hfind : entries.find? (·.key = data.key) = none :=
      List.find?_eq_none.2 fun d hd => by simpa using hmiss d hd
    have hout : data.key ∉ entries.map (·.key) := fun hm => by
      obtain ⟨d, hd, he⟩ := List.mem_map.1 hm
      exact hmiss d hd he
    refine ⟨hout, ?_⟩
    simp only [hfind]
    rw [List.map_cons, newData_key]
    split
    · rw [List.map_dropLast]
    · rfl
  · left
    have hfilter : (entries.filter (·.key ≠ data.key)).map (·.key) =
        (entries.map (·.key)).filter (· ≠ data.key) := by
      rw [List.filter_map]
      rfl
    refine ⟨List.mem_map.2 ⟨found, hmem, hkey⟩, ?_⟩
    simp only [hfind]
    cases op with
    | write => rw [← hfilter]; rfl
    | delete => rw [← hfilter, List.map_cons, cacheDelete_key]
    | read | exist => rw [← hfilter, List.map_cons, hkey]

theorem CachingStore.Ok.shape {me : CachingStore} {l : List Addr} (h : me.Ok l) : me.Shape := by
  refine ⟨?_, ?_, l, h.idx.symm, h.ring, h.head⟩
  · simp only [cacheCmp_eq]
    exact h.sorted
  · rw [h.idx.length_eq]
    exact h.room

theorem CachingStore.Ok.cached_iff {me : CachingStore} {l : List Addr} (h : me.Ok l) (key : Bytes) :
    me.Cached key ↔ key ∈ (me.entries l).map (·.key) := by
  unfold CachingStore.Cached CachingStore.entries
  simp only [h.idx.mem_iff, List.map_map, List.mem_map, Function.comp_apply]

/-- The keys after an operation, and which of them had to leave. -/
theorem CacheOp.Does.keys {b : CursorBackend σ} {encode decode : Bytes → Bytes} {n : Nat}
    {entries entries' : List CacheData} {inst inst' : σ} {op : CacheOp} {r : Reply}
    (h : op.Does b encode decode n entries inst r entries' inst') {used : List Bytes}
    (hrecent : Recent (entries.map (·.key)) used) :
    Recent (entries'.map (·.key)) (op.usedKey.toList ++ used) ∧
      (∀ key, op.usedKey = some key → (entries'.map (·.key)).head? = some key ∧
        ∀ k ∈ entries.map (·.key), k ∉ entries'.map (·.key) →
          ∀ k' ∈ entries.map (·.key), used.idxOf k' ≤ used.idxOf k) := by
  cases h with
  | key op data bop haccess e d entries' inst' hr =>
    have hused : (CacheOp.plain op).usedKey = some data.key := by
      rw [CacheOp.usedKey, CacheOp.access, haccess]
      rfl
    have hkeys := lruKey_keys b.toBackend n entries inst data bop
    rw [hr] at hkeys
    simp only [hused, Option.toList_some, List.singleton_append, Option.some.injEq, forall_eq']
    rcases hkeys with ⟨hmem, hkeys⟩ | ⟨hout, hkeys⟩
    · rw [hkeys]
      refine ⟨hrecent.use List.filter_sublist (by simp), rfl, fun k hk hgone => absurd ?_ hgone⟩
      by_cases he : k = data.key
      · exact he ▸ List.mem_cons_self
      · exact List.mem_cons_of_mem _ (List.mem_filter.2 ⟨hk, by simpa using he⟩)
    · rw [hkeys]
      split
      · have hsub : ((entries.map (·.key)).dropLast).Sublist (entries.map (·.key)) := List.dropLast_sublist _
        refine ⟨hrecent.use hsub fun hm => hout (hsub.subset hm), rfl, fun k hk hgone k' hk' => ?_⟩
        -- what is gone is the last key
        generalize entries.map (·.key) = keys at hk hk' hgone hrecent
        have hne : keys ≠ [] := List.ne_nil_of_mem hk
        have hsplit := List.dropLast_append_getLast hne
        have hk := hk
        rw [← hsplit, List.mem_append, List.mem_singleton] at hk hk'
        have hlast : k = keys.getLast hne := hk.resolve_left fun hm => hgone (List.mem_cons_of_mem _ hm)
        have horder := hrecent.order
        rw [← hsplit, List.pairwise_append] at horder
        rcases hk' with hk' | rfl
        · rw [hlast]
          exact le_of_lt (horder.2.2 k' hk' _ (List.mem_singleton_self _))
        · rw [hlast]
      · exact ⟨hrecent.use (List.Sublist.refl _) hout, rfl,
          fun k hk hgone => absurd (List.mem_cons_of_mem _ hk) hgone⟩
  | fetchCompressed key => exact ⟨hrecent, nofun⟩
  | storeCompressed key bits => exact ⟨hrecent, nofun⟩
  | purge op r inst' h =>
    refine ⟨recent_nil _, fun key hused => ?_⟩
    cases op with
    | plain op =>
      cases op with
      | sync => cases hused
      | store | fetch | exist | delete => cases h
    | fetchCompressed | storeCompressed | first | next | fromKey | close => cases hused

end

/-! ## Runs -/

section

variable {σ : Type} (b : CursorBackend σ) (encode decode : Bytes → Bytes)

theorem uses_append (ops : List CacheOp) (op : CacheOp) : uses (ops ++ [op]) = op.usedKey.toList ++ uses ops := by
  unfold uses
  rw [List.filterMap_append, List.reverse_append]
  cases h : op.usedKey with
  | none => rw [List.filterMap_cons_none h]; rfl
  | some k => rw [List.filterMap_cons_some h]; rfl

theorem runCache_append (ops : List CacheOp) (op : CacheOp) {me me₁ me₂ : BackendCaching σ} {rs : List Reply}
    {r : Reply} (h : runCache b encode decode ops me = some (rs, me₁)) (hop : op.step b encode decode me₁ = some (r, me₂)) :
    runCache b encode decode (ops ++ [op]) me = some (rs ++ [r], me₂) := by
  induction ops generalizing me rs with
  | nil =>
    cases h
    rw [List.nil_append, runCache, hop]
    rfl
  | cons op' ops ih =>
    rw [runCache] at h
    rw [List.cons_append, runCache]
    cases hstep : op'.step b encode decode me with
    | none => rw [hstep] at h; cases h
    | some p =>
      obtain ⟨r', me'⟩ := p
      rw [hstep] at h
      cases hrun : runCache b encode decode ops me' with
      | none =>
        simp only [Option.bind_eq_bind, Option.bind_some, hrun] at h
        cases h
      | some q =>
        obtain ⟨rs', me''⟩ := q
        simp only [Option.bind_eq_bind, Option.bind_some, hrun] at h
        cases h
        simp only [Option.bind_eq_bind, Option.bind_some, ih hrun]
        rfl

/-- Every run goes through, and its entries are in the order of their last use. -/
theorem runCache_recent (n : Nat) (inst : σ) (ops : List CacheOp) :
    ∃ rs me l, runCache b encode decode ops (backendCachingOpen n inst) = some (rs, me) ∧ me.cache.Ok l ∧
      me.cache.maxcache = (initCachingstore n).maxcache ∧
      Recent ((me.cache.entries l).map (·.key)) (uses ops) := by
  induction ops using List.reverseRecOn with
  | nil => exact ⟨[], _, [], rfl, initCachingstore_ok n, rfl, recent_nil _⟩
  | append_singleton ops op ih =>
    obtain ⟨rs, me, l, hrun, hok, hmax, hrecent⟩ := ih
    obtain ⟨r, me', l', hstep, hok', hmax', hdoes⟩ := CacheOp.spec b encode decode hok op
    refine ⟨rs ++ [r], me', l', runCache_append b encode decode ops op hrun hstep, hok', hmax'.trans hmax, ?_⟩
    rw [uses_append]
    exact (hdoes.keys hrecent).1

/-- After every operation of every run the cache is in shape, its head is the key just used, and a
key that left for it is the one whose last use is oldest. -/
theorem cacheShape (n : Nat) (inst : σ) (ops : List CacheOp) (op : CacheOp) :
    ∃ rs me r me', runCache b encode decode ops (backendCachingOpen n inst) = some (rs, me) ∧
      op.step b encode decode me = some (r, me') ∧
      me'.cache.Shape ∧ me'.cache.maxcache = (initCachingstore n).maxcache ∧
      ∀ key, op.usedKey = some key →
        (∃ h, me'.cache.head = some h ∧ (me'.cache.cells h).data.key = key) ∧
        ∀ k, me.cache.Cached k → ¬ me'.cache.Cached k →
          ∀ k', me.cache.Cached k' → (uses ops).idxOf k' ≤ (uses ops).idxOf k := by
  obtain ⟨rs, me, l, hrun, hok, hmax, hrecent⟩ := runCache_recent b encode decode n inst ops
  obtain ⟨r, me', l', hstep, hok', hmax', hdoes⟩ := CacheOp.spec b encode decode hok op
  refine ⟨rs, me, r, me', hrun, hstep, hok'.shape, hmax'.trans hmax, fun key hused => ?_⟩
  obtain ⟨hhead, hgone⟩ := (hdoes.keys hrecent).2 key hused
  constructor
  · cases l' with
    | nil => cases hhead
    | cons h t => exact ⟨h, hok'.head, Option.some.inj hhead⟩
  · simp only [hok.cached_iff, hok'.cached_iff]
    exact hgone

end

end RdfStore
