import RdfStore.CachingStore

/-!
# The cache as a list

What the cache is for: a list of entries with distinct keys, the one used last in
front, that loses its last entry when it is full.  The cells, links and index of
the caching store are such a list.

| theorem            | says                                                              |
|--------------------|-------------------------------------------------------------------|
| `cacheCmp_eq`      | `_cmp` is the lexicographic order of the keys                     |
| `Ok.cachekey`      | `cachekey` on the cells is `lruKey` on the list, and never fails  |
| `Ok.purgecache`    | `purgecache` writes back every entry of the list                  |
-/

namespace RdfStore

open ByteMem Ring SortedIndex

/-! ## The order of the keys -/

theorem memcmp_compare (k l : Bytes) :
    (match memcmp (min k.length l.length) k l with
      | .eq => if k.length < l.length then Ordering.lt else if l.length < k.length then .gt else .eq
      | c => c) = compare k l := by
  induction k generalizing l with
  | nil =>
    cases l with
    | nil => rfl
    | cons b l => simp [memcmp]
  | cons a k ih =>
    cases l with
    | nil => simp [memcmp]
    | cons b l =>
      have hcons : compare (a :: k) (b :: l) = (compare a b).then (compare k l) := List.compareLex_cons_cons
      have hab : compare a b = if a < b then .lt else if a = b then .eq else .gt := rfl
      rw [hcons, ← ih l, hab]
      simp only [List.length_cons, Nat.succ_min_succ, memcmp, Nat.succ_lt_succ_iff]
      by_cases hlt : a < b
      · simp only [if_pos hlt]
        rfl
      · by_cases heq : a = b
        · simp only [heq, if_neg (UInt8.lt_irrefl b), if_true]
          rfl
        · have hgt : b < a := UInt8.lt_of_le_of_ne (UInt8.not_lt.1 hlt) (Ne.symm heq)
          simp only [if_neg hlt, if_neg heq, if_pos hgt]
          rfl

theorem cacheCmp_eq (a b : CacheData) : cacheCmp a b = compare a.key b.key := memcmp_compare a.key b.key

/-! ## The list -/

section

variable {σ : Type} (b : Backend σ)

/-- What `cachekey` does to a list of entries with room for `maxcache`. -/
def lruKey (maxcache : Nat) (entries : List CacheData) (inst : σ) (data : CacheData) (op : BcOp) :
    Except FlatStoreError Unit × CacheData × List CacheData × σ :=
  match entries.find? (·.key = data.key) with
  | none =>
    let full := entries.length = maxcache
    let inst := if full then entries.getLast?.elim inst fun d => (cacheStore b inst d).2 else inst
    let (e, d, inst) := newData b op inst data
    (e, d, d :: if full then entries.dropLast else entries, inst)
  | some found =>
    let rest := entries.filter (·.key ≠ data.key)
    match op with
    | .write => (.ok (), data, data :: rest, inst)
    | .delete =>
      let (e, d, inst) := cacheDelete b inst data
      (e, d, d :: rest, inst)
    | .read | .exist => (.ok (), found, found :: rest, inst)

end

/-! ## The cells are the list -/

/-- The cells `l`, the one used last first, are the cache. -/
structure CachingStore.Ok (me : CachingStore) (l : List Addr) : Prop where
  ring : IsRing me.cells l
  head : me.head = l.head?
  idx : me.idx.Perm l
  sorted : Sorted (fun a => (me.cells a).data.key) me.idx
  room : l.length ≤ me.maxcache
  pos : 0 < me.maxcache
  fresh : ∀ a ∈ l, a < me.brk

def CachingStore.entries (me : CachingStore) (l : List Addr) : List CacheData := l.map fun a => (me.cells a).data

section

variable {me c : CachingStore} {l rest : List Addr} {i : Addr} {data : CacheData}

theorem initCachingstore_ok (n : Nat) : (initCachingstore n).Ok [] := by
  refine ⟨isRing_nil _, rfl, List.Perm.nil, List.Pairwise.nil, Nat.zero_le _, ?_, fun _ ha => absurd ha List.not_mem_nil⟩
  unfold initCachingstore defaultMaxCache
  split
  · decide
  · next h => exact Nat.pos_of_ne_zero h

theorem CachingStore.Ok.distinct (h : me.Ok l) :
    l.Pairwise fun a b => (me.cells a).data.key ≠ (me.cells b).data.key :=
  h.idx.pairwise h.sorted.distinct fun h => h.symm

theorem CachingStore.lookup_eq (me : CachingStore) (data : CacheData) :
    me.lookup data = bsearch (fun a => compare data.key (me.cells a).data.key) me.idx := by
  simp only [CachingStore.lookup, cacheCmp_eq]

theorem CachingStore.Ok.lookup_some (h : me.Ok l) :
    me.lookup data = some i ↔ i ∈ l ∧ (me.cells i).data.key = data.key := by
  rw [me.lookup_eq, bsearch_eq_some_iff h.sorted, h.idx.mem_iff]

theorem CachingStore.Ok.lookup_none (h : me.Ok l) :
    me.lookup data = none ↔ ∀ a ∈ l, (me.cells a).data.key ≠ data.key := by
  rw [me.lookup_eq, bsearch_eq_none_iff h.sorted]
  exact forall_congr' fun a => by rw [h.idx.mem_iff]

/-! ## A cell for a new key -/

theorem data_pushFront (me : CachingStore) (i a : Addr) : ((me.pushFront i).cells a).data = (me.cells a).data := by
  unfold CachingStore.pushFront
  split
  · exact data_linkBefore _ _ _ _
  · simp only [data_setPrev, data_setNxt]

theorem data_setData_pushFront (me : CachingStore) (i a : Addr) (data : CacheData) :
    (((me.setData i data).pushFront i).cells a).data = if a = i then data else (me.cells a).data := by
  rw [data_pushFront]
  exact data_setData _ _ _ _

/-- A cell that waits for its data; the others are `rest`. -/
structure CachingStore.Vacant (c : CachingStore) (i : Addr) (rest : List Addr) : Prop where
  ring : ∀ data, IsRing ((c.setData i data).pushFront i).cells (i :: rest)
  idx : c.idx.Perm (i :: rest)
  room : rest.length < c.maxcache
  fresh : ∀ a ∈ i :: rest, a < c.brk

theorem CachingStore.sort_frame (me : CachingStore) : me.sort.cells = me.cells ∧ me.sort.head = me.head ∧
    me.sort.maxcache = me.maxcache ∧ me.sort.brk = me.brk ∧ me.sort.idx.Perm me.idx := by
  unfold CachingStore.sort
  split
  · exact ⟨rfl, rfl, rfl, rfl, perm_qsort _ _⟩
  · exact ⟨rfl, rfl, rfl, rfl, List.Perm.refl _⟩

theorem CachingStore.sorted_sort (hdistinct : me.idx.Pairwise fun a b => (me.cells a).data.key ≠ (me.cells b).data.key) :
    Sorted (fun a => (me.cells a).data.key) me.sort.idx := by
  unfold CachingStore.sort
  split
  · simp only [cacheCmp_eq]
    exact sorted_qsort hdistinct
  · next hlen =>
    cases hidx : me.idx with
    | nil => exact List.Pairwise.nil
    | cons a s =>
      cases s with
      | nil => exact List.pairwise_singleton _ a
      | cons a' s =>
        rw [hidx, List.length_cons, List.length_cons] at hlen
        omega

theorem CachingStore.Vacant.ok (h : c.Vacant i rest) (data : CacheData)
    (hkey : ∀ a ∈ rest, (c.cells a).data.key ≠ data.key)
    (hdistinct : rest.Pairwise fun a b => (c.cells a).data.key ≠ (c.cells b).data.key) :
    (((c.setData i data).pushFront i).sort).Ok (i :: rest) ∧
      (((c.setData i data).pushFront i).sort).entries (i :: rest) = data :: c.entries rest ∧
      (((c.setData i data).pushFront i).sort).maxcache = c.maxcache := by
  have hring := h.ring data
  have hdata := fun a => data_setData_pushFront c i a data
  have hframe : ((c.setData i data).pushFront i).head = some i ∧
      ((c.setData i data).pushFront i).idx = c.idx ∧ ((c.setData i data).pushFront i).maxcache = c.maxcache ∧
      ((c.setData i data).pushFront i).brk = c.brk := by
    unfold CachingStore.pushFront
    split
    · exact ⟨rfl, rfl, rfl, rfl⟩
    · exact ⟨rfl, rfl, rfl, rfl⟩
  generalize (c.setData i data).pushFront i = s at hring hdata hframe
  obtain ⟨hhead, hidx, hmax, hbrk⟩ := hframe
  obtain ⟨hcells', hhead', hmax', hbrk', hperm⟩ := s.sort_frame
  have hi : i ∉ rest := (List.nodup_cons.1 hring.nodup).1
  have hrest : ∀ a ∈ rest, (s.cells a).data = (c.cells a).data := by
    intro a ha
    have hne : a ≠ i := fun he => hi (he ▸ ha)
    rw [hdata, if_neg hne]
  have hself : (s.cells i).data = data := by rw [hdata, if_pos rfl]
  have hall : (i :: rest).Pairwise fun a b => (s.cells a).data.key ≠ (s.cells b).data.key := by
    refine List.pairwise_cons.2 ⟨fun a ha => ?_, hdistinct.imp_of_mem fun ha hb hne => ?_⟩
    · rw [hself, hrest a ha]
      exact (hkey a ha).symm
    · rw [hrest _ ha, hrest _ hb]
      exact hne
  have hsidx : s.idx.Perm (i :: rest) := hidx ▸ h.idx
  refine ⟨⟨hcells' ▸ hring, hhead'.trans hhead, hperm.trans hsidx, ?_, ?_, ?_, fun a ha => ?_⟩, ?_, hmax'.trans hmax⟩
  · rw [hcells']
    exact CachingStore.sorted_sort (hsidx.symm.pairwise hall fun h => h.symm)
  · rw [hmax', hmax]
    exact h.room
  · rw [hmax', hmax]
    exact Nat.lt_of_le_of_lt (Nat.zero_le _) h.room
  · rw [hbrk', hbrk]
    exact h.fresh a ha
  · rw [CachingStore.entries, hcells', List.map_cons, hself, CachingStore.entries]
    exact congrArg (data :: ·) (List.map_congr_left hrest)

section

variable {σ : Type} {b : Backend σ} {inst : σ}

/-- With room left the cell is a new one. -/
theorem CachingStore.Ok.newCell_room (h : c.Ok l) (hroom : l.length < c.maxcache) :
    ∃ i c', newCell b ⟨c, inst⟩ = some (i, ⟨c', inst⟩) ∧ c'.Vacant i l ∧ c'.cells = c.cells ∧
      c'.maxcache = c.maxcache := by
  have hlen : ¬ c.maxcache ≤ c.idx.length := by
    rw [h.idx.length_eq]
    omega
  have hnew : c.brk ∉ l := fun hm => Nat.lt_irrefl _ (h.fresh _ hm)
  refine ⟨c.brk, { c with idx := c.idx ++ [c.brk], brk := c.brk + 1 }, ?_, ⟨fun data => ?_, ?_, hroom, ?_⟩, rfl, rfl⟩
  · unfold newCell
    simp only [if_neg hlen]
  · have hlinks : IsRing (Ring.setData c.cells c.brk data) l :=
      h.ring.congr fun a _ => ⟨nxt_setData _ _ _ _, prev_setData _ _ _ _⟩
    unfold CachingStore.pushFront CachingStore.setData
    rw [h.head]
    cases l with
    | nil => exact isRing_singleton (by simp) (by simp)
    | cons hd t => exact hlinks.linkBefore hnew
  · exact (List.perm_append_singleton _ _).trans (h.idx.cons _)
  · intro a ha
    rcases List.mem_cons.1 ha with rfl | ha
    · exact Nat.lt_succ_self _
    · exact Nat.lt_succ_of_lt (h.fresh a ha)

/-- A full cache gives up the cell used longest ago. -/
theorem CachingStore.Ok.newCell_full {z : Addr} (h : c.Ok (rest ++ [z])) (hfull : (rest ++ [z]).length = c.maxcache) :
    ∃ c', newCell b ⟨c, inst⟩ = some (z, ⟨c', (cacheStore b inst (c.cells z).data).2⟩) ∧ c'.Vacant z rest ∧
      (∀ a, (c'.cells a).data = (c.cells a).data) ∧ c'.maxcache = c.maxcache := by
  have hlen : c.maxcache ≤ c.idx.length := by
    rw [h.idx.length_eq]
    omega
  obtain ⟨hd, t, hcons⟩ : ∃ hd t, rest ++ [z] = hd :: t := List.exists_cons_of_ne_nil (by simp)
  have hring := h.ring
  have hlast := (hcons ▸ hring : IsRing c.cells (hd :: t)).last
  have hz : (hd :: t).getLast (List.cons_ne_nil hd t) = z := by
    simp only [← hcons, List.getLast_append_singleton]
  rw [hz] at hlast
  have hhead : c.head = some hd := by rw [h.head, hcons, List.head?_cons]
  have hcells := setNxt_setPrev c.cells z
  have hlookup : ({ c with head := some hd, cells := unlink c.cells z } : CachingStore).lookup (c.cells z).data =
      some z := by
    have hsame : ({ c with head := some hd, cells := unlink c.cells z } : CachingStore).lookup (c.cells z).data =
        c.lookup (c.cells z).data := by
      simp only [CachingStore.lookup, data_unlink]
    rw [hsame, h.lookup_some]
    exact ⟨by simp, rfl⟩
  rw [hlast.1] at hcells
  refine ⟨{ c with head := some hd, cells := unlink c.cells z }, ?_, ⟨fun data => ?_, ?_, ?_, fun a ha => ?_⟩,
    fun a => data_unlink _ _ _, rfl⟩
  · unfold newCell
    simp only [if_pos hlen, hhead, Option.bind_eq_bind, Option.bind_some, hlast.2, hlast.1, hcells,
      data_unlink, hlookup]
  · have hout : z ∉ rest := fun hm => (List.nodup_append.1 hring.nodup).2.2 z hm z (List.mem_singleton_self z) rfl
    have hrest : IsRing (unlink c.cells z) rest := hring.rotate.unlink
    show IsRing (linkBefore (Ring.setData (unlink c.cells z) z data) hd z) (z :: rest)
    cases rest with
    | nil =>
      cases hcons
      refine linkBefore_self _ _ (hring.unlink_self.congr fun a _ => ⟨nxt_setData _ _ _ _, prev_setData _ _ _ _⟩)
    | cons hd' t' =>
      cases hcons
      exact (hrest.congr fun a _ => ⟨nxt_setData _ _ _ _, prev_setData _ _ _ _⟩).linkBefore hout
  · exact h.idx.trans (List.perm_append_singleton _ _)
  · rw [List.length_append, List.length_singleton] at hfull
    exact Nat.lt_of_succ_le (le_of_eq hfull)
  · exact h.fresh a ((List.perm_append_singleton z rest).mem_iff.2 ha)

end

/-! ## The cell of a key that is there -/

theorem data_toFront (me : CachingStore) (i a : Addr) : ((me.toFront i).cells a).data = (me.cells a).data := by
  unfold CachingStore.toFront
  split
  · split
    · rfl
    · rw [data_linkBefore, data_unlink]
  · rfl

theorem CachingStore.toFront_frame (me : CachingStore) (i : Addr) : (me.toFront i).idx = me.idx ∧
    (me.toFront i).maxcache = me.maxcache ∧ (me.toFront i).brk = me.brk := by
  unfold CachingStore.toFront
  split
  · split
    · exact ⟨rfl, rfl, rfl⟩
    · exact ⟨rfl, rfl, rfl⟩
  · exact ⟨rfl, rfl, rfl⟩

theorem CachingStore.Ok.toFront {l₁ l₂ : List Addr} (h : me.Ok (l₁ ++ i :: l₂)) :
    (me.toFront i).Ok (i :: (l₁ ++ l₂)) := by
  have hperm : (l₁ ++ i :: l₂).Perm (i :: (l₁ ++ l₂)) := List.perm_middle
  obtain ⟨hidx, hmax, hbrk⟩ := me.toFront_frame i
  have hlinks : IsRing (me.toFront i).cells (i :: (l₁ ++ l₂)) ∧ (me.toFront i).head = some i := by
    unfold CachingStore.toFront
    rw [h.head]
    cases l₁ with
    | nil => exact ⟨by simpa using h.ring, by simpa using h.head⟩
    | cons hd t =>
      have hnodup := hperm.nodup_iff.1 h.ring.nodup
      have hne : hd ≠ i := fun he => (List.nodup_cons.1 hnodup).1 (he ▸ List.mem_cons_self)
      -- the ring is entered at the cell, and at the old head again when the cell is out
      have hout : IsRing (unlink me.cells i) (l₂ ++ hd :: t) := h.ring.rotate.unlink
      simp only [List.cons_append, List.head?_cons, if_neg hne]
      exact ⟨hout.rotate.linkBefore (List.nodup_cons.1 hnodup).1, trivial⟩
  refine ⟨hlinks.1, hlinks.2, hidx ▸ h.idx.trans hperm, ?_, ?_, hmax ▸ h.pos, fun a ha => ?_⟩
  · simp only [data_toFront, hidx]
    exact h.sorted
  · rw [hmax, ← hperm.length_eq]
    exact h.room
  · rw [hbrk]
    exact h.fresh a (hperm.mem_iff.2 ha)

theorem CachingStore.Ok.setData (h : me.Ok l) (hkey : (me.cells i).data.key = data.key) :
    (me.setData i data).Ok l := by
  have hkeys : ∀ a, ((me.setData i data).cells a).data.key = (me.cells a).data.key := by
    intro a
    unfold CachingStore.setData
    rw [data_setData]
    split
    · next he => rw [he, hkey]
    · rfl
  refine ⟨h.ring.congr fun a _ => ⟨nxt_setData _ _ _ _, prev_setData _ _ _ _⟩, h.head, h.idx, ?_, h.room, h.pos,
    h.fresh⟩
  simp only [hkeys]
  exact h.sorted

theorem CachingStore.entries_setData (me : CachingStore) (hi : i ∉ rest) (data : CacheData) :
    (me.setData i data).entries (i :: rest) = data :: me.entries rest := by
  unfold CachingStore.entries CachingStore.setData
  rw [List.map_cons, data_setData, if_pos rfl]
  refine congrArg (data :: ·) (List.map_congr_left fun a ha => ?_)
  have hne : a ≠ i := fun he => hi (he ▸ ha)
  rw [data_setData, if_neg hne]

theorem CachingStore.entries_toFront (me : CachingStore) (i : Addr) (l : List Addr) :
    (me.toFront i).entries l = me.entries l :=
  List.map_congr_left fun a _ => data_toFront me i a

/-! ## `cachekey` -/

theorem find_entry {es₁ es₂ : List CacheData} {d : CacheData}
    (hdistinct : (es₁ ++ d :: es₂).Pairwise fun a b => a.key ≠ b.key) :
    (es₁ ++ d :: es₂).find? (·.key = d.key) = some d ∧
      (es₁ ++ d :: es₂).filter (·.key ≠ d.key) = es₁ ++ es₂ := by
  obtain ⟨-, hcons, hacross⟩ := List.pairwise_append.1 hdistinct
  have h₁ : ∀ a ∈ es₁, a.key ≠ d.key := fun a ha => hacross a ha d List.mem_cons_self
  have h₂ : ∀ a ∈ es₂, a.key ≠ d.key := fun a ha => ((List.pairwise_cons.1 hcons).1 a ha).symm
  constructor
  · have hnone : es₁.find? (·.key = d.key) = none := List.find?_eq_none.2 fun a ha => by simpa using h₁ a ha
    simp [List.find?_append, hnone]
  · have hf₁ : es₁.filter (·.key ≠ d.key) = es₁ := List.filter_eq_self.2 fun a ha => by simpa using h₁ a ha
    have hf₂ : es₂.filter (·.key ≠ d.key) = es₂ := List.filter_eq_self.2 fun a ha => by simpa using h₂ a ha
    simp only [List.filter_append, hf₁, List.filter_cons, hf₂]
    simp

section

variable {σ : Type} {b : Backend σ} {inst : σ}

theorem cacheFetch_key (inst : σ) (data : CacheData) : (cacheFetch b inst data).2.1.key = data.key := by
  unfold cacheFetch
  split
  · rfl
  · rfl
  · rfl

theorem cacheDelete_key (inst : σ) (data : CacheData) : (cacheDelete b inst data).2.1.key = data.key := by
  unfold cacheDelete
  split
  · rfl
  · rfl

theorem newData_key (op : BcOp) (inst : σ) (data : CacheData) : (newData b op inst data).2.1.key = data.key := by
  cases op with
  | write => rfl
  | delete => exact cacheDelete_key inst data
  | read | exist => exact cacheFetch_key inst data

/-- `cachekey` on the cells does what `lruKey` does on the list. -/
theorem CachingStore.Ok.cachekey (h : me.Ok l) (inst : σ) (data : CacheData) (op : BcOp) :
    ∃ c l', RdfStore.cachekey b ⟨me, inst⟩ data op =
        some ((lruKey b me.maxcache (me.entries l) inst data op).1,
          (lruKey b me.maxcache (me.entries l) inst data op).2.1,
          ⟨c, (lruKey b me.maxcache (me.entries l) inst data op).2.2.2⟩) ∧
      c.Ok l' ∧ c.entries l' = (lruKey b me.maxcache (me.entries l) inst data op).2.2.1 ∧
      c.maxcache = me.maxcache := by
  unfold RdfStore.cachekey lruKey
  cases hlookup : me.lookup data with
  | none =>
    have hnone := h.lookup_none.1 hlookup
    have hfind : (me.entries l).find? (·.key = data.key) = none := by
      refine List.find?_eq_none.2 fun d hd => ?_
      obtain ⟨a, ha, rfl⟩ := List.mem_map.1 hd
      simpa using hnone a ha
    have hlen : (me.entries l).length = l.length := List.length_map _
    simp only [hfind, hlen]
    by_cases hfull : l.length = me.maxcache
    · obtain ⟨rest, z, rfl⟩ : ∃ rest z, l = rest ++ [z] := by
        have hne : l ≠ [] := fun he => by
          have := h.pos
          simp [he] at hfull
          omega
        exact ⟨l.dropLast, l.getLast hne, (List.dropLast_append_getLast hne).symm⟩
      obtain ⟨c, hcell, hvacant, hdata, hmax⟩ := @newCell_full me rest σ b inst z h hfull
      have hlast : (me.entries (rest ++ [z])).getLast? = some (me.cells z).data := by simp [entries]
      have hdrop : (me.entries (rest ++ [z])).dropLast = me.entries rest := by simp [entries]
      have hdistinct := (List.pairwise_append.1 h.distinct).1
      obtain ⟨hok, hentries, hmax'⟩ := hvacant.ok
        (newData b op (cacheStore b inst (me.cells z).data).2 data).2.1
        (fun a ha => by rw [hdata, newData_key]; exact hnone a (List.mem_append_left _ ha))
        (by simpa only [hdata] using hdistinct)
      refine ⟨_, _, ?_, hok, ?_, hmax'.trans hmax⟩
      · simp only [hcell, if_pos hfull, hlast, Option.bind_eq_bind, Option.bind_some, Option.elim_some]
      · simp only [hentries, if_pos hfull, hlast, hdrop, Option.elim_some]
        refine congrArg (_ :: ·) (List.map_congr_left fun a _ => hdata a)
    · obtain ⟨i, c, hcell, hvacant, hcells, hmax⟩ :=
        @newCell_room me l σ b inst h (Nat.lt_of_le_of_ne h.room hfull)
      obtain ⟨hok, hentries, hmax'⟩ := hvacant.ok (newData b op inst data).2.1
        (fun a ha => by rw [hcells, newData_key]; exact hnone a ha)
        (by simpa only [hcells] using h.distinct)
      refine ⟨_, _, ?_, hok, ?_, hmax'.trans hmax⟩
      · simp only [hcell, if_neg hfull, Option.bind_eq_bind, Option.bind_some]
      · simp only [hentries, if_neg hfull]
        rw [entries, hcells, ← entries]
  | some i =>
    obtain ⟨hi, hkey⟩ := h.lookup_some.1 hlookup
    obtain ⟨l₁, l₂, rfl⟩ := List.append_of_mem hi
    have hsplit : me.entries (l₁ ++ i :: l₂) = me.entries l₁ ++ (me.cells i).data :: me.entries l₂ := by
      simp [entries]
    have hdistinct : (me.entries (l₁ ++ i :: l₂)).Pairwise fun a b => a.key ≠ b.key :=
      List.pairwise_map.2 h.distinct
    rw [hsplit] at hdistinct
    obtain ⟨hfind, hfilter⟩ := find_entry hdistinct
    rw [← hsplit, hkey] at hfind hfilter
    have hout : i ∉ l₁ ++ l₂ := fun hm =>
      (List.nodup_cons.1 (List.perm_middle.nodup_iff.1 h.ring.nodup)).1 hm
    have hrest : (me.toFront i).entries (l₁ ++ l₂) = me.entries l₁ ++ me.entries l₂ := by
      rw [entries_toFront, entries, entries, entries, List.map_append]
    have hmax : (me.toFront i).maxcache = me.maxcache := (me.toFront_frame i).2.1
    -- whatever is put into the cell keeps its key
    have hset : ∀ d : CacheData, d.key = data.key → ((me.toFront i).setData i d).Ok (i :: (l₁ ++ l₂)) ∧
        ((me.toFront i).setData i d).entries (i :: (l₁ ++ l₂)) = d :: (me.entries l₁ ++ me.entries l₂) := by
      intro d hd
      refine ⟨h.toFront.setData ?_, ?_⟩
      · rw [data_toFront, hkey, hd]
      · rw [entries_setData _ hout, hrest]
    have hfound : (me.toFront i).entries (i :: (l₁ ++ l₂)) = (me.cells i).data :: (me.entries l₁ ++ me.entries l₂) := by
      rw [← hrest, entries, List.map_cons, data_toFront, entries]
    simp only [hfind, hfilter]
    cases op with
    | write => exact ⟨_, _, rfl, (hset data rfl).1, (hset data rfl).2, hmax⟩
    | delete =>
      have hd := hset _ (@cacheDelete_key _ b inst data)
      exact ⟨_, _, rfl, hd.1, hd.2, hmax⟩
    | read | exist => exact ⟨_, _, by rw [data_toFront], h.toFront, hfound, hmax⟩

/-- `purgecache` gives every entry to the real store, from the one used last on. -/
theorem CachingStore.Ok.purgecache (h : me.Ok l) (inst : σ) :
    ∃ c, RdfStore.purgecache b ⟨me, inst⟩ =
        ⟨c, (me.entries l).foldl (fun inst d => (cacheStore b inst d).2) inst⟩ ∧
      c.Ok [] ∧ c.maxcache = me.maxcache := by
  unfold RdfStore.purgecache
  cases l with
  | nil =>
    have hhead : me.head = none := h.head
    simp only [hhead]
    exact ⟨me, rfl, h, rfl⟩
  | cons hd t =>
    have hhead : me.head = some hd := h.head
    have hfuel : t.length < me.idx.length := by
      rw [h.idx.length_eq, List.length_cons]
      exact Nat.lt_succ_self _
    simp only [hhead, h.ring.traverse _ hfuel]
    refine ⟨{ me with head := none, idx := [] }, ?_, ?_, rfl⟩
    · rw [entries, List.foldl_map]
    · exact ⟨isRing_nil _, rfl, List.Perm.nil, List.Pairwise.nil, Nat.zero_le _, h.pos,
        fun _ ha => absurd ha List.not_mem_nil⟩

end

end

end RdfStore
