import RdfStore.Store

/-!
# What the bitmap tables denote

`ids me t k` is the set of statement ids stored under key `k` of table `t`.  As
long as every entry is the code of a non-empty bitmap that fits the buffers
(`TablesOk`), `indexInsert` adds an id to one such set, `indexRemove` takes one
out and deletes the key with the last id, and both leave every other set and
the rest of the store alone.

    indexInsert:   ids' t k = insert i (ids t k)                (indexInsert_spec)
    indexRemove:   i ∈ ids t k → ids' t k = (ids t k).erase i   (indexRemove_spec)
    windexRemove:  ids' k = if 2 ≤ |ids k| then (ids k).erase i else ∅
                                                                (windexRemove_spec)

`Adds` and `Drops` say the same of a list of keys, so that the tables of one
call compose.
-/

namespace RdfStore

open ByteMem

section

variable (ext : Externals)

/-! ## The ids under a key -/

def ids (me : Store) (t : Index) (key : Bytes) : Finset Nat :=
  match rdfstoreFlatStoreFetch (me.index t) key with
  | none => ∅
  | some data => onesOf (ext.funcDecode data)

/-- An entry is the code of a non-empty bitmap that fits the buffers. -/
def EntryOk (data : Bytes) : Prop :=
  ∃ x : Bytes, x.length ≤ maxRecordsBytesSize ∧ data = ext.funcEncode x ∧ (onesOf x).Nonempty

def TablesOk (me : Store) : Prop :=
  ∀ t key data, rdfstoreFlatStoreFetch (me.index t) key = some data → EntryOk ext data

/-- Everything but the bitmap tables, the decoding buffer and `errno` is the same. -/
structure SameRest (me me' : Store) : Prop where
  nodes : me'.nodes = me.nodes
  statements : me'.statements = me.statements
  counter : me'.counter = me.counter
  counterRemoved : me'.counterRemoved = me.counterRemoved
  freetext : me'.freetext = me.freetext
  context : me'.context = me.context

theorem SameRest.refl (me : Store) : SameRest me me := ⟨rfl, rfl, rfl, rfl, rfl, rfl⟩

theorem SameRest.trans {a b c : Store} (h : SameRest a b) (h' : SameRest b c) : SameRest a c :=
  ⟨h'.nodes.trans h.nodes, h'.statements.trans h.statements, h'.counter.trans h.counter,
    h'.counterRemoved.trans h.counterRemoved, h'.freetext.trans h.freetext,
    h'.context.trans h.context⟩

variable {ext}

theorem ids_congr {me me' : Store} (h : me'.index = me.index) (t : Index) (k : Bytes) :
    ids ext me' t k = ids ext me t k := by
  unfold ids
  rw [h]

theorem TablesOk.congr {me me' : Store} (hok : TablesOk ext me) (h : me'.index = me.index) :
    TablesOk ext me' := by
  intro t key data hd
  rw [h] at hd
  exact hok t key data hd

theorem EntryOk.decode (hl : ext.Lossless) {data : Bytes} (h : EntryOk ext data) :
    (ext.funcDecode data).length ≤ maxRecordsBytesSize ∧ (onesOf (ext.funcDecode data)).Nonempty := by
  obtain ⟨x, hx, rfl, hne⟩ := h
  rw [hl.decode_encode x hx]
  exact ⟨hx, hne⟩

/-- Under `TablesOk` a key is present exactly when some id is stored under it. -/
theorem fetch_isSome_iff (hl : ext.Lossless) {me : Store} (hok : TablesOk ext me) (t : Index) (k : Bytes) :
    (rdfstoreFlatStoreFetch (me.index t) k).isSome ↔ (ids ext me t k).Nonempty := by
  unfold ids
  cases h : rdfstoreFlatStoreFetch (me.index t) k with
  | none => simp
  | some data => simpa using ((hok t k data h).decode hl).2

/-- Fetching loads the ids into the buffer. -/
theorem indexFetch_spec (hl : ext.Lossless) {me : Store} (hok : TablesOk ext me) (t : Index) (k : Bytes) :
    (indexFetch ext me t k).1 ≤ maxRecordsBytesSize ∧
      ones (indexFetch ext me t k).1 (indexFetch ext me t k).2 = ids ext me t k := by
  unfold indexFetch ids
  cases h : rdfstoreFlatStoreFetch (me.index t) k with
  | none => simp
  | some data => exact ⟨((hok t k data h).decode hl).1, ones_overlay _ _⟩

/-- A bitmap with an id in it gives an entry that decodes to its ids. -/
theorem encodedEntry_spec (hl : ext.Lossless) (a : Access) {n : Nat} {b : Buf}
    (hn : n ≤ maxRecordsBytesSize) (hne : (ones n b).Nonempty) :
    ∃ data, encodedEntry ext a n b = some data ∧ EntryOk ext data ∧
      onesOf (ext.funcDecode data) = ones n b := by
  have hlen : (takeBytes n b).length ≤ maxRecordsBytesSize := by simpa using hn
  have hn0 : n ≠ 0 := by
    rintro rfl
    simp at hne
  have htake : takeBytes n b ≠ [] := by
    intro h
    have := congrArg List.length h
    simp only [length_takeBytes, List.length_nil] at this
    exact hn0 this
  refine ⟨ext.funcEncode (takeBytes n b), ?_, ⟨takeBytes n b, hlen, rfl, ?_⟩, ?_⟩
  · cases a with
    | plain =>
      have := hl.encode_ne_nil hlen htake
      simp [encodedEntry, this]
    | compressed => simp [encodedEntry, hn0]
  · rw [onesOf_takeBytes]; exact hne
  · rw [hl.decode_encode _ hlen, onesOf_takeBytes]

theorem STEP_dvd_max : STEP ∣ maxRecordsBytesSize := ⟨16384, rfl⟩

theorem byte_lt_max {i : Nat} (h : i < maxRecords) : i / 8 < maxRecordsBytesSize := by
  simp only [maxRecords, maxRecordsBytesSize] at h ⊢
  omega

/-! ## Changing one table -/

theorem setTable_index (me : Store) (t t' : Index) (db : FlatDb) :
    (me.setTable t db).index t' = if t' = t then db else me.index t' := by
  simp only [Store.setTable, Function.update_apply]

/-- Storing an entry under one key. -/
theorem putEntry_spec {me : Store} (hok : TablesOk ext me) (t : Index) (key data : Bytes)
    (hd : EntryOk ext data) :
    TablesOk ext (me.putEntry t key (some data)) ∧ SameRest me (me.putEntry t key (some data)) ∧
      ∀ t' k, ids ext (me.putEntry t key (some data)) t' k =
        if t' = t ∧ k = key then onesOf (ext.funcDecode data) else ids ext me t' k := by
  have hfetch : ∀ t' k, rdfstoreFlatStoreFetch ((me.putEntry t key (some data)).index t') k =
      if t' = t ∧ k = key then some data else rdfstoreFlatStoreFetch (me.index t') k := by
    intro t' k
    rw [Store.putEntry, setTable_index]
    by_cases ht : t' = t
    · subst ht
      by_cases hk : k = key
      · rw [if_pos rfl, if_pos ⟨rfl, hk⟩, hk, fetch_store_same]
      · rw [if_pos rfl, if_neg fun h => hk h.2, fetch_store_of_ne _ _ _ _ hk]
    · rw [if_neg ht, if_neg fun h => ht h.1]
  refine ⟨fun t' k d h => ?_, ⟨rfl, rfl, rfl, rfl, rfl, rfl⟩, fun t' k => ?_⟩
  · rw [hfetch] at h
    split at h
    · cases h; exact hd
    · exact hok t' k d h
  · by_cases hk : t' = t ∧ k = key
    · simp only [ids, hfetch, if_pos hk]
    · simp only [ids, hfetch, if_neg hk]

/-- Deleting one key. -/
theorem deleteKey_spec {me : Store} (hok : TablesOk ext me) (t : Index) (key : Bytes) {db : FlatDb}
    (h : rdfstoreFlatStoreDelete (me.index t) key = some db) :
    TablesOk ext (me.setTable t db) ∧ SameRest me (me.setTable t db) ∧
      ∀ t' k, ids ext (me.setTable t db) t' k = if t' = t ∧ k = key then ∅ else ids ext me t' k := by
  obtain ⟨v, hv⟩ : ∃ v, rdfstoreFlatStoreFetch (me.index t) key = some v := by
    cases hv : rdfstoreFlatStoreFetch (me.index t) key with
    | none => rw [delete_of_fetch_none _ _ hv] at h; cases h
    | some v => exact ⟨v, rfl⟩
  obtain ⟨db', h', hnone, hother⟩ := delete_of_fetch _ _ hv
  rw [h] at h'
  cases h'
  have hfetch : ∀ t' k, rdfstoreFlatStoreFetch ((me.setTable t db).index t') k =
      if t' = t ∧ k = key then none else rdfstoreFlatStoreFetch (me.index t') k := by
    intro t' k
    rw [setTable_index]
    by_cases ht : t' = t
    · subst ht
      by_cases hk : k = key
      · rw [if_pos rfl, if_pos ⟨rfl, hk⟩, hk, hnone]
      · rw [if_pos rfl, if_neg fun h => hk h.2, hother k hk]
    · rw [if_neg ht, if_neg fun h => ht h.1]
  refine ⟨fun t' k d hd => ?_, ⟨rfl, rfl, rfl, rfl, rfl, rfl⟩, fun t' k => ?_⟩
  · rw [hfetch] at hd
    split at hd
    · cases hd
    · exact hok t' k d hd
  · by_cases hk : t' = t ∧ k = key
    · simp only [ids, hfetch, if_pos hk]
    · simp only [ids, hfetch, if_neg hk]

/-! ## Lists of keys -/

variable (ext)

/-- The id was added under every key of the list and nothing else happened. -/
structure Adds (i : Nat) (keys : List (Index × Bytes)) (me me' : Store) : Prop where
  ok : TablesOk ext me'
  rest : SameRest me me'
  ids : ∀ t k, ids ext me' t k = if (t, k) ∈ keys then insert i (ids ext me t k) else ids ext me t k

/-- The id was taken out under every key of the list and nothing else happened. -/
structure Drops (i : Nat) (keys : List (Index × Bytes)) (me me' : Store) : Prop where
  ok : TablesOk ext me'
  rest : SameRest me me'
  ids : ∀ t k, ids ext me' t k = if (t, k) ∈ keys then (ids ext me t k).erase i else ids ext me t k

variable {ext}

theorem Adds.nil {i : Nat} {me me' : Store} (hok : TablesOk ext me) (hindex : me'.index = me.index)
    (hrest : SameRest me me') : Adds ext i [] me me' :=
  ⟨hok.congr hindex, hrest, fun t k => by rw [if_neg (by simp), ids_congr hindex]⟩

theorem Drops.nil {i : Nat} {me me' : Store} (hok : TablesOk ext me) (hindex : me'.index = me.index)
    (hrest : SameRest me me') : Drops ext i [] me me' :=
  ⟨hok.congr hindex, hrest, fun t k => by rw [if_neg (by simp), ids_congr hindex]⟩

theorem Adds.append {i : Nat} {l l' : List (Index × Bytes)} {a b c : Store} (h : Adds ext i l a b)
    (h' : Adds ext i l' b c) : Adds ext i (l ++ l') a c := by
  refine ⟨h'.ok, h.rest.trans h'.rest, fun t k => ?_⟩
  rw [h'.ids, h.ids]
  by_cases h1 : (t, k) ∈ l
  · by_cases h2 : (t, k) ∈ l' <;> simp [h1, h2]
  · by_cases h2 : (t, k) ∈ l' <;> simp [h1, h2]

theorem Drops.append {i : Nat} {l l' : List (Index × Bytes)} {a b c : Store} (h : Drops ext i l a b)
    (h' : Drops ext i l' b c) : Drops ext i (l ++ l') a c := by
  refine ⟨h'.ok, h.rest.trans h'.rest, fun t k => ?_⟩
  rw [h'.ids, h.ids]
  by_cases h1 : (t, k) ∈ l
  · by_cases h2 : (t, k) ∈ l' <;> simp [h1, h2]
  · by_cases h2 : (t, k) ∈ l' <;> simp [h1, h2]

/-! ## The three table operations -/

section

variable {me : Store} {i : Nat}

/-- Adding an id below the maximum succeeds. -/
theorem indexInsert_spec (hl : ext.Lossless) (hok : TablesOk ext me) (hi : i < maxRecords) (a : Access)
    (t : Index) (key : Bytes) :
    ∃ me', indexInsert ext a me t key i = some me' ∧ Adds ext i [(t, key)] me me' ∧
      me'.errno = me.errno := by
  obtain ⟨hsize, hones⟩ := indexFetch_spec hl hok t key
  obtain ⟨n, b, change, hset, -, hn, hb⟩ := rdfstoreBitsSetmask_set _ _ i
    (indexFetch ext me t key).2 hsize (byte_lt_max hi) STEP_dvd_max
  have hne : (ones n b).Nonempty := by rw [hb]; exact Finset.insert_nonempty _ _
  obtain ⟨data, hdata, hentry, hdec⟩ := encodedEntry_spec hl a hn hne
  have hok' : TablesOk ext { me with bitsDecode := b } := hok.congr rfl
  obtain ⟨h1, h2, h3⟩ := putEntry_spec hok' t key data hentry
  refine ⟨_, by simp only [indexInsert, hset, hdata], ⟨h1, ⟨h2.1, h2.2, h2.3, h2.4, h2.5, h2.6⟩, ?_⟩, rfl⟩
  intro t' k
  rw [h3, hdec, hb, hones]
  by_cases hk : t' = t ∧ k = key
  · obtain ⟨rfl, rfl⟩ := hk
    simp
  · rw [if_neg hk, if_neg (by simpa using hk)]
    rfl

/-- Taking out an id that is there succeeds. -/
theorem indexRemove_spec (hl : ext.Lossless) (hok : TablesOk ext me) (hi : i < maxRecords) (a : Access)
    (t : Index) (key : Bytes) (hmem : i ∈ ids ext me t key) :
    ∃ me', indexRemove ext a me t key i = .ok me' ∧ Drops ext i [(t, key)] me me' ∧
      me'.errno = me.errno := by
  obtain ⟨hsize, hones⟩ := indexFetch_spec hl hok t key
  obtain ⟨n, b, change, hset, -, hn, hb⟩ := rdfstoreBitsSetmask_clear _ _ i
    (indexFetch ext me t key).2 hsize (byte_lt_max hi) STEP_dvd_max
  rw [hones] at hb
  have hshort := ones_rdfstoreBitsShorten n b
  have hok' : TablesOk ext { me with bitsDecode := b } := hok.congr rfl
  unfold indexRemove
  simp only [hset]
  by_cases hpos : 0 < rdfstoreBitsShorten n b
  · -- ids are left: the shortened bitmap is stored
    have hne : (ones (rdfstoreBitsShorten n b) b).Nonempty := by
      rw [Finset.nonempty_iff_ne_empty, hshort]
      intro he
      have := (rdfstoreBitsShorten_eq_zero_iff n b).2 he
      omega
    obtain ⟨data, hdata, hentry, hdec⟩ := encodedEntry_spec hl a
      ((rdfstoreBitsShorten_le n b).trans hn) hne
    obtain ⟨h1, h2, h3⟩ := putEntry_spec hok' t key data hentry
    refine ⟨_, by rw [if_pos hpos, hdata], ⟨h1, ⟨h2.1, h2.2, h2.3, h2.4, h2.5, h2.6⟩, ?_⟩, rfl⟩
    intro t' k
    rw [h3, hdec, hshort, hb]
    by_cases hk : t' = t ∧ k = key
    · obtain ⟨rfl, rfl⟩ := hk
      simp
    · rw [if_neg hk, if_neg (by simpa using hk)]
      rfl
  · -- it was the last one: the key is there and goes
    have hempty : (ids ext me t key).erase i = ∅ := by
      rw [← hb]
      exact (rdfstoreBitsShorten_eq_zero_iff n b).1 (by omega)
    have hsome : (rdfstoreFlatStoreFetch (me.index t) key).isSome :=
      (fetch_isSome_iff hl hok t key).2 ⟨i, hmem⟩
    obtain ⟨v, hv⟩ := Option.isSome_iff_exists.1 hsome
    obtain ⟨db, hdb, -⟩ := delete_of_fetch _ _ hv
    have hdb' : rdfstoreFlatStoreDelete (({ me with bitsDecode := b } : Store).index t) key = some db := hdb
    obtain ⟨h1, h2, h3⟩ := deleteKey_spec hok' t key hdb'
    refine ⟨_, by rw [if_neg hpos, hdb], ⟨h1, ⟨h2.1, h2.2, h2.3, h2.4, h2.5, h2.6⟩, ?_⟩, rfl⟩
    intro t' k
    rw [h3]
    by_cases hk : t' = t ∧ k = key
    · obtain ⟨rfl, rfl⟩ := hk
      simp [hempty]
    · rw [if_neg hk, if_neg (by simpa using hk)]
      rfl

/-- The two calls of `getfirstsetafter` tell whether there are two ids. -/
theorem matchedMore_iff (n : Nat) (b : Buf) : matchedMore n b = true ↔ 2 ≤ (ones n b).card := by
  obtain ⟨hin, hout⟩ := rdfstoreBitsGetfirstsetafter_spec n b 0
  unfold matchedMore
  by_cases hp : rdfstoreBitsGetfirstsetafter n b 0 < n * 8
  · obtain ⟨hmem, -, hfirst⟩ := hin hp
    generalize rdfstoreBitsGetfirstsetafter n b 0 = p at *
    obtain ⟨hin', hout'⟩ := rdfstoreBitsGetfirstsetafter_spec n b (p + 1)
    simp only [hp, if_true, Bool.and_eq_true, decide_eq_true_eq]
    constructor
    · rintro ⟨-, hq⟩
      obtain ⟨hqmem, hle, -⟩ := hin' hq
      have hne : p ≠ rdfstoreBitsGetfirstsetafter n b (p + 1) := by omega
      exact Finset.one_lt_card.2 ⟨p, hmem, _, hqmem, hne⟩
    · intro hcard
      obtain ⟨x, hx, y, hy, hxy⟩ := Finset.one_lt_card.1 hcard
      have hx' := hfirst x hx (Nat.zero_le _)
      have hy' := hfirst y hy (Nat.zero_le _)
      have hq : rdfstoreBitsGetfirstsetafter n b (p + 1) < n * 8 := by
        by_contra hge
        have hx'' := hout' (by omega) x hx
        have hy'' := hout' (by omega) y hy
        omega
      have := (hin' hq).2.1
      exact ⟨by omega, hq⟩
  · have hempty : ones n b = ∅ := by
      rw [Finset.eq_empty_iff_forall_notMem]
      intro q hq
      exact absurd (hout (by omega) q hq) (Nat.not_lt_zero q)
    simp [hp, hempty]

/-- The free-text variant never fails; it keeps the others' ids only if there are two. -/
theorem windexRemove_spec (hl : ext.Lossless) (hok : TablesOk ext me) (hi : i < maxRecords) (key : Bytes) :
    ∃ me', windexRemove ext me key i = some me' ∧ TablesOk ext me' ∧ SameRest me me' ∧
      me'.errno = me.errno ∧
      ∀ t k, ids ext me' t k = if t = .windex ∧ k = key then
        (if 2 ≤ (ids ext me .windex key).card then (ids ext me .windex key).erase i else ∅)
        else ids ext me t k := by
  obtain ⟨hsize, hones⟩ := indexFetch_spec hl hok .windex key
  have hmore := matchedMore_iff (indexFetch ext me .windex key).1 (indexFetch ext me .windex key).2
  rw [hones] at hmore
  unfold windexRemove
  by_cases hc : 2 ≤ (ids ext me .windex key).card
  · obtain ⟨n, b, change, hset, -, hn, hb⟩ := rdfstoreBitsSetmask_clear _ _ i
      (indexFetch ext me .windex key).2 hsize (byte_lt_max hi) STEP_dvd_max
    rw [hones] at hb
    have hne : (ones n b).Nonempty := by
      rw [hb, ← Finset.card_pos]
      have := Finset.pred_card_le_card_erase (s := ids ext me .windex key) (a := i)
      omega
    obtain ⟨data, hdata, hentry, hdec⟩ := encodedEntry_spec hl .compressed hn hne
    have hok' : TablesOk ext { me with bitsDecode := b } := hok.congr rfl
    obtain ⟨h1, h2, h3⟩ := putEntry_spec hok' .windex key data hentry
    refine ⟨_, by simp only [hmore.2 hc, if_true, hset, hdata], h1,
      ⟨h2.1, h2.2, h2.3, h2.4, h2.5, h2.6⟩, rfl, ?_⟩
    intro t k
    rw [h3, hdec, hb, if_pos hc]
    rfl
  · simp only [show matchedMore _ _ = false from by simpa using fun h => hc (hmore.1 h), Bool.false_eq_true,
      if_false]
    have hok' : TablesOk ext { me with bitsDecode := (indexFetch ext me .windex key).2 } := hok.congr rfl
    cases hdel : rdfstoreFlatStoreDelete (me.index .windex) key with
    | none =>
      have hnone : ids ext me .windex key = ∅ := by
        by_contra hne
        have := (fetch_isSome_iff hl hok .windex key).2 (Finset.nonempty_iff_ne_empty.2 hne)
        obtain ⟨v, hv⟩ := Option.isSome_iff_exists.1 this
        obtain ⟨db, hdb, -⟩ := delete_of_fetch _ _ hv
        rw [hdel] at hdb
        cases hdb
      refine ⟨_, rfl, hok', ⟨rfl, rfl, rfl, rfl, rfl, rfl⟩, rfl, fun t k => ?_⟩
      by_cases hk : t = .windex ∧ k = key
      · rw [if_pos hk, if_neg hc, hk.1, hk.2]
        exact hnone
      · rw [if_neg hk]
        rfl
    | some db =>
      obtain ⟨h1, h2, h3⟩ := deleteKey_spec hok' .windex key hdel
      refine ⟨_, rfl, h1, ⟨h2.1, h2.2, h2.3, h2.4, h2.5, h2.6⟩, rfl, fun t k => ?_⟩
      rw [h3, if_neg hc]
      rfl

end

end

end RdfStore
