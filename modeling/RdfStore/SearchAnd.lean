import RdfStore.SearchMeaning

/-!
# Lists under AND

Under AND the ids of a component should be those stored under every key.  The
loop passes over a part without entry, and it starts afresh when nothing is left,
so it may answer with the ids of the parts after that.  What it does is decided
by the entries that are there, in list order: `Drained` says that they fall into
groups that each run empty, and then nothing is left at the end.

    (contributed = ids under every key) ↔
      some id is under every key, or the entries are Drained        (contributed_and_iff)
-/

namespace RdfStore

open ByteMem

section

variable (ext : Externals)

/-- The ids left when the sets of the entries are taken away one after the other. -/
def commonIds (s : Finset Nat) (entries : List Bytes) : Finset Nat :=
  entries.foldl (fun s d => s ∩ onesOf d) s

/-- Entries that run empty: the first one starts the group, which ends as soon as no id is in
all of its entries.  An entry without bytes is such a group by itself. -/
structure RunsEmpty (d : Bytes) (ds : List Bytes) : Prop where
  start : d = [] ↔ ds = []
  empty : commonIds (onesOf d) ds = ∅
  before : ∀ n, 0 < n → n < ds.length → (commonIds (onesOf d) (ds.take n)).Nonempty

/-- Entries that fall into groups that run empty; at the end one entry without ids may be left. -/
inductive Drained : List Bytes → Prop
  | nil : Drained []
  | last (d : Bytes) (h : onesOf d = ∅) : Drained [d]
  | group (d : Bytes) (ds rest : List Bytes) (h : RunsEmpty d ds) (hrest : Drained rest) :
      Drained (d :: ds ++ rest)

/-- The entries of the keys that have one, decoded. -/
def entriesOf (db : FlatDb) (keys : List Bytes) : List Bytes :=
  keys.filterMap fun k => (rdfstoreFlatStoreFetch db k).map ext.funcDecode

/-- The ids a component has contributed after the loop over its parts, the loop having begun with
these bytes in the buffers. -/
def contributed (me : Store) (tp : TriplePattern) (c : Component) (bits bits1 bitsDecode : Buf) : Finset Nat :=
  (joinParts ext (tp.list c).operator (me.index c.table) (partKeys ext tp c) ⟨0, bits, bits1, bitsDecode⟩).ids

variable {ext}

/-! ## The loop under AND -/

/-- The loop on decoded entries. -/
def joinDecoded (j : Join) (d : Bytes) : Join :=
  if 0 < j.outsize then
    let bitsDecode := overlay d j.bitsDecode
    let r := rdfstoreBitsAnd j.outsize j.bits d.length bitsDecode j.bits1
    let outsize := rdfstoreBitsShorten r.1 r.2
    ⟨outsize, copyBytes outsize r.2 j.bits, r.2, bitsDecode⟩
  else { j with outsize := d.length, bits := overlay d j.bits }

theorem entriesOf_cons (db : FlatDb) (k : Bytes) (keys : List Bytes) : entriesOf ext db (k :: keys) =
    ((rdfstoreFlatStoreFetch db k).map ext.funcDecode).toList ++ entriesOf ext db keys := by
  rw [entriesOf, List.filterMap_cons]
  cases rdfstoreFlatStoreFetch db k <;> rfl

theorem joinParts_and (db : FlatDb) (keys : List Bytes) (j : Join) :
    joinParts ext 1 db keys j = (entriesOf ext db keys).foldl joinDecoded j := by
  induction keys generalizing j with
  | nil => rfl
  | cons k keys ih =>
    rw [joinParts, List.foldl_cons, ← joinParts, ih, entriesOf_cons, List.foldl_append]
    cases rdfstoreFlatStoreFetch db k <;> rfl

theorem joinDecoded_of_pos {j : Join} (h : 0 < j.outsize) (d : Bytes) :
    (joinDecoded j d).ids = j.ids ∩ onesOf d ∧
      (0 < (joinDecoded j d).outsize ↔ (j.ids ∩ onesOf d).Nonempty) := by
  have hids : ones (joinDecoded j d).outsize (joinDecoded j d).bits = j.ids ∩ onesOf d := by
    rw [joinDecoded, if_pos h]
    simp only [ones_copyBytes, ones_rdfstoreBitsShorten, ones_rdfstoreBitsAnd, ones_overlay, Join.ids]
  refine ⟨hids, ?_⟩
  rw [Nat.pos_iff_ne_zero, Finset.nonempty_iff_ne_empty, not_iff_not, joinDecoded, if_pos h]
  simp only
  rw [rdfstoreBitsShorten_eq_zero_iff, ones_rdfstoreBitsAnd, ones_overlay, Join.ids]

theorem joinDecoded_of_zero {j : Join} (h : j.outsize = 0) (d : Bytes) :
    (joinDecoded j d).ids = onesOf d ∧ (joinDecoded j d).outsize = d.length := by
  rw [joinDecoded, if_neg (by omega)]
  exact ⟨ones_overlay _ _, rfl⟩

/-- Until it runs empty the loop takes the intersection. -/
theorem foldl_joinDecoded (ds : List Bytes) {j : Join} (hpos : 0 < j.outsize)
    (hbefore : ∀ n, 0 < n → n < ds.length → (commonIds j.ids (ds.take n)).Nonempty) :
    (ds.foldl joinDecoded j).ids = commonIds j.ids ds ∧
      (ds ≠ [] → (0 < (ds.foldl joinDecoded j).outsize ↔ (commonIds j.ids ds).Nonempty)) := by
  induction ds generalizing j with
  | nil => exact ⟨rfl, fun h => absurd rfl h⟩
  | cons d ds ih =>
    obtain ⟨hids, hout⟩ := joinDecoded_of_pos hpos d
    have hcommon : ∀ ds, commonIds j.ids (d :: ds) = commonIds (joinDecoded j d).ids ds := by
      intro ds
      rw [hids]
      rfl
    rw [List.foldl_cons, hcommon]
    cases ds with
    | nil => exact ⟨rfl, fun _ => by rw [List.foldl_nil, hout, ← hids]; rfl⟩
    | cons d' ds =>
      have hne := hbefore 1 (by omega) (by simp)
      rw [List.take_succ_cons, List.take_zero, hcommon] at hne
      have hpos' : 0 < (joinDecoded j d).outsize := hout.2 (hids ▸ hne)
      obtain ⟨h1, h2⟩ := ih hpos' fun n hn hlt => by
        rw [← hcommon, ← List.take_succ_cons]
        exact hbefore (n + 1) (by omega) (by simpa using hlt)
      exact ⟨h1, fun _ => h2 (by simp)⟩

/-- A group that runs empty leaves nothing joined. -/
theorem RunsEmpty.foldl_eq_zero {d : Bytes} {ds : List Bytes} (h : RunsEmpty d ds) {j : Join}
    (hj : j.outsize = 0) : ((d :: ds).foldl joinDecoded j).outsize = 0 := by
  obtain ⟨hids, hout⟩ := joinDecoded_of_zero hj d
  rw [List.foldl_cons]
  by_cases hds : ds = []
  · rw [hds, List.foldl_nil, hout, h.start.2 hds]
    rfl
  · have hd : d ≠ [] := fun hd => hds (h.start.1 hd)
    have hpos : 0 < (joinDecoded j d).outsize := by
      rw [hout]
      exact List.length_pos_iff.2 hd
    have hiff := (foldl_joinDecoded ds hpos (by rw [hids]; exact h.before)).2 hds
    rw [hids, h.empty] at hiff
    simpa using hiff

theorem Drained.foldl_ids {entries : List Bytes} (h : Drained entries) {j : Join} (hj : j.outsize = 0) :
    (entries.foldl joinDecoded j).ids = ∅ := by
  induction h generalizing j with
  | nil => rw [List.foldl_nil, Join.ids, hj, ones_zero]
  | last d h => exact (joinDecoded_of_zero hj d).1.trans h
  | group d ds rest h hrest ih =>
    rw [List.foldl_append]
    exact ih (h.foldl_eq_zero hj)

/-- Nothing left at the end means that the entries ran empty. -/
theorem drained_of_foldl_ids (entries : List Bytes) {j : Join} (hj : j.outsize = 0)
    (h : (entries.foldl joinDecoded j).ids = ∅) : Drained entries := by
  match entries with
  | [] => exact .nil
  | d :: ds =>
    obtain ⟨hids, hout⟩ := joinDecoded_of_zero hj d
    by_cases hd : d = []
    · -- an entry without bytes: the loop has not begun yet
      subst hd
      rw [List.foldl_cons] at h
      have hrest := drained_of_foldl_ids ds hout h
      exact .group [] [] ds ⟨by simp, by simp [commonIds], fun n hn hlt => by simp at hlt⟩ hrest
    · have hpos : 0 < (joinDecoded j d).outsize := by
        rw [hout]
        exact List.length_pos_iff.2 hd
      by_cases hex : ∃ n, 0 < n ∧ n ≤ ds.length ∧ commonIds (onesOf d) (ds.take n) = ∅
      · -- the group ends where the intersection becomes empty
        obtain ⟨hn0, hnle, hempty⟩ := Nat.find_spec hex
        generalize hfind : Nat.find hex = n at hn0 hnle hempty
        have hgroup : RunsEmpty d (ds.take n) := by
          refine ⟨⟨fun h => absurd h hd, fun htake => ?_⟩, hempty, fun m hm hlt => ?_⟩
          · have hlen := congrArg List.length htake
            rw [List.length_take, List.length_nil] at hlen
            omega
          · rw [List.length_take] at hlt
            rw [List.take_take, Nat.min_eq_left (by omega), Finset.nonempty_iff_ne_empty]
            intro he
            exact Nat.find_min hex (by omega : m < Nat.find hex) ⟨hm, by omega, he⟩
        have hsplit : d :: ds = d :: ds.take n ++ ds.drop n := by simp
        rw [hsplit, List.foldl_append] at h
        have hlen : (ds.drop n).length < (d :: ds).length := by
          rw [List.length_drop, List.length_cons]
          omega
        have hrest := drained_of_foldl_ids (ds.drop n) (hgroup.foldl_eq_zero hj) h
        rw [hsplit]
        exact .group d (ds.take n) (ds.drop n) hgroup hrest
      · have hall : ∀ n, 0 < n → n ≤ ds.length → (commonIds (onesOf d) (ds.take n)).Nonempty := by
          intro n hn hle
          rw [Finset.nonempty_iff_ne_empty]
          exact fun he => hex ⟨n, hn, hle, he⟩
        rw [List.foldl_cons, (foldl_joinDecoded ds hpos (by
          rw [hids]
          exact fun n hn hlt => hall n hn hlt.le)).1, hids] at h
        cases ds with
        | nil => exact .last d h
        | cons d' ds =>
          have hne := hall (d' :: ds).length (by simp) le_rfl
          rw [List.take_length, h] at hne
          simp at hne
termination_by entries.length

/-! ## The ids under every key -/

theorem mem_commonIds {s : Finset Nat} {entries : List Bytes} {i : Nat} :
    i ∈ commonIds s entries ↔ i ∈ s ∧ ∀ d ∈ entries, i ∈ onesOf d := by
  induction entries generalizing s with
  | nil => simp [commonIds]
  | cons d ds ih =>
    rw [commonIds, List.foldl_cons, ← commonIds, ih]
    simp only [Finset.mem_inter, List.mem_cons, forall_eq_or_imp, and_assoc]

/-- An id under all keys: every key has an entry, with the id in it. -/
theorem mem_entriesOf_of_all {db : FlatDb} {keys : List Bytes} {i : Nat} :
    (∀ k ∈ keys, i ∈ entryIds ext (rdfstoreFlatStoreFetch db k)) ↔
      (entriesOf ext db keys).length = keys.length ∧ ∀ d ∈ entriesOf ext db keys, i ∈ onesOf d := by
  induction keys with
  | nil => simp [entriesOf]
  | cons k keys ih =>
    have hle : (entriesOf ext db keys).length ≤ keys.length := List.length_filterMap_le _ _
    rw [List.forall_mem_cons, ih, entriesOf_cons]
    cases hk : rdfstoreFlatStoreFetch db k with
    | none =>
      simp only [entryIds, Finset.notMem_empty, false_and, List.length_cons, false_iff, not_and,
        Option.map_none, Option.toList_none, List.nil_append]
      omega
    | some data =>
      simp only [entryIds, Option.map_some, Option.toList_some, List.singleton_append, List.length_cons,
        Nat.succ_inj, List.forall_mem_cons]
      tauto

/-- The loop under AND from its beginning. -/
theorem mem_foldl_joinDecoded {entries : List Bytes} (hne : entries ≠ []) {j : Join} (hj : j.outsize = 0)
    {i₀ : Nat} (hi₀ : ∀ d ∈ entries, i₀ ∈ onesOf d) (i : Nat) :
    i ∈ (entries.foldl joinDecoded j).ids ↔ ∀ d ∈ entries, i ∈ onesOf d := by
  cases entries with
  | nil => exact absurd rfl hne
  | cons d ds =>
    obtain ⟨hids, hout⟩ := joinDecoded_of_zero hj d
    have hd : d ≠ [] := by
      rintro rfl
      simpa using hi₀ [] List.mem_cons_self
    have hpos : 0 < (joinDecoded j d).outsize := by
      rw [hout]
      exact List.length_pos_iff.2 hd
    have hbefore : ∀ n, 0 < n → n < ds.length → (commonIds (joinDecoded j d).ids (ds.take n)).Nonempty := by
      intro n _ _
      refine ⟨i₀, mem_commonIds.2 ⟨hids ▸ hi₀ d List.mem_cons_self, fun d' hd' => ?_⟩⟩
      exact hi₀ d' (List.mem_cons_of_mem _ (List.mem_of_mem_take hd'))
    rw [List.foldl_cons, (foldl_joinDecoded ds hpos hbefore).1, mem_commonIds, hids, List.forall_mem_cons]

/-- The loop over a list of keys under AND is right exactly when some id is under all of them or
the entries run empty. -/
theorem joinParts_and_iff {db : FlatDb} {keys : List Bytes} (hne : keys ≠ []) {j : Join} (hj : j.outsize = 0) :
    (∀ i, i ∈ (joinParts ext 1 db keys j).ids ↔
        ∀ k ∈ keys, i ∈ entryIds ext (rdfstoreFlatStoreFetch db k)) ↔
      (∃ i, ∀ k ∈ keys, i ∈ entryIds ext (rdfstoreFlatStoreFetch db k)) ∨ Drained (entriesOf ext db keys) := by
  rw [joinParts_and]
  by_cases hex : ∃ i, ∀ k ∈ keys, i ∈ entryIds ext (rdfstoreFlatStoreFetch db k)
  · refine iff_of_true (fun i => ?_) (Or.inl hex)
    obtain ⟨i₀, hi₀⟩ := hex
    obtain ⟨hlen, hmem⟩ := mem_entriesOf_of_all.1 hi₀
    have hne' : entriesOf ext db keys ≠ [] := by
      intro he
      rw [he] at hlen
      exact hne (List.length_eq_zero_iff.1 hlen.symm)
    rw [mem_foldl_joinDecoded hne' hj hmem, mem_entriesOf_of_all]
    exact (and_iff_right hlen).symm
  · rw [or_iff_right hex]
    have hnone : ∀ i, ¬ ∀ k ∈ keys, i ∈ entryIds ext (rdfstoreFlatStoreFetch db k) :=
      fun i hi => hex ⟨i, hi⟩
    constructor
    · intro h
      refine drained_of_foldl_ids _ hj (Finset.eq_empty_iff_forall_notMem.2 fun i hi => ?_)
      exact hnone i ((h i).1 hi)
    · intro h i
      rw [h.foldl_ids hj]
      exact iff_of_false (Finset.notMem_empty i) (hnone i)

/-! ## A component by itself -/

variable (ext) in
/-- The step of the search for a component. -/
def Component.search : Component → Search → Except Search Search
  | .words => searchWords ext
  | .subjects => searchSubjects ext
  | .predicates => searchPredicates ext
  | .objects => searchObjects ext
  | .langs => searchLangs ext
  | .dts => searchDts ext
  | .contexts => searchContexts ext

theorem searchComponents_eq (s : Search) :
    searchComponents ext s = Component.all.foldlM (fun s c => c.search ext s) s := by
  simp only [Component.all, List.foldlM_cons, List.foldlM_nil, bind_pure]
  rfl

theorem Component.search_skip {c : Component} {s : Search} (h : (s.tp.list c).isNull = true) :
    c.search ext s = .ok s := by
  cases c <;> simp only [TriplePattern.list] at h <;>
    simp [Component.search, searchWords, searchSubjects, searchPredicates, searchObjects, searchLangs,
      searchDts, searchContexts, h]

theorem foldlM_search_skip {cs : List Component} {s : Search} (h : ∀ c ∈ cs, (s.tp.list c).isNull = true) :
    cs.foldlM (fun s c => c.search ext s) s = .ok s := by
  induction cs with
  | nil => rfl
  | cons c cs ih =>
    rw [List.foldlM_cons, Component.search_skip (h c List.mem_cons_self)]
    exact ih fun c' hc' => h c' (List.mem_cons_of_mem _ hc')

theorem andBefore_tp {s s' : Search} (h : andBefore s = .ok s') : s'.tp = s.tp := by
  unfold andBefore at h
  simp only at h
  split at h <;> cases h
  rfl

theorem searchComponent_tp {t : Index} {operator : UInt32} {keys : List Bytes} {s s' : Search}
    (h : searchComponent ext t operator keys s = .ok s') : s'.tp = s.tp := by
  unfold searchComponent at h
  simp only at h
  split at h
  · cases h
  · split at h
    · exact (andBefore_tp h).trans rfl
    · cases h
      rfl

/-- The step of a component touches the parts of no other one. -/
theorem Component.search_list {c c' : Component} {s s' : Search} (h : c.search ext s = .ok s') (hne : c' ≠ c) :
    s'.tp.list c' = s.tp.list c' := by
  cases c with
  | words =>
    simp only [Component.search, searchWords] at h
    split at h
    · split at h <;> cases h
      rfl
    · cases h
      rfl
  | contexts =>
    simp only [Component.search, searchContexts] at h
    have hcache : ({ s.tp with contexts := s.tp.contexts.cacheHashes ext } : TriplePattern).list c' =
        s.tp.list c' := by
      cases c' <;> first | rfl | exact absurd rfl hne
    split at h
    · cases h
      rfl
    · split at h
      · cases h
      · split at h
        · rw [andBefore_tp h]
          exact hcache
        · cases h
          exact hcache
  | subjects | predicates | objects | langs | dts =>
    simp only [Component.search, searchSubjects, searchPredicates, searchObjects, searchLangs, searchDts] at h
    split at h
    · cases h
      rfl
    · have htp := congrArg (TriplePattern.list · c') (searchComponent_tp h)
      cases c' <;> first | exact htp | exact absurd rfl hne

theorem Component.all_split (c : Component) : ∃ before after, Component.all = before ++ c :: after ∧
    c ∉ before ∧ c ∉ after := by
  cases c
  · exact ⟨[], _, rfl, by decide, by decide⟩
  · exact ⟨[.words], _, rfl, by decide, by decide⟩
  · exact ⟨[.words, .subjects], _, rfl, by decide, by decide⟩
  · exact ⟨[.words, .subjects, .predicates], _, rfl, by decide, by decide⟩
  · exact ⟨[.words, .subjects, .predicates, .objects], _, rfl, by decide, by decide⟩
  · exact ⟨[.words, .subjects, .predicates, .objects, .langs], _, rfl, by decide, by decide⟩
  · exact ⟨[.words, .subjects, .predicates, .objects, .langs, .dts], [], rfl, by decide, by decide⟩

section

variable {me : Store} {tp : TriplePattern} {c : Component}

/-- With one component only its step is all the search does. -/
theorem searchComponents_only (honly : ∀ c', c' ≠ c → (tp.list c').isNull = true) :
    searchComponents ext (Search.start me tp) = c.search ext (Search.start me tp) := by
  obtain ⟨before, after, hall, hbefore, hafter⟩ := c.all_split
  have hskip : before.foldlM (fun s c => c.search ext s) (Search.start me tp) = .ok (Search.start me tp) :=
    foldlM_search_skip fun c' hc' => honly c' fun he => hbefore (he ▸ hc')
  rw [searchComponents_eq, hall, List.foldlM_append, hskip]
  show (c :: after).foldlM (fun s c => c.search ext s) (Search.start me tp) = _
  rw [List.foldlM_cons]
  cases hs : c.search ext (Search.start me tp) with
  | error s => rfl
  | ok s =>
    refine foldlM_search_skip fun c' hc' => ?_
    have hne : c' ≠ c := fun he => hafter (he ▸ hc')
    rw [Component.search_list hs hne]
    exact honly c' hne

/-- The ids a search has found so far. -/
def Finds (r : Except Search Search) (found : Finset Nat) : Prop :=
  match r with
  | .error _ => found = ∅
  | .ok s => ones s.outsize1 s.bits = found

/-- The first component of a search takes the place of the empty bitmap. -/
theorem searchComponent_start {s : Search} (hout : s.outsize1 = 0) (hbits : s.bits = fun _ => 0) (t : Index)
    (operator : UInt32) (keys : List Bytes) :
    Finds (searchComponent ext t operator keys s)
      (joinParts ext operator (s.me.index t) keys ⟨0, s.bits2, s.bits1, s.me.bitsDecode⟩).ids := by
  unfold searchComponent joinComponent
  generalize joinParts ext operator (s.me.index t) keys ⟨0, s.bits2, s.bits1, s.me.bitsDecode⟩ = j
  simp only [hout, lt_irrefl, if_false]
  split
  · next hz =>
    show ones j.outsize j.bits = ∅
    rw [hz, ones_zero]
  · next hz =>
    have hzero : ones j.outsize s.bits = ∅ := by
      rw [hbits]
      exact ones_eq_empty_iff.2 fun _ _ => rfl
    have hor := ones_rdfstoreBitsOr j.outsize s.bits j.outsize j.bits j.bits1
    rw [hzero, Finset.empty_union] at hor
    have hle := bitsLoop_len_le (fun i => byteAt j.outsize s.bits i ||| byteAt j.outsize j.bits i)
      (max j.outsize j.outsize) j.bits1
    rw [Nat.max_self] at hle
    rw [Join.ids, ← hor]
    exact ones_congr fun k hk => if_pos (lt_of_lt_of_le hk (by simpa [rdfstoreBitsOr] using hle))

/-- The step of a component that comes first. -/
theorem Component.search_start (hnn : (tp.list c).isNull = false) (hwords : c = .words → me.freetext = true) :
    Finds (c.search ext (Search.start me tp))
      (contributed ext me tp c (fun _ => 0) (fun _ => 0) me.bitsDecode) := by
  cases c with
  | words =>
    have hcond : tp.words.isNull = false := hnn
    show Finds (searchWords ext _) _
    simp only [searchWords, Search.start, hcond, hwords, Bool.not_false, Bool.and_self, if_true]
    split
    · next hz => exact (congrArg (ones · _) hz).trans (ones_zero _)
    · rfl
  | contexts =>
    have hcond : tp.contexts.isNull = false := hnn
    show Finds (searchContexts ext _) _
    simp only [searchContexts, Search.start, hcond, Bool.false_eq_true, if_false, joinComponent, lt_irrefl]
    split
    · next hz => exact (congrArg (ones · _) hz).trans (ones_zero _)
    · exact ones_copyBytes _ _ _
  | subjects | predicates | objects | langs | dts =>
    simp only [TriplePattern.list] at hnn
    simp only [Component.search, searchSubjects, searchPredicates, searchObjects, searchLangs, searchDts,
      Search.start, hnn, Bool.false_eq_true, if_false]
    exact searchComponent_start rfl rfl _ _ _

/-- A pattern with one component finds what the component contributes. -/
theorem rdfstoreSearch_only (hcheck : tp.check = true) (hnn : (tp.list c).isNull = false)
    (honly : ∀ c', c' ≠ c → (tp.list c').isNull = true) (hwords : c = .words → me.freetext = true) :
    ∃ it me' tp', rdfstoreSearch ext me (some tp) = .found it me' tp' ∧
      ones it.idsSize it.ids = contributed ext me tp c (fun _ => 0) (fun _ => 0) me.bitsDecode := by
  have hboth : (me.freetext && !tp.words.isNull && !tp.objects.isNull) = false := by
    by_cases hc : c = .words
    · have h := honly .objects (by rw [hc]; decide)
      simp only [TriplePattern.list] at h
      simp [h]
    · have h := honly .words fun he => hc he.symm
      simp only [TriplePattern.list] at h
      simp [h]
  have hempty : tp.isEmpty = false := by
    cases c <;> simp only [TriplePattern.list] at hnn <;> simp [TriplePattern.isEmpty, hnn]
  have hstart : Finds (c.search ext (Search.start me tp))
      (contributed ext me tp c (fun _ => 0) (fun _ => 0) me.bitsDecode) := Component.search_start hnn hwords
  rw [← searchComponents_only honly, Search.start] at hstart
  unfold rdfstoreSearch
  simp only [hcheck, Bool.not_true, hboth, hempty, Bool.false_eq_true, if_false]
  cases hs : searchComponents ext ⟨me, tp, fun _ => 0, fun _ => 0, fun _ => 0, 0, 0⟩ with
  | error s =>
    rw [hs] at hstart
    exact ⟨_, _, _, rfl, (ones_zero _).trans hstart.symm⟩
  | ok s =>
    rw [hs] at hstart
    exact ⟨_, _, _, rfl, (ones_copyBytes _ _ _).trans hstart⟩

/-- Under AND a component contributes the ids under all its keys exactly when some id is under all
of them or the entries run empty; and by itself it is what the search finds. -/
theorem contributed_and_iff (hop : (tp.list c).operator = 1) (hne : (tp.list c).parts ≠ []) :
    (∀ bits bits1 bitsDecode,
      (∀ i, i ∈ contributed ext me tp c bits bits1 bitsDecode ↔
          ∀ k ∈ partKeys ext tp c, i ∈ ids ext me c.table k) ↔
        (∃ i, ∀ k ∈ partKeys ext tp c, i ∈ ids ext me c.table k) ∨
          Drained (entriesOf ext (me.index c.table) (partKeys ext tp c))) ∧
    (tp.check = true → (∀ c', c' ≠ c → (tp.list c').isNull = true) → (c = .words → me.freetext = true) →
      ∃ it me' tp', rdfstoreSearch ext me (some tp) = .found it me' tp' ∧
        ones it.idsSize it.ids = contributed ext me tp c (fun _ => 0) (fun _ => 0) me.bitsDecode) := by
  have hkeys : partKeys ext tp c ≠ [] := by
    cases c <;> simpa [partKeys, TriplePattern.list] using hne
  refine ⟨fun bits bits1 bitsDecode => ?_, fun hcheck honly hwords => ?_⟩
  · simp only [contributed, hop, ids_eq_entryIds]
    exact joinParts_and_iff hkeys rfl
  · exact rdfstoreSearch_only hcheck (by simpa [PartList.isNull] using hne) honly hwords

end

end

/-! ## A missing part -/

/-- The pattern with two subjects under AND. -/
def bothSubjects (s s' : Resource) : TriplePattern where
  subjects := ⟨[.resourceNode (.resource s), .resourceNode (.resource s')], 1⟩
  predicates := ⟨[], 0⟩
  objects := ⟨[], 0⟩
  contexts := ⟨[], 0⟩
  langs := ⟨[], 0⟩
  dts := ⟨[], 0⟩
  words := ⟨[], 0⟩

/-- The second subject has no entry, and the search finds what is under the first. -/
theorem rdfstoreSearch_missing_part :
    (rdfstoreSearch asciiExternals (twoEntryStore [1] (uri 97) (uri 98))
        (some (bothSubjects (uri 97) (uri 98)))).ids = {0} ∧
      ids asciiExternals (twoEntryStore [1] (uri 97) (uri 98)) .subjects
        (nodeKey asciiExternals (.resource (uri 98))) = ∅ := by
  decide +kernel

/-- The same subject twice. -/
theorem contributed_and_iff_same_subject :
    ∃ it me' tp', rdfstoreSearch asciiExternals (twoEntryStore [1] (uri 97) (uri 98))
        (some (bothSubjects (uri 97) (uri 97))) = .found it me' tp' ∧
      ∀ i, i ∈ ones it.idsSize it.ids ↔ ∀ k ∈ partKeys asciiExternals (bothSubjects (uri 97) (uri 97)) .subjects,
        i ∈ ids asciiExternals (twoEntryStore [1] (uri 97) (uri 98)) .subjects k := by
  obtain ⟨hiff, hsearch⟩ := @contributed_and_iff asciiExternals (twoEntryStore [1] (uri 97) (uri 98))
    (bothSubjects (uri 97) (uri 97)) .subjects rfl (by decide)
  obtain ⟨it, me', tp', hfound, hids⟩ := hsearch rfl (fun c' hc' => by cases c' <;> first | rfl | exact absurd rfl hc')
    nofun
  refine ⟨it, me', tp', hfound, fun i => ?_⟩
  rw [hids]
  exact (hiff _ _ _).2 (Or.inl ⟨0, by decide +kernel⟩) i

end RdfStore
