import RdfStore.Concrete
import RdfStore.IndexTables
import RdfStore.Search

/-!
# What a search finds

The part lists of a pattern are read as sets: under OR a component stands for
the ids stored under any of its keys, and a pattern for the ids in all its
components.  `rdfstore_search` finds just these as long as the entries it meets
have an id in them, as all entries do that `rdfstore_insert` and
`rdfstore_remove` write.  An entry of zero bytes only is not taken for nothing
found: the next component starts afresh.

    (every entry proper) → i ∈ ids found ↔ Matches tp i             (rdfstoreSearch_or)
-/

namespace RdfStore

open ByteMem

/-! ## Components -/

/-- The components of a pattern in the order they are searched. -/
inductive Component
  | words
  | subjects
  | predicates
  | objects
  | langs
  | dts
  | contexts
  deriving DecidableEq

def Component.all : List Component := [.words, .subjects, .predicates, .objects, .langs, .dts, .contexts]

def Component.table : Component → Index
  | .words => .windex
  | .subjects => .subjects
  | .predicates => .predicates
  | .objects => .objects
  | .langs => .languages
  | .dts => .datatypes
  | .contexts => .contexts

def TriplePattern.list (tp : TriplePattern) : Component → PartList
  | .words => tp.words
  | .subjects => tp.subjects
  | .predicates => tp.predicates
  | .objects => tp.objects
  | .langs => tp.langs
  | .dts => tp.dts
  | .contexts => tp.contexts

section

variable (ext : Externals)

/-- The keys of the parts of a component. -/
def partKeys (tp : TriplePattern) (c : Component) : List Bytes :=
  match c with
  | .dts => tp.dts.parts.map (Part.plainKey ext)
  | c => (tp.list c).parts.map (Part.key ext)

/-- The ids under the keys of a component's parts. -/
def HasPart (me : Store) (tp : TriplePattern) (c : Component) (i : Nat) : Prop :=
  ∃ k ∈ partKeys ext tp c, i ∈ ids ext me c.table k

/-- The ids a pattern stands for, by the components of a list that are not NULL. -/
def Matches (me : Store) (tp : TriplePattern) (cs : List Component) (i : Nat) : Prop :=
  ∀ c ∈ cs, (tp.list c).isNull = false → HasPart ext me tp c i

/-- The entry under a key, if there is one, has an id in it or no bytes at all. -/
def ProperEntry (db : FlatDb) (k : Bytes) : Prop :=
  ∀ data, rdfstoreFlatStoreFetch db k = some data →
    ext.funcDecode data = [] ∨ (onesOf (ext.funcDecode data)).Nonempty

variable {ext}

/-! ## The loop over the parts under OR -/

def Join.ids (j : Join) : Finset Nat := ones j.outsize j.bits

/-- The ids of an entry that may be missing. -/
def entryIds (ext : Externals) (entry : Option Bytes) : Finset Nat :=
  match entry with
  | none => ∅
  | some data => onesOf (ext.funcDecode data)

theorem ids_eq_entryIds (me : Store) (t : Index) (k : Bytes) :
    ids ext me t k = entryIds ext (rdfstoreFlatStoreFetch (me.index t) k) := by
  unfold ids entryIds
  rfl

theorem joinEntry_or_ids (j : Join) (entry : Option Bytes) :
    (joinEntry ext 0 j entry).ids = j.ids ∪ entryIds ext entry := by
  cases entry with
  | none => simp [joinEntry, entryIds]
  | some data =>
    simp only [joinEntry, entryIds, applyOperator_or, Join.ids]
    split
    · simp only [ones_copyBytes, ones_rdfstoreBitsShorten, ones_rdfstoreBitsOr, ones_overlay]
    · next hz =>
      simp only [ones_overlay, show j.outsize = 0 by omega, ones_zero, Finset.empty_union]

/-- With proper entries a length above zero means that there is an id. -/
theorem joinEntry_or_nonempty {j : Join} {entry : Option Bytes} (hj : j.outsize ≠ 0 → j.ids.Nonempty)
    (hentry : ∀ data, entry = some data → ext.funcDecode data = [] ∨ (onesOf (ext.funcDecode data)).Nonempty)
    (h : (joinEntry ext 0 j entry).outsize ≠ 0) : (joinEntry ext 0 j entry).ids.Nonempty := by
  rw [joinEntry_or_ids]
  cases entry with
  | none => exact (hj h).mono Finset.subset_union_left
  | some data =>
    by_cases hz : 0 < j.outsize
    · exact (hj (by omega)).mono Finset.subset_union_left
    · rcases hentry data rfl with hd | hd
      · simp [joinEntry, hz, hd] at h
      · exact hd.mono Finset.subset_union_right

theorem mem_joinParts_or (db : FlatDb) (keys : List Bytes) (j : Join) (i : Nat) :
    i ∈ (joinParts ext 0 db keys j).ids ↔
      i ∈ j.ids ∨ ∃ k ∈ keys, i ∈ entryIds ext (rdfstoreFlatStoreFetch db k) := by
  induction keys generalizing j with
  | nil => simp [joinParts]
  | cons k keys ih =>
    rw [joinParts, List.foldl_cons, ← joinParts, ih, joinEntry_or_ids, Finset.mem_union]
    simp only [List.mem_cons, exists_eq_or_imp, or_assoc]

theorem joinParts_or_nonempty (db : FlatDb) (keys : List Bytes) (hproper : ∀ k ∈ keys, ProperEntry ext db k)
    (j : Join) (hj : j.outsize ≠ 0 → j.ids.Nonempty) (h : (joinParts ext 0 db keys j).outsize ≠ 0) :
    (joinParts ext 0 db keys j).ids.Nonempty := by
  induction keys generalizing j with
  | nil => exact hj h
  | cons k keys ih =>
    rw [joinParts, List.foldl_cons, ← joinParts] at h ⊢
    exact ih (fun k' hk' => hproper k' (List.mem_cons_of_mem _ hk')) _
      (joinEntry_or_nonempty hj (hproper k List.mem_cons_self)) h

/-! ## One component after the other -/

variable (ext) in
/-- Where a search stands when it has gone through the components `done`. -/
structure SearchInv (me : Store) (tp : TriplePattern) (done : List Component) (s : Search) : Prop where
  index : s.me.index = me.index
  freetext : s.me.freetext = me.freetext
  rest : ∀ c, c ∉ done → s.tp.list c = tp.list c
  /-- nothing joined yet: the bitmap is empty, and zero -/
  nothing : (∀ c ∈ done, (tp.list c).isNull = true) → s.outsize1 = 0 ∧ s.bits = fun _ => 0
  joined : (∃ c ∈ done, (tp.list c).isNull = false) → 0 < s.outsize1 ∧
    ∀ i, i ∈ ones s.outsize1 s.bits ↔ Matches ext me tp done i

/-- What a component does to the search: either it goes on, or there is no match. -/
def Advances (ext : Externals) (me : Store) (tp : TriplePattern) (done : List Component) (c : Component)
    (r : Except Search Search) : Prop :=
  match r with
  | .error _ => ∀ i, ¬ Matches ext me tp (done ++ [c]) i
  | .ok s => SearchInv ext me tp (done ++ [c]) s

section

variable {me : Store} {tp : TriplePattern} {done : List Component} {c : Component} {s : Search}

theorem matches_append {i : Nat} : Matches ext me tp (done ++ [c]) i ↔
    Matches ext me tp done i ∧ ((tp.list c).isNull = false → HasPart ext me tp c i) := by
  simp only [Matches, List.mem_append, List.mem_singleton]
  constructor
  · exact fun h => ⟨fun c' hc' => h c' (Or.inl hc'), h c (Or.inr rfl)⟩
  · rintro ⟨h, h'⟩ c' (hc' | rfl)
    · exact h c' hc'
    · exact h'

/-- A NULL component is passed over. -/
theorem SearchInv.skip (h : SearchInv ext me tp done s) (hnull : (tp.list c).isNull = true) :
    SearchInv ext me tp (done ++ [c]) s := by
  have hmatch : ∀ i, Matches ext me tp (done ++ [c]) i ↔ Matches ext me tp done i := by
    intro i
    rw [matches_append]
    exact and_iff_left fun hn => absurd hn (by simp [hnull])
  refine ⟨h.index, h.freetext, fun c' hc' => h.rest c' fun hd => hc' (by simp [hd]), fun hall => ?_, fun hex => ?_⟩
  · exact h.nothing fun c' hc' => hall c' (by simp [hc'])
  · obtain ⟨c', hc', hnn⟩ := hex
    rcases List.mem_append.1 hc' with hc' | hc'
    · simpa only [hmatch] using h.joined ⟨c', hc', hnn⟩
    · rw [List.mem_singleton.1 hc', hnull] at hnn
      cases hnn

/-- A component that is not NULL leaves the ids it has in common with the ones before. -/
theorem SearchInv.join (h : SearchInv ext me tp done s) (hnn : (tp.list c).isNull = false) {s' : Search}
    (hindex : s'.me.index = s.me.index) (hfree : s'.me.freetext = s.me.freetext)
    (hrest : ∀ c', c' ≠ c → s'.tp.list c' = s.tp.list c') (hpos : 0 < s'.outsize1)
    (hids : ∀ i, i ∈ ones s'.outsize1 s'.bits ↔ Matches ext me tp done i ∧ HasPart ext me tp c i) :
    SearchInv ext me tp (done ++ [c]) s' := by
  refine ⟨hindex.trans h.index, hfree.trans h.freetext, fun c' hc' => ?_, fun hall => ?_, fun _ => ⟨hpos, fun i => ?_⟩⟩
  · rw [hrest c' fun he => hc' (by simp [he])]
    exact h.rest c' fun hd => hc' (by simp [hd])
  · rw [hall c (by simp)] at hnn
    cases hnn
  · rw [hids, matches_append]
    exact and_congr_right fun _ => ⟨fun hp _ => hp, fun hp => hp hnn⟩

/-! ## The components of a pattern under OR -/

variable (ext me tp) in
/-- What is asked of a pattern and of the entries under its keys. -/
structure OrPattern : Prop where
  check : tp.check = true
  operator : ∀ c, (tp.list c).operator = 0
  proper : ∀ c, ∀ k ∈ partKeys ext tp c, ProperEntry ext (me.index c.table) k
  words : tp.words.isNull = false → me.freetext = true
  objects : tp.words.isNull = true ∨ tp.objects.isNull = true

/-- The loop over the parts of a component: its ids, and a length of zero when there are none. -/
theorem OrPattern.joinParts (hor : OrPattern ext me tp) (c : Component) (bits bits1 bitsDecode : Buf) {j : Join}
    (hj : joinParts ext (tp.list c).operator (me.index c.table) (partKeys ext tp c)
      ⟨0, bits, bits1, bitsDecode⟩ = j) :
    (∀ i, i ∈ j.ids ↔ HasPart ext me tp c i) ∧ (j.outsize ≠ 0 → j.ids.Nonempty) := by
  rw [hor.operator] at hj
  subst hj
  refine ⟨fun i => ?_, fun h => joinParts_or_nonempty _ _ (hor.proper c) _ (fun h => absurd rfl h) h⟩
  rw [mem_joinParts_or]
  simp only [HasPart, ids_eq_entryIds]
  simp [Join.ids]

/-- What the loop over the parts of a component leaves. -/
structure Joined (ext : Externals) (me : Store) (tp : TriplePattern) (c : Component) (s s' : Search) : Prop where
  index : s'.me.index = s.me.index
  freetext : s'.me.freetext = s.me.freetext
  rest : ∀ c', c' ≠ c → s'.tp.list c' = s.tp.list c'
  outsize1 : s'.outsize1 = s.outsize1
  bits : s'.bits = s.bits
  ids : ∀ i, i ∈ ones s'.outsize3 s'.bits2 ↔ HasPart ext me tp c i
  nonempty : s'.outsize3 ≠ 0 → (ones s'.outsize3 s'.bits2).Nonempty

theorem OrPattern.joinComponent (hor : OrPattern ext me tp) (h : SearchInv ext me tp done s) {u : Search}
    (hme : u.me = s.me) (htp : ∀ c', c' ≠ c → u.tp.list c' = s.tp.list c') (hout : u.outsize1 = s.outsize1)
    (hbits : u.bits = s.bits) :
    Joined ext me tp c s (joinComponent ext c.table (tp.list c).operator (partKeys ext tp c) u) := by
  have hindex : u.me.index c.table = me.index c.table := by rw [hme, h.index]
  obtain ⟨hids, hne⟩ := hor.joinParts c u.bits2 u.bits1 u.me.bitsDecode rfl
  rw [← hindex] at hids hne
  refine ⟨?_, ?_, htp, hout, hbits, hids, hne⟩
  · show u.me.index = s.me.index
    rw [hme]
  · show u.me.freetext = s.me.freetext
    rw [hme]

/-- No id under a component means no match. -/
theorem not_matches_of_none (hnn : (tp.list c).isNull = false) (hnone : ∀ i, ¬ HasPart ext me tp c i) (i : Nat) :
    ¬ Matches ext me tp (done ++ [c]) i :=
  fun hm => hnone i ((matches_append.1 hm).2 hnn)

/-- The AND with the components before. -/
theorem Joined.andBefore (h : SearchInv ext me tp done s) (hnn : (tp.list c).isNull = false)
    (hsome : ∃ c ∈ done, (tp.list c).isNull = false) {s' : Search} (hj : Joined ext me tp c s s') :
    Advances ext me tp done c (andBefore s') := by
  obtain ⟨-, hbits⟩ := h.joined hsome
  have hand : ∀ i, i ∈ ones s'.outsize1 s'.bits ∩ ones s'.outsize3 s'.bits2 ↔
      Matches ext me tp done i ∧ HasPart ext me tp c i := by
    intro i
    rw [Finset.mem_inter, hj.ids, hj.outsize1, hj.bits, hbits]
  unfold RdfStore.andBefore
  simp only
  split
  · next hz =>
    rw [rdfstoreBitsShorten_eq_zero_iff, ones_rdfstoreBitsAnd] at hz
    intro i hm
    have hmem := (hand i).2 ((matches_append.1 hm).imp_right fun hp => hp hnn)
    rw [hz] at hmem
    simp at hmem
  · next hz =>
    refine h.join hnn hj.index hj.freetext hj.rest (Nat.pos_of_ne_zero hz) fun i => ?_
    rw [← hand]
    simp only [ones_copyBytes, ones_rdfstoreBitsShorten, ones_rdfstoreBitsAnd]

/-- The first component takes the place of the empty bitmap. -/
theorem Joined.seed (h : SearchInv ext me tp done s) (hnn : (tp.list c).isNull = false)
    (hnone : ∀ c ∈ done, (tp.list c).isNull = true) {s' s'' : Search} (hj : Joined ext me tp c s s')
    (hindex : s''.me.index = s'.me.index) (hfree : s''.me.freetext = s'.me.freetext) (htp : s''.tp = s'.tp)
    (hpos : 0 < s''.outsize1) (hids : ones s''.outsize1 s''.bits = ones s'.outsize3 s'.bits2) :
    SearchInv ext me tp (done ++ [c]) s'' := by
  refine h.join hnn (hindex.trans hj.index) (hfree.trans hj.freetext) (fun c' hc' => ?_) hpos fun i => ?_
  · rw [htp]
    exact hj.rest c' hc'
  · rw [hids, hj.ids]
    refine (and_iff_right fun c' hc' hn => ?_).symm
    rw [hnone c' hc'] at hn
    cases hn

/-- Either all components before were NULL or the bitmap has a length. -/
theorem SearchInv.cases (h : SearchInv ext me tp done s) :
    ((∀ c ∈ done, (tp.list c).isNull = true) ∧ s.outsize1 = 0 ∧ s.bits = fun _ => 0) ∨
      ((∃ c ∈ done, (tp.list c).isNull = false) ∧ 0 < s.outsize1) := by
  by_cases hall : ∀ c ∈ done, (tp.list c).isNull = true
  · exact Or.inl ⟨hall, h.nothing hall⟩
  · have hsome : ∃ c ∈ done, (tp.list c).isNull = false := by simpa using hall
    exact Or.inr ⟨hsome, (h.joined hsome).1⟩

theorem OrPattern.searchComponent (hor : OrPattern ext me tp) (h : SearchInv ext me tp done s)
    (hnn : (tp.list c).isNull = false) {s₁ : Search} (hme : s₁.me = s.me)
    (htp : ∀ c', c' ≠ c → s₁.tp.list c' = s.tp.list c') (hout : s₁.outsize1 = s.outsize1)
    (hbits : s₁.bits = s.bits) :
    Advances ext me tp done c
      (searchComponent ext c.table (tp.list c).operator (partKeys ext tp c) s₁) := by
  have hj := hor.joinComponent h hme htp hout hbits
  unfold RdfStore.searchComponent
  generalize RdfStore.joinComponent ext c.table (tp.list c).operator (partKeys ext tp c) s₁ = s' at hj
  simp only
  split
  · next hz =>
    refine not_matches_of_none hnn fun i hp => ?_
    rw [← hj.ids, hz, ones_zero] at hp
    simp at hp
  · next hz =>
    rcases h.cases with ⟨hnone, hout1, hbits0⟩ | ⟨hsome, hpos⟩
    · -- nothing before: the component is the first
      rw [if_neg (by rw [hj.outsize1]; omega)]
      have hzero : ones s'.outsize3 s'.bits = ∅ := by
        rw [hj.bits, hbits0]
        exact ones_eq_empty_iff.2 fun _ _ => rfl
      have hor' := ones_rdfstoreBitsOr s'.outsize3 s'.bits s'.outsize3 s'.bits2 s'.bits1
      rw [hzero, Finset.empty_union] at hor'
      have hlen : (rdfstoreBitsOr s'.outsize3 s'.bits s'.outsize3 s'.bits2 s'.bits1).1 ≠ 0 := by
        intro hlen
        rw [hlen, ones_zero] at hor'
        exact (hj.nonempty hz).ne_empty hor'.symm
      have hle : (rdfstoreBitsOr s'.outsize3 s'.bits s'.outsize3 s'.bits2 s'.bits1).1 ≤ s'.outsize3 := by
        have := bitsLoop_len_le (fun i => byteAt s'.outsize3 s'.bits i ||| byteAt s'.outsize3 s'.bits2 i)
          (max s'.outsize3 s'.outsize3) s'.bits1
        simpa [rdfstoreBitsOr] using this
      refine Joined.seed h hnn hnone hj rfl rfl rfl (Nat.pos_of_ne_zero hlen) ?_
      rw [← hor']
      exact ones_congr fun k hk => if_pos (lt_of_lt_of_le hk hle)
    · rw [if_pos (by rw [hj.outsize1]; exact hpos)]
      exact Joined.andBefore h hnn hsome hj

theorem OrPattern.searchWords (hor : OrPattern ext me tp) (h : SearchInv ext me tp [] s) :
    Advances ext me tp [] .words (searchWords ext s) := by
  have hlist : s.tp.words = tp.words := h.rest .words (by simp)
  obtain ⟨hout, hbits⟩ := h.nothing (by simp)
  unfold RdfStore.searchWords
  simp only [hlist, h.freetext]
  by_cases hnull : tp.words.isNull = true
  · rw [if_neg (by simp [hnull])]
    exact h.skip hnull
  · have hnn : (tp.list .words).isNull = false := Bool.eq_false_iff.2 hnull
    rw [if_pos (by simp [hnull, hor.words (Bool.eq_false_iff.2 hnull)])]
    obtain ⟨hids, -⟩ := hor.joinParts .words s.bits s.bits1 s.me.bitsDecode rfl
    rw [← hout, ← h.index] at hids
    generalize hj : RdfStore.joinParts ext (tp.list .words).operator (s.me.index Component.words.table)
      (partKeys ext tp .words) ⟨s.outsize1, s.bits, s.bits1, s.me.bitsDecode⟩ = j at hids
    have hj' : RdfStore.joinParts ext tp.words.operator (s.me.index .windex) (tp.words.parts.map (Part.key ext))
      ⟨s.outsize1, s.bits, s.bits1, s.me.bitsDecode⟩ = j := hj
    rw [hj']
    split
    · next hz =>
      refine not_matches_of_none hnn fun i hp => ?_
      rw [← hids, Join.ids, hz, ones_zero] at hp
      simp at hp
    · next hz =>
      refine h.join hnn rfl h.freetext.symm (fun _ _ => rfl) (Nat.pos_of_ne_zero hz) fun i => ?_
      exact (hids i).trans (and_iff_right fun c hc => by simp at hc).symm

theorem OrPattern.searchContexts (hor : OrPattern ext me tp) (h : SearchInv ext me tp done s)
    (hdone : .contexts ∉ done) : Advances ext me tp done .contexts (searchContexts ext s) := by
  have hlist : s.tp.contexts = tp.contexts := h.rest .contexts hdone
  unfold RdfStore.searchContexts
  simp only [hlist]
  split
  · next hnull => exact h.skip hnull
  · next hnull =>
    have hnn : (tp.list .contexts).isNull = false := Bool.eq_false_iff.2 hnull
    have hj := hor.joinComponent (c := .contexts)
      (u := { s with tp := { s.tp with contexts := tp.contexts.cacheHashes ext } }) h rfl
      (fun c' hc' => by cases c' <;> first | rfl | exact absurd rfl hc') rfl rfl
    generalize hs' : RdfStore.joinComponent ext Component.contexts.table (tp.list .contexts).operator
      (partKeys ext tp .contexts) { s with tp := { s.tp with contexts := tp.contexts.cacheHashes ext } } = s' at hj
    have hs'' : RdfStore.joinComponent ext .contexts tp.contexts.operator (tp.contexts.parts.map (Part.key ext))
      { s with tp := { s.tp with contexts := tp.contexts.cacheHashes ext } } = s' := hs'
    rw [hs'']
    split
    · next hz =>
      refine not_matches_of_none hnn fun i hp => ?_
      rw [← hj.ids, hz, ones_zero] at hp
      simp at hp
    · next hz =>
      rcases h.cases with ⟨hnone, hout1, -⟩ | ⟨hsome, hpos⟩
      · rw [if_neg (by rw [hj.outsize1]; omega)]
        exact Joined.seed h hnn hnone hj rfl rfl rfl (Nat.pos_of_ne_zero hz) (ones_copyBytes _ _ _)
      · rw [if_pos (by rw [hj.outsize1]; exact hpos)]
        exact Joined.andBefore h hnn hsome hj

/-! ## The whole search -/

/-- A step after the ones before. -/
theorem Advances.bind {c' : Component} {r : Except Search Search} {f : Search → Except Search Search}
    (h : Advances ext me tp done c r)
    (hf : ∀ s, SearchInv ext me tp (done ++ [c]) s → Advances ext me tp (done ++ [c]) c' (f s)) :
    Advances ext me tp (done ++ [c]) c' (r >>= f) := by
  cases r with
  | ok s => exact hf s h
  | error s => exact fun i hm => h i (matches_append.1 hm).1

/-- The five components that are searched alike. -/
theorem OrPattern.searchAlike (hor : OrPattern ext me tp) {c : Component} {f : Search → Except Search Search}
    (cache : Search → Search) (hcache : ∀ s : Search, (cache s).me = s.me ∧
      (∀ c', c' ≠ c → (cache s).tp.list c' = s.tp.list c') ∧ (cache s).outsize1 = s.outsize1 ∧
      (cache s).bits = s.bits)
    (hf : ∀ s : Search, s.tp.list c = tp.list c → f s = if (tp.list c).isNull then .ok s else
      RdfStore.searchComponent ext c.table (tp.list c).operator (partKeys ext tp c) (cache s))
    (hdone : c ∉ done) (h : SearchInv ext me tp done s) : Advances ext me tp done c (f s) := by
  rw [hf s (h.rest c hdone)]
  split
  · next hnull => exact h.skip hnull
  · next hnull =>
    obtain ⟨hme, htp, hout, hbits⟩ := hcache s
    exact hor.searchComponent h (Bool.eq_false_iff.2 hnull) hme htp hout hbits

theorem OrPattern.searchSubjects (hor : OrPattern ext me tp) (hdone : .subjects ∉ done)
    (h : SearchInv ext me tp done s) : Advances ext me tp done .subjects (searchSubjects ext s) := by
  refine hor.searchAlike (fun s => { s with tp := { s.tp with subjects := s.tp.subjects.cacheHashes ext } })
    (fun s => ⟨rfl, fun c' hc' => ?_, rfl, rfl⟩) (fun s hs => ?_) hdone h
  · cases c' <;> first | rfl | exact absurd rfl hc'
  · simp only [TriplePattern.list] at hs
    simp only [RdfStore.searchSubjects, hs, TriplePattern.list, Component.table, partKeys]

theorem OrPattern.searchPredicates (hor : OrPattern ext me tp) (hdone : .predicates ∉ done)
    (h : SearchInv ext me tp done s) : Advances ext me tp done .predicates (searchPredicates ext s) := by
  refine hor.searchAlike (fun s => { s with tp := { s.tp with predicates := s.tp.predicates.cacheHashes ext } })
    (fun s => ⟨rfl, fun c' hc' => ?_, rfl, rfl⟩) (fun s hs => ?_) hdone h
  · cases c' <;> first | rfl | exact absurd rfl hc'
  · simp only [TriplePattern.list] at hs
    simp only [RdfStore.searchPredicates, hs, TriplePattern.list, Component.table, partKeys]

theorem OrPattern.searchObjects (hor : OrPattern ext me tp) (hdone : .objects ∉ done)
    (h : SearchInv ext me tp done s) : Advances ext me tp done .objects (searchObjects ext s) := by
  refine hor.searchAlike (fun s => { s with tp := { s.tp with objects := s.tp.objects.cacheHashes ext } })
    (fun s => ⟨rfl, fun c' hc' => ?_, rfl, rfl⟩) (fun s hs => ?_) hdone h
  · cases c' <;> first | rfl | exact absurd rfl hc'
  · simp only [TriplePattern.list] at hs
    simp only [RdfStore.searchObjects, hs, TriplePattern.list, Component.table, partKeys]

theorem OrPattern.searchLangs (hor : OrPattern ext me tp) (hdone : .langs ∉ done)
    (h : SearchInv ext me tp done s) : Advances ext me tp done .langs (searchLangs ext s) := by
  refine hor.searchAlike id (fun s => ⟨rfl, fun _ _ => rfl, rfl, rfl⟩) (fun s hs => ?_) hdone h
  simp only [TriplePattern.list] at hs
  simp only [RdfStore.searchLangs, hs, TriplePattern.list, Component.table, partKeys]
  rfl

theorem OrPattern.searchDts (hor : OrPattern ext me tp) (hdone : .dts ∉ done)
    (h : SearchInv ext me tp done s) : Advances ext me tp done .dts (searchDts ext s) := by
  refine hor.searchAlike id (fun s => ⟨rfl, fun _ _ => rfl, rfl, rfl⟩) (fun s hs => ?_) hdone h
  simp only [TriplePattern.list] at hs
  simp only [RdfStore.searchDts, hs, TriplePattern.list, Component.table, partKeys]
  rfl

/-- The buffers of a search that has not begun. -/
def Search.start (me : Store) (tp : TriplePattern) : Search :=
  ⟨me, tp, fun _ => 0, fun _ => 0, fun _ => 0, 0, 0⟩

theorem OrPattern.searchComponents (hor : OrPattern ext me tp) :
    match searchComponents ext (Search.start me tp) with
    | .error _ => ∀ i, ¬ Matches ext me tp Component.all i
    | .ok s => SearchInv ext me tp Component.all s := by
  have hstart : SearchInv ext me tp [] (Search.start me tp) :=
    ⟨rfl, rfl, fun _ _ => rfl, fun _ => ⟨rfl, rfl⟩, fun ⟨_, hc, _⟩ => by simp at hc⟩
  have hwords := hor.searchWords hstart
  have hsubjects := hwords.bind fun s h => hor.searchSubjects (by decide) h
  have hpredicates := hsubjects.bind fun s h => hor.searchPredicates (by decide) h
  have hobjects := hpredicates.bind fun s h => hor.searchObjects (by decide) h
  have hlangs := hobjects.bind fun s h => hor.searchLangs (by decide) h
  have hdts := hlangs.bind fun s h => hor.searchDts (by decide) h
  have hcontexts := hdts.bind fun s h => hor.searchContexts h (by decide)
  simp only [bind_assoc] at hcontexts
  exact hcontexts

/-- A search with OR lists over proper entries finds the ids in the union of every component,
and counts them. -/
theorem rdfstoreSearch_or (hor : OrPattern ext me tp) (hne : tp.isEmpty = false) :
    ∃ it me' tp', rdfstoreSearch ext me (some tp) = .found it me' tp' ∧
      (∀ i, i ∈ ones it.idsSize it.ids ↔ Matches ext me tp Component.all i) ∧
      it.size = (ones it.idsSize it.ids).card := by
  have hsome : ∃ c ∈ Component.all, (tp.list c).isNull = false := by
    by_contra hall
    have hnull : ∀ c, (tp.list c).isNull = true := by
      intro c
      by_contra hc
      exact hall ⟨c, by cases c <;> decide, Bool.eq_false_iff.2 hc⟩
    have h1 := hnull .words
    have h2 := hnull .subjects
    have h3 := hnull .predicates
    have h4 := hnull .objects
    have h5 := hnull .langs
    have h6 := hnull .dts
    have h7 := hnull .contexts
    simp only [TriplePattern.list] at h1 h2 h3 h4 h5 h6 h7
    simp [TriplePattern.isEmpty, h1, h2, h3, h4, h5, h6, h7] at hne
  have hboth : (me.freetext && !tp.words.isNull && !tp.objects.isNull) = false := by
    rcases hor.objects with h | h <;> simp [h]
  have hcomp := hor.searchComponents
  unfold rdfstoreSearch
  simp only [hor.check, Bool.not_true, hboth, hne, Bool.false_eq_true, if_false]
  rw [Search.start] at hcomp
  cases hs : RdfStore.searchComponents ext ⟨me, tp, fun _ => 0, fun _ => 0, fun _ => 0, 0, 0⟩ with
  | error s =>
    rw [hs] at hcomp
    exact ⟨_, _, _, rfl, fun i => by simpa [Iterator.empty] using hcomp i, by simp [Iterator.empty]⟩
  | ok s =>
    rw [hs] at hcomp
    refine ⟨_, _, _, rfl, fun i => ?_, ?_⟩
    · rw [ones_copyBytes]
      exact (hcomp.joined hsome).2 i
    · rw [ones_copyBytes, countBits_eq]

end

end

/-! ## An entry without ids -/

/-- The pattern with one subject and one predicate. -/
def subjectPredicate (s p : Resource) : TriplePattern where
  subjects := ⟨[.resourceNode (.resource s)], 0⟩
  predicates := ⟨[.resourceNode (.resource p)], 0⟩
  objects := ⟨[], 0⟩
  contexts := ⟨[], 0⟩
  langs := ⟨[], 0⟩
  dts := ⟨[], 0⟩
  words := ⟨[], 0⟩

/-- A store with one key in two tables: `entry` under a subject, the id 0 under a predicate. -/
def twoEntryStore (entry : Bytes) (s p : Resource) : Store :=
  ((rdfstoreConnect false false []).putEntry .subjects (nodeKey asciiExternals (.resource s)) (some entry)).putEntry
    .predicates (nodeKey asciiExternals (.resource p)) (some [1])

/-- The ids of a result. -/
def SearchResult.ids : SearchResult → Finset Nat
  | .found it _ _ => ones it.idsSize it.ids
  | _ => ∅

/-- A zero byte under the subject: no id is stored there, and the search finds the id of the
predicate. -/
theorem rdfstoreSearch_zero_entry :
    (rdfstoreSearch asciiExternals (twoEntryStore [0] (uri 97) (uri 98))
        (some (subjectPredicate (uri 97) (uri 98)))).ids = {0} ∧
      ids asciiExternals (twoEntryStore [0] (uri 97) (uri 98)) .subjects
        (nodeKey asciiExternals (.resource (uri 97))) = ∅ := by
  decide +kernel

theorem fetch_twoEntryStore {entry : Bytes} {s p : Resource} {t : Index} {k data : Bytes}
    (h : rdfstoreFlatStoreFetch ((twoEntryStore entry s p).index t) k = some data) :
    data = entry ∨ data = [1] := by
  unfold twoEntryStore Store.putEntry at h
  rw [setTable_index] at h
  split at h
  · rw [fetch_store] at h
    split at h
    · exact Or.inr (Option.some.inj h).symm
    · rw [setTable_index, if_neg (by decide)] at h
      simp [rdfstoreConnect] at h
  · rw [setTable_index] at h
    split at h
    · rw [fetch_store] at h
      split at h
      · exact Or.inl (Option.some.inj h).symm
      · simp [rdfstoreConnect] at h
    · simp [rdfstoreConnect] at h

/-- With an id under the subject as well. -/
theorem rdfstoreSearch_or_two_entries :
    ∃ it me' tp', rdfstoreSearch asciiExternals (twoEntryStore [1] (uri 97) (uri 98))
        (some (subjectPredicate (uri 97) (uri 98))) = .found it me' tp' ∧
      (∀ i, i ∈ ones it.idsSize it.ids ↔ Matches asciiExternals (twoEntryStore [1] (uri 97) (uri 98))
        (subjectPredicate (uri 97) (uri 98)) Component.all i) ∧
      it.size = (ones it.idsSize it.ids).card := by
  refine rdfstoreSearch_or ⟨rfl, fun c => by cases c <;> rfl, fun c k _ data hdata => Or.inr ?_,
    nofun, Or.inl rfl⟩ rfl
  rcases fetch_twoEntryStore hdata with rfl | rfl <;> exact ⟨0, by decide⟩

end RdfStore
