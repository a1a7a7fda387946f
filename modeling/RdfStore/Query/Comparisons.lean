import RdfStore.Query.Ranges

/-!
# What ranges describe

The range in a search hash is compared with the comparison patterns it was made
of, under every meaning of a single comparison.

    exactly the comparisons, or not          (ranges_describe_iff)
-/

namespace RdfStore.Query

open ByteMem

/-! ## Conditions on comparisons -/

/-- A variable of the triple pattern is compared with a constant, which is neither empty nor 0. -/
def OneSided (ops : Bytes) (parts : List Bytes) (c : Comparison) : Prop :=
  ∃ v o s, sided ops parts c = some (v, some (o, s)) ∧ isVariable s = false ∧ isTrueText s = true

/-- The last position of the variable is that of the object. -/
def OnObject (parts : List Bytes) (v : Bytes) : Prop := (parts.zipIdx.reverse.find? fun e => e.1 = v).map (·.2) = some 2

/-- The comparisons with their constants, as seen from the variable. -/
def comparedWith (ops : Bytes) (parts : List Bytes) (comparisons : List Comparison) : Collected :=
  comparisons.filterMap fun c => (sided ops parts c).bind (·.2)

/-- Behind the first comparison, or behind the first two where they are a lower and an upper bound, there are only
the same ones again; where the upper bound is first, the last two constants are theirs. -/
def Covered : Collected → Prop
  | [] => True
  | [_] => True
  | c :: d :: rest =>
    match pairOf c.1 d.1 with
    | none => ∀ e ∈ d :: rest, e = c
    | some (reversed, _) =>
      (∀ e ∈ rest, e = c ∨ e = d) ∧ (reversed = true → [c.2, d.2] <:+ (c :: d :: rest).map (·.2))

/-! ## One variable -/

/-- The comparisons that the range of a variable stands for. -/
def described : Collected → Collected
  | [] => []
  | [c] => [c]
  | c :: d :: rest =>
    match pairOf c.1 d.1 with
    | none => [c]
    | some (false, _) => [c, d]
    | some (true, _) =>
      match ((c :: d :: rest).map (·.2)).reverse with
      | a :: b :: _ => [(d.1, a), (c.1, b)]
      | _ => []

theorem pairOf_ne {c d : Comparator} {p : Bool × RangesOperator} (h : pairOf c d = some p) : c ≠ d := by
  rintro rfl
  cases c <;> cases h

theorem mem_described_iff {l : Collected} (h : Covered l) (e : Comparator × Bytes) : e ∈ described l ↔ e ∈ l := by
  match l, h with
  | [], _ => rfl
  | [c], _ => rfl
  | c :: d :: rest, h =>
    rw [Covered] at h
    rw [described]
    cases hpair : pairOf c.1 d.1 with
    | none =>
      rw [hpair] at h
      simp only at h ⊢
      constructor
      · intro he
        cases List.mem_singleton.1 he
        exact List.mem_cons_self
      · intro he
        rcases List.mem_cons.1 he with rfl | he
        · exact List.mem_singleton_self _
        · exact List.mem_singleton.2 (h e he)
    | some p =>
      obtain ⟨reversed, operator⟩ := p
      rw [hpair] at h
      obtain ⟨hrest, hlast⟩ := h
      have hmem : e ∈ c :: d :: rest ↔ e = c ∨ e = d := by
        rw [List.mem_cons, List.mem_cons]
        constructor
        · rintro (rfl | rfl | he)
          · exact Or.inl rfl
          · exact Or.inr rfl
          · exact hrest e he
        · rintro (rfl | rfl)
          · exact Or.inl rfl
          · exact Or.inr (Or.inl rfl)
      rw [hmem]
      cases reversed with
      | false => simp
      | true =>
        obtain ⟨before, hbefore⟩ := hlast rfl
        have hreverse : ((c :: d :: rest).map (·.2)).reverse = d.2 :: c.2 :: before.reverse := by
          rw [← hbefore]
          simp
        simp only [hreverse, List.mem_cons, List.not_mem_nil, or_false]
        exact or_comm

/-- The comparisons it stands for are all of them only when they are covered. -/
theorem covered_of_mem {l : Collected} (h : ∀ e, e ∈ described l ↔ e ∈ l) : Covered l := by
  match l, h with
  | [], _ => trivial
  | [c], _ => trivial
  | c :: d :: rest, h =>
    rw [Covered]
    simp only [described] at h
    cases hpair : pairOf c.1 d.1 with
    | none =>
      rw [hpair] at h
      intro e he
      exact List.mem_singleton.1 ((h e).2 (List.mem_cons_of_mem _ he))
    | some p =>
      obtain ⟨reversed, operator⟩ := p
      simp only [hpair] at h ⊢
      cases reversed with
      | false =>
        refine ⟨fun e he => ?_, fun hfalse => absurd hfalse Bool.false_ne_true⟩
        have := (h e).2 (List.mem_cons_of_mem _ (List.mem_cons_of_mem _ he))
        simpa using this
      | true =>
        have hlength : 2 ≤ ((c :: d :: rest).map (·.2)).reverse.length := by simp
        cases hreverse : ((c :: d :: rest).map (·.2)).reverse with
        | nil => rw [hreverse] at hlength; simp at hlength
        | cons a t =>
          cases t with
          | nil => rw [hreverse] at hlength; simp at hlength
          | cons b before =>
            rw [hreverse] at h
            simp only [List.mem_cons, List.not_mem_nil, or_false] at h
            have hne := pairOf_ne hpair
            have hc : c = (c.1, b) := by
              rcases (h c).2 (Or.inl rfl) with hc | hc
              · exact absurd (congrArg Prod.fst hc) hne
              · exact hc
            have hd : d = (d.1, a) := by
              rcases (h d).2 (Or.inr (Or.inl rfl)) with hd | hd
              · exact hd
              · exact absurd (congrArg Prod.fst hd).symm hne
            refine ⟨fun e he => ?_, fun _ => ⟨before.reverse, ?_⟩⟩
            · rcases (h e).2 (Or.inr (Or.inr he)) with he | he
              · exact Or.inr (he.trans hd.symm)
              · exact Or.inl (he.trans hc.symm)
            · have hall := congrArg List.reverse hreverse
              rw [List.reverse_reverse] at hall
              rw [hall, hc, hd]
              simp

/-- One of the two is the lower bound, the other one the upper. -/
theorem pairOf_bounds {c d : Comparator} {reversed : Bool} {operator : RangesOperator}
    (h : pairOf c d = some (reversed, operator)) :
    ∃ lower upper, operator = .two lower upper ∧
      (if reversed then d else c) = (if lower then .greaterEqual else .greater) ∧
      (if reversed then c else d) = (if upper then .lessEqual else .less) := by
  cases c <;> cases d <;> cases h <;> exact ⟨_, _, rfl, rfl, rfl⟩

/-- The store reads the range of one variable as the comparisons it stands for. -/
theorem combineRange_meaning (R : RangeReading) {l : Collected} (htrue : ∀ e ∈ l, isTrueText e.2 = true) {q : RangesQuery}
    (hq : combineRange ⟨[], none⟩ l = some q) {m : Node → Prop} (hm : q.meaning R = some m) (n : Node) :
    m n ↔ ∀ d ∈ described l, R.test d.1 d.2 n := by
  have hvals : (l.map Prod.snd).filter isTrueText = l.map Prod.snd := by
    rw [List.filter_eq_self]
    intro s hs
    obtain ⟨e, he, rfl⟩ := List.mem_map.1 hs
    exact htrue e he
  have hreverse : (l.map Prod.snd).reverse.filter isTrueText = (l.map Prod.snd).reverse := by
    rw [List.filter_reverse, hvals]
  match l, hq with
  | [c], hq =>
    cases hq
    simp only [RangesQuery.meaning, List.nil_append] at hm
    rw [hvals] at hm
    simp only [List.map_cons, List.map_nil] at hm
    obtain ⟨kind, -, hm⟩ := Option.bind_eq_some_iff.1 hm
    cases hm
    simp [described]
  | c :: d :: rest, hq =>
    simp only [combineRange, List.head?_cons, Option.bind_some, List.nil_append] at hq
    rw [described]
    cases hpair : pairOf c.1 d.1 with
    | none =>
      rw [hpair] at hq
      cases hq
      simp only [RangesQuery.meaning] at hm
      rw [hvals] at hm
      simp only [List.map_cons] at hm
      obtain ⟨kind, -, hm⟩ := Option.bind_eq_some_iff.1 hm
      cases hm
      simp
    | some p =>
      obtain ⟨reversed, operator⟩ := p
      obtain ⟨lower, upper, rfl, hlower, hupper⟩ := pairOf_bounds hpair
      rw [hpair] at hq
      cases hq
      simp only [RangesQuery.meaning] at hm
      cases reversed with
      | false =>
        simp only [Bool.false_eq_true, if_false] at hm hlower hupper
        rw [hvals] at hm
        simp only [List.map_cons] at hm
        obtain ⟨kind, -, hm⟩ := Option.bind_eq_some_iff.1 hm
        split at hm
        · cases hm
          simp [hlower, hupper]
        · cases hm
      | true =>
        simp only [if_true] at hm hlower hupper
        rw [hreverse] at hm
        have hlength : 2 ≤ ((c :: d :: rest).map Prod.snd).reverse.length := by simp
        cases hlist : ((c :: d :: rest).map Prod.snd).reverse with
        | nil => rw [hlist] at hlength; simp at hlength
        | cons a t =>
          cases t with
          | nil => rw [hlist] at hlength; simp at hlength
          | cons b before =>
            rw [hlist] at hm
            obtain ⟨kind, -, hm⟩ := Option.bind_eq_some_iff.1 hm
            simp only at hm ⊢
            by_cases hkind : R.reads kind b = true
            · rw [if_pos hkind] at hm
              cases hm
              simp [hlower, hupper]
            · rw [if_neg hkind] at hm
              cases hm

/-! ## Entries -/

theorem pushRange_ne_nil {key : Bytes} {e : Comparator × Bytes} {ranges : List (Bytes × Collected)}
    (h : ∀ r ∈ ranges, r.2 ≠ []) : pushRange key (some e) ranges ≠ [] ∧ ∀ r ∈ pushRange key (some e) ranges, r.2 ≠ [] := by
  rw [pushRange]
  split
  · rename_i hkey
    refine ⟨fun hnil => ?_, fun r hr => ?_⟩
    · rw [List.map_eq_nil_iff] at hnil
      simp [hnil] at hkey
    · obtain ⟨r', hr', rfl⟩ := List.mem_map.1 hr
      split
      · simp
      · exact h r' hr'
  · refine ⟨by simp, fun r hr => ?_⟩
    rcases List.mem_append.1 hr with hr | hr
    · exact h r hr
    · cases List.mem_singleton.1 hr
      simp

theorem pushRange_texts {p : Bytes → Prop} {key : Bytes} {e : Comparator × Bytes} {ranges : List (Bytes × Collected)}
    (he : p e.2) (h : ∀ r ∈ ranges, ∀ d ∈ r.2, p d.2) : ∀ r ∈ pushRange key (some e) ranges, ∀ d ∈ r.2, p d.2 := by
  intro r hr d hd
  rw [pushRange] at hr
  split at hr
  · obtain ⟨r', hr', rfl⟩ := List.mem_map.1 hr
    split at hd
    · rcases List.mem_append.1 hd with hd | hd
      · exact h r' hr' d hd
      · cases List.mem_singleton.1 hd
        exact he
    · exact h r' hr' d hd
  · rcases List.mem_append.1 hr with hr | hr
    · exact h r hr d hd
    · cases List.mem_singleton.1 hr
      cases List.mem_singleton.1 hd
      exact he

/-- The variables have comparisons, with constants that are handed over. -/
structure Filled (ranges : List (Bytes × Collected)) : Prop where
  nonempty : ∀ r ∈ ranges, r.2 ≠ []
  texts : ∀ r ∈ ranges, ∀ d ∈ r.2, isTrueText d.2 = true

theorem collectRanges_concat (ops : Bytes) (parts : List Bytes) (comparisons : List Comparison) (c : Comparison) :
    collectRanges ops parts (comparisons ++ [c]) =
      match sided ops parts c with
      | some (key, e) => pushRange key e (collectRanges ops parts comparisons)
      | none => collectRanges ops parts comparisons := by
  unfold collectRanges
  exact List.foldl_append

theorem collectRanges_filled {ops : Bytes} {parts : List Bytes} {comparisons : List Comparison}
    (h : ∀ c ∈ comparisons, OneSided ops parts c) :
    Filled (collectRanges ops parts comparisons) ∧ (comparisons ≠ [] → collectRanges ops parts comparisons ≠ []) := by
  induction comparisons using List.reverseRecOn with
  | nil => exact ⟨⟨by simp [collectRanges], by simp [collectRanges]⟩, fun hne => absurd rfl hne⟩
  | append_singleton comparisons c ih =>
    obtain ⟨⟨hnonempty, htexts⟩, -⟩ := ih fun d hd => h d (List.mem_append_left _ hd)
    obtain ⟨v, o, s, hsided, -, htrue⟩ := h c (by simp)
    rw [collectRanges_concat, hsided]
    obtain ⟨hne, hall⟩ := @pushRange_ne_nil v (o, s) _ hnonempty
    exact ⟨⟨hall, pushRange_texts (p := fun s => isTrueText s = true) htrue htexts⟩, fun _ => hne⟩

/-- Comparisons of one variable are in one entry, in their order. -/
theorem collectRanges_one {ops : Bytes} {parts : List Bytes} {comparisons : List Comparison} {v : Bytes}
    (h : ∀ c ∈ comparisons, ∃ a, sided ops parts c = some (v, some a)) (hne : comparisons ≠ []) :
    collectRanges ops parts comparisons = [(v, comparedWith ops parts comparisons)] := by
  induction comparisons using List.reverseRecOn with
  | nil => exact absurd rfl hne
  | append_singleton comparisons c ih =>
    obtain ⟨a, ha⟩ := h c (by simp)
    have hlast : comparedWith ops parts (comparisons ++ [c]) = comparedWith ops parts comparisons ++ [a] := by
      simp [comparedWith, ha]
    rw [collectRanges_concat, ha, hlast]
    by_cases hnil : comparisons = []
    · subst hnil
      rfl
    · simp only [ih (fun d hd => h d (List.mem_append_left _ hd)) hnil, pushRange, List.map_cons, List.map_nil,
        List.mem_singleton, if_true, Option.toList_some]

/-! ## All comparisons -/

/-- Ranges that are handed over with as many bounds as the operator takes. -/
structure Readable (q : RangesQuery) : Prop where
  texts : ∀ s ∈ q.ranges, isTrueText s = true
  ranges : q.ranges ≠ []
  operator : q.operator ≠ none
  two : ∀ lower upper, q.operator = some (.two lower upper) → 2 ≤ q.ranges.length

theorem combineRange_readable {q : RangesQuery} {e : Collected} (hq : ∀ s ∈ q.ranges, isTrueText s = true) (he : e ≠ [])
    (htrue : ∀ d ∈ e, isTrueText d.2 = true) : ∃ q', combineRange q e = some q' ∧ Readable q' := by
  have hvals : ∀ s ∈ e.map Prod.snd, isTrueText s = true := by
    intro s hs
    obtain ⟨d, hd, rfl⟩ := List.mem_map.1 hs
    exact htrue d hd
  obtain ⟨c, rest, rfl⟩ := List.exists_cons_of_ne_nil he
  rw [combineRange]
  cases hpair : rest.head?.bind fun d => pairOf c.1 d.1 with
  | none =>
    refine ⟨_, rfl, fun s hs => ?_, by simp, by simp, fun lower upper hoperator => by cases hoperator⟩
    exact (List.mem_append.1 hs).elim (hq s) (hvals s)
  | some p =>
    obtain ⟨reversed, operator⟩ := p
    obtain ⟨d, hd, -⟩ := Option.bind_eq_some_iff.1 hpair
    have hrest : 1 ≤ rest.length := List.length_pos_of_mem (List.mem_of_head? hd)
    refine ⟨_, rfl, fun s hs => ?_, ?_, by simp, fun lower upper _ => ?_⟩
    · refine (List.mem_append.1 hs).elim (hq s) fun hs => hvals s ?_
      cases reversed
      · exact hs
      · exact List.mem_reverse.1 hs
    · cases reversed <;> simp
    · cases reversed <;> simp <;> omega

theorem combineRanges_readable {entries : List (Bytes × Collected)} (h : Filled entries) (hne : entries ≠ [])
    {q : RangesQuery} (hq : ∀ s ∈ q.ranges, isTrueText s = true) :
    ∃ q', combineRanges q entries = some q' ∧ Readable q' := by
  induction entries generalizing q with
  | nil => exact absurd rfl hne
  | cons e entries ih =>
    obtain ⟨hnonempty, htexts⟩ := h
    rw [List.forall_mem_cons] at hnonempty htexts
    obtain ⟨q', hq', hreadable⟩ := combineRange_readable hq hnonempty.1 htexts.1
    rw [combineRanges, hq', Option.bind_some]
    by_cases hnil : entries = []
    · subst hnil
      exact ⟨q', rfl, hreadable⟩
    · exact ih ⟨hnonempty.2, htexts.2⟩ hnil hreadable.texts

/-- Where every text is read, the search is not refused, and finds what passes every single comparison. -/
theorem Readable.meaning {q : RangesQuery} (h : Readable q) {R : RangeReading} (hreads : ∀ k s, R.reads k s = true) :
    ∃ m, q.meaning R = some m ∧ ∀ n, (∀ c s, R.test c s n) → m n := by
  have hkind : ∀ s, R.kind s = some 0 := fun s => by simp [RangeReading.kind, hreads]
  rw [RangesQuery.meaning, List.filter_eq_self.2 h.texts]
  obtain ⟨operator, hoperator⟩ := Option.ne_none_iff_exists'.1 h.operator
  obtain ⟨a, rest, hranges⟩ := List.exists_cons_of_ne_nil h.ranges
  rw [hranges]
  simp only [hkind, Option.bind_some, hoperator]
  cases operator with
  | one c => exact ⟨_, rfl, fun n hn => hn c a⟩
  | two lower upper =>
    have hlength := h.two lower upper hoperator
    rw [hranges] at hlength
    cases rest with
    | nil => simp at hlength
    | cons b rest =>
      simp only [hreads, if_true]
      exact ⟨_, rfl, fun n hn => ⟨hn _ a, hn _ b⟩⟩

theorem mem_parts_of_valueOf {parts : List Bytes} {v : Bytes} (h : v ∈ parts) :
    ∃ i, parts.zipIdx.reverse.find? (fun e => e.1 = v) = some (v, i) := by
  cases hfind : parts.zipIdx.reverse.find? (fun e => decide (e.1 = v)) with
  | some e =>
    have heq := List.find?_some hfind
    rw [decide_eq_true_eq] at heq
    exact ⟨e.2, by rw [← heq]⟩
  | none =>
    rw [List.find?_eq_none] at hfind
    obtain ⟨i, hi, rfl⟩ := List.getElem_of_mem h
    have hmem : (parts[i], i) ∈ parts.zipIdx.reverse := by
      rw [List.mem_reverse, List.mk_mem_zipIdx_iff_getElem?]
      exact List.getElem?_eq_getElem hi
    exact absurd (hfind _ hmem) (by simp)

theorem sided_mem {ops : Bytes} {parts : List Bytes} {c : Comparison} {v : Bytes} {e : Option (Comparator × Bytes)}
    (h : sided ops parts c = some (v, e)) : v ∈ parts := by
  rw [sided] at h
  split at h
  · rename_i hleft
    cases h
    exact List.mem_of_mem_filter hleft
  · split at h
    · rename_i hright
      cases h
      exact List.mem_of_mem_filter hright
    · cases h

/-- A statement with a value at one position, and another one at the others. -/
def oddFact (i : ℕ) (odd other : Resource) : Fact where
  subject := if i = 0 then odd else other
  predicate := if i = 1 then odd else other
  object := .resource (if i = 2 then odd else other)
  context := some (if 3 ≤ i then odd else other)

theorem oddFact_part (i : ℕ) (odd other : Resource) : (oddFact i odd other).part i = some (.resource odd) := by
  rcases i with _ | _ | _ | i
  · rfl
  · rfl
  · rfl
  · simp [oddFact, Fact.part]

/-- Every text is read, and one node passes every comparison. -/
def onlyNode (x : Node) : RangeReading := ⟨fun _ _ => true, fun _ _ n => n = x⟩

/-- Every text is read, and the comparisons of a list are true. -/
def onlyThese (l : Collected) : RangeReading := ⟨fun _ _ => true, fun c s _ => (c, s) ∈ l⟩

/-- Comparisons that are described are about the object. -/
theorem onObject_of_describe {ops : Bytes} {parts : List Bytes} {comparisons : List Comparison}
    (h : ∀ c ∈ comparisons, OneSided ops parts c) (hdescribe : ∀ R, RangesDescribe R ops parts comparisons) :
    ∀ c ∈ comparisons, ∀ v e, sided ops parts c = some (v, e) → OnObject parts v := by
  intro c hc v e hsided
  obtain ⟨i, hi⟩ := mem_parts_of_valueOf (sided_mem hsided)
  obtain ⟨v', o, s, hsided', -, -⟩ := h c hc
  rw [hsided, Option.some.injEq, Prod.mk.injEq] at hsided'
  obtain ⟨rfl, rfl⟩ := hsided'
  by_contra hobject
  have hpos : i ≠ 2 := fun heq => hobject (by rw [OnObject, hi, heq]; rfl)
  obtain ⟨hfilled, hne⟩ := collectRanges_filled h
  obtain ⟨q, hq, hreadable⟩ := combineRanges_readable hfilled (hne (List.ne_nil_of_mem hc)) (q := ⟨[], none⟩) (by simp)
  -- the object passes every comparison, and nothing else does
  obtain ⟨m, hm, hall⟩ := hreadable.meaning (R := onlyNode (.resource (uri 0x62))) fun _ _ => rfl
  have hiff := hdescribe _ _ (.refl _) q hq m hm (oddFact i (uri 0x61) (uri 0x62))
  have hin : m (oddFact i (uri 0x61) (uri 0x62)).object :=
    hall _ fun _ _ => by simp [onlyNode, oddFact, hpos]
  obtain ⟨n, hn, htest⟩ := hiff.1 hin c hc v o s hsided
  rw [valueOf, hi, Option.bind_some, oddFact_part, Option.mem_some_iff] at hn
  subst hn
  exact absurd (Node.resource.inj htest) (by decide)

theorem onObject_unique {parts : List Bytes} {v w : Bytes} (hv : OnObject parts v) (hw : OnObject parts w) : v = w := by
  have hpart : ∀ u, OnObject parts u → parts[2]? = some u := by
    intro u hu
    obtain ⟨e, he, hpos⟩ := Option.map_eq_some_iff.1 hu
    have hmem := List.mem_reverse.1 (List.mem_of_find?_eq_some he)
    have htext := List.find?_some he
    rw [decide_eq_true_eq] at htext
    rw [← hpos, ← htext]
    exact List.mk_mem_zipIdx_iff_getElem?.1 hmem
  exact Option.some.inj ((hpart v hv).symm.trans (hpart w hw))

theorem valueOf_object {parts : List Bytes} {v : Bytes} (h : OnObject parts v) (f : Fact) :
    valueOf parts f v = some f.object := by
  obtain ⟨e, he, hpos⟩ := Option.map_eq_some_iff.1 h
  rw [valueOf, he, Option.bind_some, hpos]
  rfl

/-- On the object the comparisons are tests of the object. -/
theorem satisfies_iff {R : RangeReading} {ops : Bytes} {parts : List Bytes} {comparisons : List Comparison} {v : Bytes}
    (hv : OnObject parts v) (h : ∀ c ∈ comparisons, ∃ a, sided ops parts c = some (v, some a)) (f : Fact) :
    (∀ c ∈ comparisons, Satisfies R ops parts f c) ↔
      ∀ d ∈ comparedWith ops parts comparisons, R.test d.1 d.2 f.object := by
  simp only [comparedWith, List.mem_filterMap, Satisfies]
  constructor
  · rintro hall d ⟨c, hc, hd⟩
    obtain ⟨⟨o, s⟩, ha⟩ := h c hc
    rw [ha, Option.bind_some, Option.some.injEq] at hd
    obtain ⟨n, hn, htest⟩ := hall c hc v o s ha
    rw [valueOf_object hv, Option.mem_some_iff] at hn
    subst hn hd
    exact htest
  · intro hall c hc w o s hsided
    obtain ⟨a, ha⟩ := h c hc
    rw [hsided, Option.some.injEq, Prod.mk.injEq] at ha
    obtain ⟨rfl, ha⟩ := ha
    exact ⟨f.object, valueOf_object hv f, hall (o, s) ⟨c, hc, by rw [hsided]; rfl⟩⟩

/-- Integers as they are compared. -/
def wholeTest (c : Comparator) (x y : ℤ) : Prop :=
  match c with
  | .less => x < y
  | .lessEqual => x ≤ y
  | .equal => x = y
  | .notEqual => x ≠ y
  | .greaterEqual => y ≤ x
  | .greater => y < x

/-- A store of integers. -/
def wholeReading : RangeReading := ⟨fun _ _ => true, fun c s n => wholeTest c (wholeNumber (Node.toString n)) (wholeNumber s)⟩

end RdfStore.Query
