import RdfStore.Query.Answers
import RdfStore.Query.Components

/-!
# Joins

The answers of required triple patterns are the combinations of statements that
fit them under common bindings.

    what is found fits            (trace_sound)
    what fits is found            (trace_complete)
    each combination once         (trace_nodup)
-/

namespace RdfStore.Query

open ByteMem Streams

variable (store : Store) (prefixes : Bytes → Option Bytes)

/-! ## Instances -/

/-- The constants of a triple pattern fit the statement, and its variables have the values from there. -/
structure Instance (g : Bytes → Option (Option Node)) (t : TriplePattern) (f : Fact) : Prop where
  fact : f ∈ store.facts
  constants : (prepareTriplepattern prefixes t.parts).fits store.hasWords f = true
  values : ∀ e ∈ t.parts.zipIdx, isVariable e.1 = true → g e.1 = some (f.part e.2)

/-- The text that is put in place of a variable at a position stands for the value. -/
def Reparsed (facts : List Fact) (n : Option Node) (j : ℕ) : Prop :=
  ∀ u, valueText n j = some u → ∃ l, component prefixes u = .terms l ∧ l ≠ [] ∧
    ∀ g ∈ facts, ((g.part j).map fun n => l.any (·.denotes n)).getD false = true ↔ g.part j = n

/-- Where two triple patterns share a variable, the text of a value of it stands for the value. -/
def Reparses (facts : List Fact) (patterns : List TriplePattern) : Prop :=
  ∀ t t', [t, t'].Subperm patterns → ∀ e ∈ t.parts.zipIdx, ∀ e' ∈ t'.parts.zipIdx, e.1 = e'.1 →
    isVariable e.1 = true → ∀ f ∈ facts, Reparsed prefixes facts (f.part e.2) e'.2

/-- A variable that is not in the triple patterns before stands at one position. -/
def NewOnce (earlier : List TriplePattern) (t : TriplePattern) : Prop :=
  ∀ e ∈ t.parts.zipIdx, ∀ e' ∈ t.parts.zipIdx, e.1 = e'.1 → isVariable e.1 = true →
    (∀ t' ∈ earlier, e.1 ∉ t'.parts) → e.2 = e'.2

/-- In no triple pattern a variable that is not in those before it stands twice. -/
def AllNewOnce : List TriplePattern → List TriplePattern → Prop
  | _, [] => True
  | earlier, t :: patterns => NewOnce earlier t ∧ AllNewOnce (t :: earlier) patterns

instance (earlier : List TriplePattern) (t : TriplePattern) : Decidable (NewOnce earlier t) :=
  inferInstanceAs (Decidable (∀ e ∈ t.parts.zipIdx, ∀ e' ∈ t.parts.zipIdx, _ → _ → _ → _))

instance decidableAllNewOnce : ∀ earlier patterns : List TriplePattern, Decidable (AllNewOnce earlier patterns)
  | _, [] => isTrue trivial
  | earlier, t :: patterns =>
    have : Decidable (AllNewOnce (t :: earlier) patterns) := decidableAllNewOnce _ _
    inferInstanceAs (Decidable (_ ∧ _))

/-- The variables of the triple patterns are bound, to values of theirs or to none. -/
structure Bound (facts : List Fact) (earlier : List TriplePattern) (bind : Result) : Prop where
  bound : ∀ t ∈ earlier, ∀ v ∈ t.parts, isVariable v = true → bind.lookup v ≠ none
  origin : ∀ v n, bind.lookup v = some (some n) →
    ∃ t ∈ earlier, ∃ i, (v, i) ∈ t.parts.zipIdx ∧ ∃ f ∈ facts, f.part i = some n

/-- The variables that two triple patterns share have values. -/
def Valued (g : Bytes → Option (Option Node)) (t t' : TriplePattern) : Prop :=
  ∀ v ∈ t.parts, v ∈ t'.parts → isVariable v = true → g v ≠ some none

/-- Statements that fit the triple patterns under common values of the variables. -/
def Combination (patterns : List TriplePattern) (sts : List Fact) : Prop :=
  ∃ g, List.Forall₂ (Instance store prefixes g) patterns sts ∧ patterns.Pairwise (Valued g)

/-! ## One triple pattern -/

variable {store prefixes}

/-- The bound variables have the values they have in the statement. -/
def BoundFit (bind : Result) (j : ℕ) (parts : List Bytes) (g : Fact) : Prop :=
  ∀ e ∈ parts.zipIdx j, isVariable e.1 = true → ∀ n, bind.lookup e.1 = some n → g.part e.2 = n

def FieldsFit (prefixes : Bytes → Option Bytes) (j : ℕ) (parts : List Bytes) (g : Fact) : Prop :=
  ∀ e ∈ parts.zipIdx j, termsFit (component prefixes e.1).asked (g.part e.2) = true

/-- The texts of the values that are put in stand for them. -/
def ValuesReparsed (prefixes : Bytes → Option Bytes) (facts : List Fact) (bind : Result) (j : ℕ) (parts : List Bytes) :
    Prop :=
  ∀ e ∈ parts.zipIdx j, isVariable e.1 = true → ∀ n, bind.lookup e.1 = some n → Reparsed prefixes facts n e.2

theorem component_variable {s : Bytes} (h : isVariable s = true) : component prefixes s = .any := if_pos h

theorem Reparses.perm {facts : List Fact} {patterns patterns' : List TriplePattern} (h : Reparses prefixes facts patterns)
    (hperm : patterns.Perm patterns') : Reparses prefixes facts patterns' :=
  fun t t' hsub => h t t' (hsub.trans hperm.symm.subperm)

/-- Values of the triple patterns before are put in. -/
theorem Bound.reparsed {facts : List Fact} {earlier patterns : List TriplePattern} {t : TriplePattern} {bind : Result}
    (h : Bound facts earlier bind) (hre : Reparses prefixes facts (earlier ++ t :: patterns)) :
    ValuesReparsed prefixes facts bind 0 t.parts := by
  intro e he hvar n hn
  cases n with
  | none =>
    intro u hu
    cases hu
  | some n =>
    obtain ⟨t', ht', i, hi, f, hf, hpart⟩ := h.origin e.1 n hn
    rw [← hpart]
    refine hre t' t ?_ (e.1, i) hi e he rfl hvar f hf
    exact ((List.singleton_sublist.2 ht').append (List.singleton_sublist.2 List.mem_cons_self)).subperm

/-- The search with the values of the variables finds what fits the pattern and these values. -/
theorem substitute_fits {bind : Result} {j : ℕ} {parts : List Bytes}
    (hre : ValuesReparsed prefixes store.facts bind j parts) {u : List Bytes × List (Bytes × ℕ)}
    (h : substitute bind j parts = some u) {g : Fact} (hg : g ∈ store.facts) :
    FieldsFit prefixes j u.1 g ↔ FieldsFit prefixes j parts g ∧ BoundFit bind j parts g := by
  induction parts generalizing j u with
  | nil =>
    cases h
    simp [FieldsFit, BoundFit]
  | cons s parts ih =>
    rw [substitute, Option.bind_eq_some_iff] at h
    obtain ⟨w, hw, h⟩ := h
    rw [ValuesReparsed, List.zipIdx_cons, List.forall_mem_cons] at hre
    have hrest := ih hre.2 hw
    by_cases hs : isVariable s = true
    · rw [if_pos hs] at h
      cases hlookup : bind.lookup s with
      | some n =>
        rw [hlookup] at h
        obtain ⟨text, htext, rfl⟩ := Option.map_eq_some_iff.1 h
        obtain ⟨l, hl, hne, hdenotes⟩ := hre.1 hs n hlookup text htext
        have hfit : termsFit (component prefixes text).asked (g.part j) = true ↔ g.part j = n := by
          rw [hl, ← hdenotes g hg]
          simp [termsFit, Component.asked, hne]
        simp only [FieldsFit, BoundFit, List.zipIdx_cons, List.forall_mem_cons] at hrest ⊢
        rw [hrest, hfit, component_variable hs]
        simp only [termsFit, Component.asked, List.isEmpty_nil, Bool.true_or, hs, hlookup, Option.some.injEq,
          forall_eq', true_and, forall_const]
        tauto
      | none =>
        rw [hlookup] at h
        cases h
        simp only [FieldsFit, BoundFit, List.zipIdx_cons, List.forall_mem_cons] at hrest ⊢
        rw [hrest, hlookup]
        simp only [reduceCtorEq, false_implies, implies_true, true_and]
        tauto
    · rw [if_neg hs] at h
      cases h
      simp only [FieldsFit, BoundFit, List.zipIdx_cons, List.forall_mem_cons] at hrest ⊢
      rw [hrest]
      simp only [hs]
      tauto

/-- Texts in place of variables are no words. -/
theorem substitute_words {facts : List Fact} {bind : Result} {j : ℕ} {parts : List Bytes}
    (hre : ValuesReparsed prefixes facts bind j parts) {u : List Bytes × List (Bytes × ℕ)}
    (h : substitute bind j parts = some u) :
    (u.1.filterMap fun s => (component prefixes s).text) = parts.filterMap fun s => (component prefixes s).text := by
  induction parts generalizing j u with
  | nil =>
    cases h
    rfl
  | cons s parts ih =>
    rw [substitute, Option.bind_eq_some_iff] at h
    obtain ⟨w, hw, h⟩ := h
    rw [ValuesReparsed, List.zipIdx_cons, List.forall_mem_cons] at hre
    have hrest := ih hre.2 hw
    by_cases hs : isVariable s = true
    · rw [if_pos hs] at h
      cases hlookup : bind.lookup s with
      | some n =>
        rw [hlookup] at h
        obtain ⟨text, htext, rfl⟩ := Option.map_eq_some_iff.1 h
        obtain ⟨l, hl, -, -⟩ := hre.1 hs n hlookup text htext
        rw [List.filterMap_cons, List.filterMap_cons, hl, component_variable hs]
        exact hrest
      | none =>
        rw [hlookup] at h
        cases h
        simp only [List.filterMap_cons, hrest]
    · rw [if_neg hs] at h
      cases h
      simp only [List.filterMap_cons, hrest]

/-- Where a value cannot be put in, no statement has it. -/
theorem substitute_none {bind : Result} {j : ℕ} {parts : List Bytes} (hvalued : ∀ v ∈ parts, bind.lookup v ≠ some none)
    (h : substitute bind j parts = none) (g : Fact) : ¬ BoundFit bind j parts g := by
  induction parts generalizing j with
  | nil => cases h
  | cons s parts ih =>
    intro hfit
    rw [List.forall_mem_cons] at hvalued
    simp only [BoundFit, List.zipIdx_cons, List.forall_mem_cons] at hfit
    rw [substitute, Option.bind_eq_none_iff] at h
    cases hw : substitute bind (j + 1) parts with
    | none => exact ih hvalued.2 hw hfit.2
    | some w =>
      have h := h w hw
      by_cases hs : isVariable s = true
      · rw [if_pos hs] at h
        cases hlookup : bind.lookup s with
        | some n =>
          have hpart := hfit.1 hs n hlookup
          rw [hlookup, Option.map_eq_none_iff, ← hpart] at h
          rw [hlookup, ← hpart] at hvalued
          rcases j with _ | _ | _ | j
          · cases h
          · cases h
          · cases hobject : g.object <;> simp [Fact.part, valueText, hobject] at h
          · cases hcontext : g.context with
            | some c => simp [Fact.part, valueText, hcontext] at h
            | none => exact hvalued.1 (by simp [Fact.part, hcontext])
        | none =>
          rw [hlookup] at h
          cases h
      · rw [if_neg hs] at h
        cases h

/-- The values that are put in are there. -/
theorem substitute_valued {bind : Result} {j : ℕ} {parts : List Bytes} {u : List Bytes × List (Bytes × ℕ)}
    (h : substitute bind j parts = some u) : ∀ v ∈ parts, isVariable v = true → bind.lookup v ≠ some none := by
  induction parts generalizing j u with
  | nil => simp
  | cons s parts ih =>
    rw [substitute, Option.bind_eq_some_iff] at h
    obtain ⟨w, hw, h⟩ := h
    rw [List.forall_mem_cons]
    refine ⟨fun hs hnone => ?_, ih hw⟩
    rw [if_pos hs, hnone] at h
    cases h

/-- The variables that take values are new ones, at their positions. -/
theorem substitute_vars {bind : Result} {j : ℕ} {parts : List Bytes} {u : List Bytes × List (Bytes × ℕ)}
    (h : substitute bind j parts = some u) :
    (∀ e ∈ u.2, e ∈ parts.zipIdx j ∧ isVariable e.1 = true ∧ bind.lookup e.1 = none) ∧
      ∀ e ∈ parts.zipIdx j, isVariable e.1 = true → bind.lookup e.1 = none → e.1 ∈ u.2.map (·.1) := by
  induction parts generalizing j u with
  | nil =>
    cases h
    simp
  | cons s parts ih =>
    rw [substitute, Option.bind_eq_some_iff] at h
    obtain ⟨w, hw, h⟩ := h
    obtain ⟨hin, hall⟩ := ih hw
    rw [List.zipIdx_cons]
    have hin' : ∀ e ∈ w.2, e ∈ (s, j) :: parts.zipIdx (j + 1) ∧ isVariable e.1 = true ∧ bind.lookup e.1 = none :=
      fun e he => ⟨List.mem_cons_of_mem _ (hin e he).1, (hin e he).2⟩
    by_cases hs : isVariable s = true
    · rw [if_pos hs] at h
      cases hlookup : bind.lookup s with
      | some n =>
        rw [hlookup] at h
        obtain ⟨text, -, rfl⟩ := Option.map_eq_some_iff.1 h
        refine ⟨hin', fun e he hvar hnone => ?_⟩
        rcases List.mem_cons.1 he with rfl | he
        · rw [hlookup] at hnone
          cases hnone
        · exact hall e he hvar hnone
      | none =>
        rw [hlookup] at h
        cases h
        by_cases hmem : s ∈ w.2.map (·.1)
        · simp only [if_pos hmem]
          refine ⟨hin', fun e he hvar hnone => ?_⟩
          rcases List.mem_cons.1 he with rfl | he
          · exact hmem
          · exact hall e he hvar hnone
        · simp only [if_neg hmem]
          constructor
          · intro e he
            rcases List.mem_cons.1 he with rfl | he
            · exact ⟨List.mem_cons_self, hs, hlookup⟩
            · exact hin' e he
          · intro e he hvar hnone
            rw [List.map_cons, List.mem_cons]
            rcases List.mem_cons.1 he with rfl | he
            · exact Or.inl rfl
            · exact Or.inr (hall e he hvar hnone)
    · rw [if_neg hs] at h
      cases h
      refine ⟨hin', fun e he hvar hnone => ?_⟩
      rcases List.mem_cons.1 he with rfl | he
      · exact absurd hvar hs
      · exact hall e he hvar hnone

theorem mem_search (parts : List Bytes) (f : Fact) :
    f ∈ store.search prefixes parts ↔
      f ∈ store.facts ∧ (prepareTriplepattern prefixes parts).fits store.hasWords f = true := by
  rw [Store.search, (store.find_perm _).mem_iff, List.mem_filter]

theorem prepare_fits_iff (parts : List Bytes) (f : Fact) :
    (prepareTriplepattern prefixes parts).fits store.hasWords f = true ↔
      FieldsFit prefixes 0 parts f ∧ ((parts.filterMap fun s => (component prefixes s).text).isEmpty ||
        store.hasWords (parts.filterMap fun s => (component prefixes s).text) f) = true := by
  rw [SearchQuery.fits, Bool.and_eq_true]
  refine and_congr ?_ Iff.rfl
  simp only [prepareTriplepattern, List.all_eq_true, List.zipIdx_map, List.forall_mem_map]
  rfl

/-- What the search with the values finds. -/
theorem mem_search_substitute {bind : Result} {parts : List Bytes} (hre : ValuesReparsed prefixes store.facts bind 0 parts)
    {u : List Bytes × List (Bytes × ℕ)} (h : substitute bind 0 parts = some u) (f : Fact) :
    f ∈ store.search prefixes u.1 ↔
      f ∈ store.facts ∧ (prepareTriplepattern prefixes parts).fits store.hasWords f = true ∧ BoundFit bind 0 parts f := by
  rw [mem_search]
  refine and_congr_right fun hf => ?_
  rw [prepare_fits_iff, prepare_fits_iff, substitute_fits hre h hf, substitute_words hre h]
  tauto

/-! ## Bindings -/

theorem lookup_bindFact {vars : List (Bytes × ℕ)} {bind : Result} (h : Fresh vars bind) (f : Fact) (v : Bytes) :
    (bindFact vars f bind).lookup v = (bind.lookup v).or ((vars.lookup v).map f.part) := by
  rw [bindFact_eq h, List.lookup_append]
  congr 1
  clear h
  induction vars with
  | nil => rfl
  | cons u vars ih =>
    rw [List.map_cons, List.lookup_cons, List.lookup_cons, ih]
    cases v == u.1 <;> rfl

/-- More variables are bound, and the others as before. -/
def Extends (bind r : Result) : Prop := ∀ v n, bind.lookup v = some n → r.lookup v = some n

theorem extends_bindFact {vars : List (Bytes × ℕ)} {bind : Result} (h : Fresh vars bind) (f : Fact) :
    Extends bind (bindFact vars f bind) := by
  intro v n hv
  rw [lookup_bindFact h, hv, Option.some_or]

theorem lookup_vars {vars : List (Bytes × ℕ)} {v : Bytes} {k : ℕ} (h : vars.lookup v = some k) : (v, k) ∈ vars := by
  induction vars with
  | nil => cases h
  | cons u vars ih =>
    rw [List.lookup_cons] at h
    by_cases hv : v = u.1
    · rw [show (v == u.1) = true by simpa using hv] at h
      cases h
      rw [hv]
      exact List.mem_cons_self
    · rw [show (v == u.1) = false by simpa using hv] at h
      exact List.mem_cons_of_mem _ (ih h)

/-! ## The answers with their statements -/

/-- The statements that were taken, and the bindings they give. -/
def trace (search : List Bytes → List Fact) : List TriplePattern → Result → List (List Fact × Result)
  | [], bind => [([], bind)]
  | t :: patterns, bind =>
    match substitute bind 0 t.parts with
    | none => []
    | some (parts, vars) =>
      (search parts).flatMap fun f => (trace search patterns (bindFact vars f bind)).map fun e => (f :: e.1, e.2)

theorem answers_eq_trace (search : List Bytes → List Fact) {patterns : List TriplePattern}
    (hrequired : ∀ t ∈ patterns, t.optional = false) (bind : Result) :
    answers search patterns bind = (trace search patterns bind).map (·.2) := by
  induction patterns generalizing bind with
  | nil => rfl
  | cons t patterns ih =>
    have ih := ih fun u hu => hrequired u (List.mem_cons_of_mem _ hu)
    rw [answers, trace]
    cases hsub : substitute bind 0 t.parts with
    | none => rfl
    | some u =>
      obtain ⟨parts, vars⟩ := u
      simp only [hrequired t List.mem_cons_self, Bool.false_eq_true, false_and, if_false, List.map_flatMap, List.map_map]
      refine congrArg (fun k => (search parts).flatMap k) (funext fun f => ?_)
      rw [ih]
      rfl

/-- After a statement was taken, the variables of the triple pattern have their values there. -/
theorem lookup_taken {facts : List Fact} {bind : Result} {earlier : List TriplePattern} {t : TriplePattern}
    (hbound : Bound facts earlier bind) (hnew : NewOnce earlier t) {u : List Bytes × List (Bytes × ℕ)}
    (hu : substitute bind 0 t.parts = some u) {f : Fact} (hfit : BoundFit bind 0 t.parts f) :
    ∀ e ∈ t.parts.zipIdx, isVariable e.1 = true → (bindFact u.2 f bind).lookup e.1 = some (f.part e.2) := by
  intro e he hvar
  rw [lookup_bindFact (substitute_fresh hu)]
  cases hlookup : bind.lookup e.1 with
  | some n => rw [Option.some_or, hfit e he hvar n hlookup]
  | none =>
    obtain ⟨hin, hall⟩ := substitute_vars hu
    have hmem := hall e he hvar hlookup
    cases hvars : u.2.lookup e.1 with
    | none =>
      obtain ⟨p, hp, heq⟩ := List.mem_map.1 hmem
      rw [List.lookup_eq_none_iff] at hvars
      exact absurd (hvars p hp) (by simp [heq])
    | some k =>
      have hk := (hin (e.1, k) (lookup_vars hvars)).1
      have hpos : e.2 = k := hnew e he (e.1, k) hk rfl hvar fun t' ht' hmem => hbound.bound t' ht' e.1 hmem hvar hlookup
      rw [Option.none_or, Option.map_some, hpos]

theorem lookup_bindFact_ne_none {bind : Result} {t : TriplePattern} {u : List Bytes × List (Bytes × ℕ)}
    (hu : substitute bind 0 t.parts = some u) (f : Fact) {v : Bytes} (hv : v ∈ t.parts) (hvar : isVariable v = true) :
    (bindFact u.2 f bind).lookup v ≠ none := by
  rw [lookup_bindFact (substitute_fresh hu)]
  intro hnone
  rw [Option.or_eq_none_iff, Option.map_eq_none_iff] at hnone
  obtain ⟨i, hi, rfl⟩ := List.getElem_of_mem hv
  have hmem := (substitute_vars hu).2 (t.parts[i], i)
    (List.mk_mem_zipIdx_iff_getElem?.2 (List.getElem?_eq_getElem hi)) hvar hnone.1
  obtain ⟨p, hp, heq⟩ := List.mem_map.1 hmem
  exact absurd (List.lookup_eq_none_iff.1 hnone.2 p hp) (by simp [heq])

theorem Bound.taken {facts : List Fact} {earlier : List TriplePattern} {t : TriplePattern} {bind : Result}
    (h : Bound facts earlier bind) {u : List Bytes × List (Bytes × ℕ)} (hu : substitute bind 0 t.parts = some u) {f : Fact}
    (hf : f ∈ facts) : Bound facts (t :: earlier) (bindFact u.2 f bind) := by
  have hfresh := substitute_fresh hu
  constructor
  · intro t' ht' v hv hvar
    rcases List.mem_cons.1 ht' with rfl | ht'
    · exact lookup_bindFact_ne_none hu f hv hvar
    · obtain ⟨n, hn⟩ := Option.ne_none_iff_exists'.1 (h.bound t' ht' v hv hvar)
      rw [extends_bindFact hfresh f v n hn]
      simp
  · intro v n hv
    rw [lookup_bindFact hfresh, Option.or_eq_some_iff] at hv
    rcases hv with hv | ⟨-, hv⟩
    · obtain ⟨t', ht', horigin⟩ := h.origin v n hv
      exact ⟨t', List.mem_cons_of_mem _ ht', horigin⟩
    · obtain ⟨k, hk, hpart⟩ := Option.map_eq_some_iff.1 hv
      exact ⟨t, List.mem_cons_self, k, ((substitute_vars hu).1 (v, k) (lookup_vars hk)).1, f, hf, hpart⟩

theorem Reparses.next {facts : List Fact} {earlier patterns : List TriplePattern} {t : TriplePattern}
    (h : Reparses prefixes facts (earlier ++ t :: patterns)) : Reparses prefixes facts (t :: earlier ++ patterns) :=
  h.perm List.perm_middle

/-- **What is found fits**: the statements are instances of the triple patterns under the bindings. -/
theorem trace_sound {patterns earlier : List TriplePattern} (hre : Reparses prefixes store.facts (earlier ++ patterns))
    (hnew : AllNewOnce earlier patterns) {bind : Result} (hbound : Bound store.facts earlier bind)
    {e : List Fact × Result} (he : e ∈ trace (store.search prefixes) patterns bind) :
    Extends bind e.2 ∧ List.Forall₂ (Instance store prefixes fun v => e.2.lookup v) patterns e.1 ∧
      ((∀ t ∈ earlier, ∀ t' ∈ patterns, Valued (fun v => e.2.lookup v) t t') ∧
        patterns.Pairwise (Valued fun v => e.2.lookup v)) ∧
      ∀ v n, e.2.lookup v = some n → bind.lookup v = some n ∨ ∃ t ∈ patterns, v ∈ t.parts ∧ isVariable v = true := by
  induction patterns generalizing earlier bind e with
  | nil =>
    cases List.mem_singleton.1 he
    exact ⟨fun v n h => h, List.Forall₂.nil, ⟨by simp, List.Pairwise.nil⟩, fun v n h => Or.inl h⟩
  | cons t patterns ih =>
    rw [trace] at he
    cases hsub : substitute bind 0 t.parts with
    | none => simp [hsub] at he
    | some u =>
      obtain ⟨parts, vars⟩ := u
      simp only [hsub, List.mem_flatMap, List.mem_map] at he
      obtain ⟨f, hf, d, hd, rfl⟩ := he
      obtain ⟨hfact, hconstants, hfit⟩ := (mem_search_substitute (hbound.reparsed hre) hsub f).1 hf
      have hfresh := substitute_fresh hsub
      have hin := (substitute_vars hsub).1
      have htaken := lookup_taken hbound hnew.1 hsub hfit
      obtain ⟨hextends, hinstances, ⟨hvalued, hpairs⟩, hkeys⟩ := ih hre.next hnew.2 (hbound.taken hsub hfact) hd
      rw [List.forall_mem_cons] at hvalued
      refine ⟨fun v n hv => hextends v n (extends_bindFact hfresh f v n hv), List.Forall₂.cons ?_ hinstances, ⟨?_, ?_⟩, ?_⟩
      · exact ⟨hfact, hconstants, fun e he hvar => hextends _ _ (htaken e he hvar)⟩
      · intro t' ht'
        rw [List.forall_mem_cons]
        refine ⟨fun v hv' hv hvar hnone => ?_, hvalued.2 t' ht'⟩
        obtain ⟨n, hn⟩ := Option.ne_none_iff_exists'.1 (hbound.bound t' ht' v hv' hvar)
        have hfinal := hextends v n (extends_bindFact hfresh f v n hn)
        have hn' : n = none := Option.some.inj (hfinal.symm.trans hnone)
        exact substitute_valued hsub v hv hvar (hn' ▸ hn)
      · exact List.Pairwise.cons hvalued.1 hpairs
      · intro v n hv
        rcases hkeys v n hv with hv | ⟨u, hu, hvar⟩
        · rw [lookup_bindFact hfresh, Option.or_eq_some_iff] at hv
          rcases hv with hv | ⟨-, hv⟩
          · exact Or.inl hv
          · obtain ⟨k, hk, -⟩ := Option.map_eq_some_iff.1 hv
            obtain ⟨hmem, hvar, -⟩ := hin (v, k) (lookup_vars hk)
            exact Or.inr ⟨t, List.mem_cons_self, List.fst_mem_of_mem_zipIdx hmem, hvar⟩
        · exact Or.inr ⟨u, List.mem_cons_of_mem _ hu, hvar⟩

/-- **What fits is found**: statements that are instances under common values are taken. -/
theorem trace_complete {g : Bytes → Option (Option Node)} {patterns earlier : List TriplePattern}
    (hre : Reparses prefixes store.facts (earlier ++ patterns)) {bind : Result} (hbound : Bound store.facts earlier bind)
    (hkeys : ∀ v n, bind.lookup v = some n → ∃ t ∈ earlier, v ∈ t.parts ∧ isVariable v = true)
    (hg : ∀ v n, bind.lookup v = some n → g v = some n) {sts : List Fact}
    (h : List.Forall₂ (Instance store prefixes g) patterns sts)
    (hvalued : ∀ t ∈ earlier, ∀ t' ∈ patterns, Valued g t t') (hpairs : patterns.Pairwise (Valued g)) :
    ∃ r, (sts, r) ∈ trace (store.search prefixes) patterns bind := by
  induction h generalizing earlier bind with
  | nil => exact ⟨bind, List.mem_singleton_self _⟩
  | @cons t f patterns sts hinstance _ ih =>
    obtain ⟨hfact, hconstants, hvalues⟩ := hinstance
    have hfit : BoundFit bind 0 t.parts f := by
      intro e he hvar n hn
      have := (hvalues e he hvar).symm.trans (hg e.1 n hn)
      exact Option.some.inj this
    rw [trace]
    rw [List.pairwise_cons] at hpairs
    cases hsub : substitute bind 0 t.parts with
    | none =>
      refine absurd hfit (substitute_none (fun v hv hnone => ?_) hsub f)
      obtain ⟨t', ht', hv', hvar⟩ := hkeys v none hnone
      exact hvalued t' ht' t List.mem_cons_self v hv' hv hvar (hg v none hnone)
    | some u =>
      obtain ⟨parts, vars⟩ := u
      have hfresh := substitute_fresh hsub
      have hg' : ∀ v n, (bindFact vars f bind).lookup v = some n → g v = some n := by
        intro v n hv
        rw [lookup_bindFact hfresh, Option.or_eq_some_iff] at hv
        rcases hv with hv | ⟨-, hv⟩
        · exact hg v n hv
        · obtain ⟨k, hk, rfl⟩ := Option.map_eq_some_iff.1 hv
          obtain ⟨hmem, hvar, -⟩ := (substitute_vars hsub).1 (v, k) (lookup_vars hk)
          exact hvalues (v, k) hmem hvar
      have hkeys' : ∀ v n, (bindFact vars f bind).lookup v = some n →
          ∃ t' ∈ t :: earlier, v ∈ t'.parts ∧ isVariable v = true := by
        intro v n hv
        rw [lookup_bindFact hfresh, Option.or_eq_some_iff] at hv
        rcases hv with hv | ⟨-, hv⟩
        · obtain ⟨t', ht', hv'⟩ := hkeys v n hv
          exact ⟨t', List.mem_cons_of_mem _ ht', hv'⟩
        · obtain ⟨k, hk, -⟩ := Option.map_eq_some_iff.1 hv
          obtain ⟨hmem, hvar, -⟩ := (substitute_vars hsub).1 (v, k) (lookup_vars hk)
          exact ⟨t, List.mem_cons_self, List.fst_mem_of_mem_zipIdx hmem, hvar⟩
      have hvalued' : ∀ t' ∈ t :: earlier, ∀ u ∈ patterns, Valued g t' u := by
        rw [List.forall_mem_cons]
        exact ⟨hpairs.1, fun t' ht' u hu => hvalued t' ht' u (List.mem_cons_of_mem _ hu)⟩
      obtain ⟨r, hr⟩ := ih hre.next (hbound.taken hsub hfact) hkeys' hg' hvalued' hpairs.2
      have hsearch : f ∈ store.search prefixes parts :=
        (mem_search_substitute (hbound.reparsed hre) hsub f).2 ⟨hfact, hconstants, hfit⟩
      exact ⟨r, List.mem_flatMap.2 ⟨f, hsearch, List.mem_map.2 ⟨(sts, r), hr, rfl⟩⟩⟩

/-- **Each combination of statements once.** -/
theorem trace_nodup (patterns : List TriplePattern) (bind : Result) :
    ((trace (store.search prefixes) patterns bind).map (·.1)).Nodup := by
  induction patterns generalizing bind with
  | nil => exact List.nodup_singleton _
  | cons t patterns ih =>
    rw [trace]
    cases hsub : substitute bind 0 t.parts with
    | none => exact List.nodup_nil
    | some u =>
      obtain ⟨parts, vars⟩ := u
      simp only [List.map_flatMap, List.map_map]
      have hsearch : (store.search prefixes parts).Nodup :=
        (store.find_perm _).nodup_iff.2 (store.nodup.filter _)
      rw [List.nodup_flatMap]
      refine ⟨fun f _ => ?_, ?_⟩
      · have hcons : Function.Injective (f :: · : List Fact → List Fact) := fun a b h => (List.cons.inj h).2
        have := (ih (bindFact vars f bind)).map hcons
        rwa [List.map_map] at this
      · refine hsearch.pairwise_of_forall_ne fun f _ g _ hne => ?_
        intro sts hf hg
        obtain ⟨d, -, rfl⟩ := List.mem_map.1 hf
        obtain ⟨e, -, heq⟩ := List.mem_map.1 hg
        exact hne (List.cons.inj heq).1.symm

end RdfStore.Query
