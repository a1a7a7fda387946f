import RdfStore.Query.JoinRows

/-!
# Optional triple patterns

The rows of required and optional triple patterns are compared with the left
outer join, in which a variable that no optional pattern bound is free.

    a search is a permutation of what fits            (search_perm)
    exactly the left outer join, or too few rows      (answers_leftJoin)
    what is fetched                                   (fetches_leftJoin_iff)
-/

namespace RdfStore.Query

open ByteMem Streams

variable (store : Store) (prefixes : Bytes → Option Bytes)

/-! ## The left outer join -/

/-- The values of the variables; an unbound one has none. -/
abbrev Assignment := Bytes → Option Node

/-- A variable without a value takes it from the statement. -/
def extend (b : Assignment) (t : TriplePattern) (f : Fact) : Assignment := fun v =>
  if isVariable v = true ∧ v ∈ t.parts ∧ b v = none then f.part (t.parts.idxOf v) else b v

/-- The statement has the constants of the triple pattern, and the values at all positions of its variables. -/
def Fits (b : Assignment) (t : TriplePattern) (f : Fact) : Prop :=
  (prepareTriplepattern prefixes t.parts).fits store.hasWords f = true ∧
    ∀ e ∈ t.parts.zipIdx, isVariable e.1 = true → extend b t f e.1 = f.part e.2

instance (b : Assignment) (t : TriplePattern) (f : Fact) : Decidable (Fits store prefixes b t f) :=
  inferInstanceAs (Decidable (_ ∧ _))

def fitting (b : Assignment) (t : TriplePattern) : List Fact := store.facts.filter (Fits store prefixes b t)

/-- The left outer join: an optional triple pattern that nothing fits leaves its variables unbound. -/
def leftJoin : List TriplePattern → Assignment → List Assignment
  | [], b => [b]
  | t :: patterns, b =>
    if t.optional = true ∧ fitting store prefixes b t = [] then leftJoin patterns b
    else (fitting store prefixes b t).flatMap fun f => leftJoin patterns (extend b t f)

/-! ## Where the search stops -/

/-- A variable of the triple patterns before has no value, or one that cannot stand at its position. -/
def Blocked (earlier : List TriplePattern) (b : Assignment) (t : TriplePattern) : Prop :=
  ∃ e ∈ t.parts.zipIdx, isVariable e.1 = true ∧ (∃ t' ∈ earlier, e.1 ∈ t'.parts) ∧ valueText (b e.1) e.2 = none

instance (earlier : List TriplePattern) (b : Assignment) (t : TriplePattern) : Decidable (Blocked earlier b t) :=
  inferInstanceAs (Decidable (∃ e ∈ t.parts.zipIdx, _ ∧ _ ∧ _))

/-- Where statements that fit lead to such a triple pattern, there are no rows behind it. -/
def Unblocked : List TriplePattern → List TriplePattern → Assignment → Prop
  | _, [], _ => True
  | earlier, t :: patterns, b =>
    (Blocked earlier b t → leftJoin store prefixes (t :: patterns) b = []) ∧
      (¬ Blocked earlier b t →
        (t.optional = true ∧ fitting store prefixes b t = [] → Unblocked (t :: earlier) patterns b) ∧
          ∀ f ∈ fitting store prefixes b t, Unblocked (t :: earlier) patterns (extend b t f))

instance decidableUnblocked : ∀ (earlier patterns : List TriplePattern) (b : Assignment),
    Decidable (Unblocked store prefixes earlier patterns b)
  | _, [], _ => isTrue trivial
  | earlier, t :: patterns, b =>
    have : Decidable (Unblocked store prefixes (t :: earlier) patterns b) := decidableUnblocked _ _ _
    have : ∀ f, Decidable (Unblocked store prefixes (t :: earlier) patterns (extend b t f)) :=
      fun _ => decidableUnblocked _ _ _
    inferInstanceAs (Decidable (_ ∧ _))

variable {store prefixes}

/-! ## Bindings and values -/

/-- The values of a binding, where a hole is no value. -/
def Result.assign (bind : Result) : Assignment := fun v => (bind.lookup v).join

/-- The variables of the triple patterns before are bound as in the assignment. -/
structure Represents (facts : List Fact) (earlier : List TriplePattern) (bind : Result) (b : Assignment) : Prop where
  bound : Bound facts earlier bind
  keys : ∀ v n, bind.lookup v = some n → ∃ t ∈ earlier, v ∈ t.parts ∧ isVariable v = true
  assign : bind.assign = b

theorem Represents.value {facts : List Fact} {earlier : List TriplePattern} {bind : Result} {b : Assignment}
    (h : Represents facts earlier bind b) {v : Bytes} {n : Option Node} (hv : bind.lookup v = some n) : b v = n := by
  rw [← h.assign, Result.assign, hv, Option.join_some]

theorem Represents.unbound {facts : List Fact} {earlier : List TriplePattern} {bind : Result} {b : Assignment}
    (h : Represents facts earlier bind b) {v : Bytes} (hv : bind.lookup v = none) : b v = none := by
  rw [← h.assign, Result.assign, hv]
  rfl

theorem substitute_eq_none_iff (bind : Result) (j : ℕ) (parts : List Bytes) :
    substitute bind j parts = none ↔
      ∃ e ∈ parts.zipIdx j, isVariable e.1 = true ∧ ∃ n, bind.lookup e.1 = some n ∧ valueText n e.2 = none := by
  induction parts generalizing j with
  | nil => simp [substitute]
  | cons s parts ih =>
    rw [substitute, List.zipIdx_cons, List.exists_mem_cons_iff, ← ih (j + 1)]
    cases hrest : substitute bind (j + 1) parts with
    | none => simp
    | some w =>
      by_cases hs : isVariable s = true
      · cases hlookup : bind.lookup s with
        | none => simp [hs]
        | some n => simp [hs]
      · simp [hs]

theorem Represents.blocked_iff {facts : List Fact} {earlier : List TriplePattern} {bind : Result} {b : Assignment}
    (h : Represents facts earlier bind b) (t : TriplePattern) :
    substitute bind 0 t.parts = none ↔ Blocked earlier b t := by
  rw [substitute_eq_none_iff]
  refine exists_congr fun e => and_congr_right fun _ => and_congr_right fun hvar => ?_
  constructor
  · rintro ⟨n, hn, htext⟩
    obtain ⟨t', ht', hv, -⟩ := h.keys e.1 n hn
    exact ⟨⟨t', ht', hv⟩, (h.value hn).symm ▸ htext⟩
  · rintro ⟨⟨t', ht', hv⟩, htext⟩
    obtain ⟨n, hn⟩ := Option.ne_none_iff_exists'.1 (h.bound.bound t' ht' e.1 hv hvar)
    exact ⟨n, hn, h.value hn ▸ htext⟩

theorem mem_zipIdx_idxOf {parts : List Bytes} {v : Bytes} (h : v ∈ parts) : (v, parts.idxOf v) ∈ parts.zipIdx := by
  rw [List.mk_mem_zipIdx_iff_getElem?]
  exact List.getElem?_idxOf h

/-- A new variable takes its value from its one position. -/
theorem extend_new {earlier : List TriplePattern} {t : TriplePattern} (hnew : NewOnce earlier t) {b : Assignment}
    (hb : ∀ v, b v ≠ none → ∃ t' ∈ earlier, v ∈ t'.parts) {e : Bytes × ℕ} (he : e ∈ t.parts.zipIdx)
    (hvar : isVariable e.1 = true) (hearlier : ∀ t' ∈ earlier, e.1 ∉ t'.parts) (f : Fact) :
    extend b t f e.1 = f.part e.2 := by
  have hmem : e.1 ∈ t.parts := List.fst_mem_of_mem_zipIdx he
  have hnone : b e.1 = none := by
    by_contra hsome
    obtain ⟨t', ht', hv⟩ := hb e.1 hsome
    exact hearlier t' ht' hv
  rw [extend, if_pos ⟨hvar, hmem, hnone⟩, hnew e he _ (mem_zipIdx_idxOf hmem) rfl hvar hearlier]

theorem Represents.earlier {facts : List Fact} {earlier : List TriplePattern} {bind : Result} {b : Assignment}
    (h : Represents facts earlier bind b) {v : Bytes} (hv : b v ≠ none) : ∃ t ∈ earlier, v ∈ t.parts := by
  cases hlookup : bind.lookup v with
  | none => exact absurd (h.unbound hlookup) hv
  | some n =>
    obtain ⟨t, ht, hmem, -⟩ := h.keys v n hlookup
    exact ⟨t, ht, hmem⟩

theorem Represents.not_mem {facts : List Fact} {earlier : List TriplePattern} {bind : Result} {b : Assignment}
    (h : Represents facts earlier bind b) {v : Bytes} (hvar : isVariable v = true) (hv : bind.lookup v = none) :
    ∀ t ∈ earlier, v ∉ t.parts :=
  fun t ht hmem => h.bound.bound t ht v hmem hvar hv

/-! ## One triple pattern -/

/-- Where the values can be put in, they fit a statement exactly when the assignment does. -/
theorem Represents.boundFit_iff {facts : List Fact} {earlier : List TriplePattern} {bind : Result} {b : Assignment}
    (h : Represents facts earlier bind b) {t : TriplePattern} (hnew : NewOnce earlier t)
    {u : List Bytes × List (Bytes × ℕ)} (hu : substitute bind 0 t.parts = some u) (f : Fact) :
    BoundFit bind 0 t.parts f ↔ ∀ e ∈ t.parts.zipIdx, isVariable e.1 = true → extend b t f e.1 = f.part e.2 := by
  refine forall₃_congr fun e he hvar => ?_
  cases hlookup : bind.lookup e.1 with
  | none =>
    have hextend := extend_new hnew (fun _ => h.earlier) he hvar (h.not_mem hvar hlookup) f
    simp [hextend]
  | some n =>
    have hvalued := substitute_valued hu e.1 (List.fst_mem_of_mem_zipIdx he) hvar
    rw [hlookup, Ne, Option.some.injEq] at hvalued
    have hkept : extend b t f e.1 = n := by
      rw [extend, if_neg (fun hand => hvalued ((h.value hlookup).symm.trans hand.2.2)), h.value hlookup]
    rw [hkept]
    simp only [Option.some.injEq, forall_eq']
    exact eq_comm

/-- A search finds what fits. -/
theorem search_perm {patterns earlier : List TriplePattern} {t : TriplePattern} {bind : Result} {b : Assignment}
    (h : Represents store.facts earlier bind b) (hre : Reparses prefixes store.facts (earlier ++ t :: patterns))
    (hnew : NewOnce earlier t) {u : List Bytes × List (Bytes × ℕ)} (hu : substitute bind 0 t.parts = some u) :
    (store.search prefixes u.1).Perm (fitting store prefixes b t) := by
  have hnodup : (store.search prefixes u.1).Nodup := (store.find_perm _).nodup_iff.2 (store.nodup.filter _)
  refine (List.perm_ext_iff_of_nodup hnodup (store.nodup.filter _)).2 fun f => ?_
  rw [mem_search_substitute (h.bound.reparsed hre) hu, List.mem_filter, decide_eq_true_eq, Fits,
    h.boundFit_iff hnew hu]

/-- A statement that was taken. -/
theorem Represents.taken {facts : List Fact} {earlier : List TriplePattern} {bind : Result} {b : Assignment}
    (h : Represents facts earlier bind b) {t : TriplePattern} (hnew : NewOnce earlier t)
    {u : List Bytes × List (Bytes × ℕ)} (hu : substitute bind 0 t.parts = some u) {f : Fact} (hf : f ∈ facts) :
    Represents facts (t :: earlier) (bindFact u.2 f bind) (extend b t f) := by
  have hfresh := substitute_fresh hu
  obtain ⟨hin, hall⟩ := substitute_vars hu
  refine ⟨h.bound.taken hu hf, fun v n hv => ?_, funext fun v => ?_⟩
  · rw [lookup_bindFact hfresh, Option.or_eq_some_iff] at hv
    rcases hv with hv | ⟨-, hv⟩
    · obtain ⟨t', ht', hv'⟩ := h.keys v n hv
      exact ⟨t', List.mem_cons_of_mem _ ht', hv'⟩
    · obtain ⟨k, hk, -⟩ := Option.map_eq_some_iff.1 hv
      obtain ⟨hmem, hvar, -⟩ := hin (v, k) (lookup_vars hk)
      exact ⟨t, List.mem_cons_self, List.fst_mem_of_mem_zipIdx hmem, hvar⟩
  · rw [Result.assign, lookup_bindFact hfresh]
    cases hlookup : bind.lookup v with
    | some n =>
      rw [Option.some_or, Option.join_some, extend, h.value hlookup]
      split
      · rename_i hand
        obtain ⟨hvar, hmem, rfl⟩ := hand
        exact absurd hlookup (substitute_valued hu v hmem hvar)
      · rfl
    | none =>
      rw [Option.none_or]
      cases hvars : u.2.lookup v with
      | some k =>
        obtain ⟨hmem, hvar, -⟩ := hin (v, k) (lookup_vars hvars)
        exact (extend_new hnew (fun _ => h.earlier) hmem hvar (h.not_mem hvar hlookup) f).symm
      | none =>
        rw [extend, h.unbound hlookup, if_neg]
        · rfl
        · rintro ⟨hvar, hmem, -⟩
          obtain ⟨p, hp, heq⟩ := List.mem_map.1 (hall _ (mem_zipIdx_idxOf hmem) hvar hlookup)
          exact absurd (List.lookup_eq_none_iff.1 hvars p hp) (by simp [heq])

theorem lookup_fillHoles {vars : List (Bytes × ℕ)} {bind : Result} (h : Fresh vars bind) (v : Bytes) :
    (fillHoles vars bind).lookup v = (bind.lookup v).or ((vars.lookup v).map fun _ => none) := by
  rw [fillHoles_eq h, List.lookup_append]
  congr 1
  clear h
  induction vars with
  | nil => rfl
  | cons u vars ih =>
    rw [List.map_cons, List.lookup_cons, List.lookup_cons, ih]
    cases v == u.1 <;> rfl

/-- An optional triple pattern that nothing fits. -/
theorem Represents.holes {facts : List Fact} {earlier : List TriplePattern} {bind : Result} {b : Assignment}
    (h : Represents facts earlier bind b) {t : TriplePattern} {u : List Bytes × List (Bytes × ℕ)}
    (hu : substitute bind 0 t.parts = some u) : Represents facts (t :: earlier) (fillHoles u.2 bind) b := by
  have hfresh := substitute_fresh hu
  obtain ⟨hin, hall⟩ := substitute_vars hu
  refine ⟨⟨fun t' ht' v hv hvar hnone => ?_, fun v n hv => ?_⟩, fun v n hv => ?_, funext fun v => ?_⟩
  · rw [lookup_fillHoles hfresh, Option.or_eq_none_iff, Option.map_eq_none_iff] at hnone
    rcases List.mem_cons.1 ht' with rfl | ht'
    · obtain ⟨p, hp, heq⟩ := List.mem_map.1 (hall _ (mem_zipIdx_idxOf hv) hvar hnone.1)
      exact absurd (List.lookup_eq_none_iff.1 hnone.2 p hp) (by simp [heq])
    · exact h.bound.bound t' ht' v hv hvar hnone.1
  · rw [lookup_fillHoles hfresh, Option.or_eq_some_iff] at hv
    rcases hv with hv | ⟨-, hv⟩
    · obtain ⟨t', ht', horigin⟩ := h.bound.origin v n hv
      exact ⟨t', List.mem_cons_of_mem _ ht', horigin⟩
    · obtain ⟨k, -, hk⟩ := Option.map_eq_some_iff.1 hv
      cases hk
  · rw [lookup_fillHoles hfresh, Option.or_eq_some_iff] at hv
    rcases hv with hv | ⟨-, hv⟩
    · obtain ⟨t', ht', hv'⟩ := h.keys v n hv
      exact ⟨t', List.mem_cons_of_mem _ ht', hv'⟩
    · obtain ⟨k, hk, -⟩ := Option.map_eq_some_iff.1 hv
      obtain ⟨hmem, hvar, -⟩ := hin (v, k) (lookup_vars hk)
      exact ⟨t, List.mem_cons_self, List.fst_mem_of_mem_zipIdx hmem, hvar⟩
  · rw [Result.assign, lookup_fillHoles hfresh, ← h.assign, Result.assign]
    cases bind.lookup v with
    | some n => rfl
    | none => cases u.2.lookup v <;> rfl

/-! ## All triple patterns -/

/-- **The answers are the left outer join** where no triple pattern is blocked. -/
theorem answers_leftJoin {patterns earlier : List TriplePattern} (hre : Reparses prefixes store.facts (earlier ++ patterns))
    (hnew : AllNewOnce earlier patterns) {bind : Result} {b : Assignment} (h : Represents store.facts earlier bind b)
    (hunblocked : Unblocked store prefixes earlier patterns b) :
    ((answers (store.search prefixes) patterns bind).map Result.assign).Perm (leftJoin store prefixes patterns b) := by
  induction patterns generalizing earlier bind b with
  | nil => simp [answers, leftJoin, h.assign]
  | cons t patterns ih =>
    rw [answers]
    cases hsub : substitute bind 0 t.parts with
    | none =>
      rw [hunblocked.1 ((h.blocked_iff t).1 hsub)]
      exact .refl _
    | some u =>
      have hopen : ¬ Blocked earlier b t := fun hblocked => by
        rw [(h.blocked_iff t).2 hblocked] at hsub
        cases hsub
      obtain ⟨hholes, htaken⟩ := hunblocked.2 hopen
      have hsearch := search_perm h hre hnew.1 hsub
      have hnone : store.search prefixes u.1 = [] ↔ fitting store prefixes b t = [] := by
        rw [← List.length_eq_zero_iff, hsearch.length_eq, List.length_eq_zero_iff]
      rw [leftJoin]
      simp only [hnone]
      split
      · rename_i hempty
        exact ih hre.next hnew.2 (h.holes hsub) (hholes hempty)
      · rw [List.map_flatMap]
        refine hsearch.flatMap fun f hf => ?_
        have hfits := hsearch.mem_iff.1 hf
        exact ih hre.next hnew.2 (h.taken hnew.1 hsub (List.mem_of_mem_filter hfits)) (htaken f hfits)

theorem length_flatMap_le {α β γ : Type} {l : List α} {f : α → List β} {g : α → List γ}
    (h : ∀ a ∈ l, (f a).length ≤ (g a).length) :
    (l.flatMap f).length ≤ (l.flatMap g).length ∧
      ((l.flatMap f).length = (l.flatMap g).length → ∀ a ∈ l, (f a).length = (g a).length) := by
  induction l with
  | nil => simp
  | cons a l ih =>
    rw [List.forall_mem_cons] at h
    obtain ⟨hle, heq⟩ := ih h.2
    rw [List.flatMap_cons, List.flatMap_cons, List.length_append, List.length_append, List.forall_mem_cons]
    exact ⟨by omega, fun hsum => ⟨by omega, heq (by omega)⟩⟩

/-- There are no more answers, and as many only where no triple pattern is blocked. -/
theorem answers_length {patterns earlier : List TriplePattern} (hre : Reparses prefixes store.facts (earlier ++ patterns))
    (hnew : AllNewOnce earlier patterns) {bind : Result} {b : Assignment} (h : Represents store.facts earlier bind b) :
    (answers (store.search prefixes) patterns bind).length ≤ (leftJoin store prefixes patterns b).length ∧
      ((answers (store.search prefixes) patterns bind).length = (leftJoin store prefixes patterns b).length →
        Unblocked store prefixes earlier patterns b) := by
  induction patterns generalizing earlier bind b with
  | nil => exact ⟨by simp [answers, leftJoin], fun _ => trivial⟩
  | cons t patterns ih =>
    rw [answers, Unblocked]
    cases hsub : substitute bind 0 t.parts with
    | none =>
      refine ⟨Nat.zero_le _, fun hlength => ⟨fun _ => List.length_eq_zero_iff.1 hlength.symm, fun hopen => ?_⟩⟩
      exact absurd ((h.blocked_iff t).1 hsub) hopen
    | some u =>
      have hopen : ¬ Blocked earlier b t := fun hblocked => by
        rw [(h.blocked_iff t).2 hblocked] at hsub
        cases hsub
      have hsearch := search_perm h hre hnew.1 hsub
      have hnone : store.search prefixes u.1 = [] ↔ fitting store prefixes b t = [] := by
        rw [← List.length_eq_zero_iff, hsearch.length_eq, List.length_eq_zero_iff]
      rw [leftJoin]
      simp only [hnone, hopen, false_implies, not_false_eq_true, true_implies, true_and]
      split
      · rename_i hempty
        obtain ⟨hle, heq⟩ := ih hre.next hnew.2 (h.holes hsub)
        refine ⟨hle, fun hlength => ⟨fun _ => heq hlength, fun f hf => ?_⟩⟩
        rw [hempty.2] at hf
        cases hf
      · rename_i hsome
        rw [((hsearch.symm).flatMap_right _).length_eq]
        have hdeeper := fun f (hf : f ∈ store.search prefixes u.1) => ih hre.next hnew.2
          (h.taken hnew.1 hsub (List.mem_of_mem_filter (hsearch.mem_iff.1 hf)))
        obtain ⟨hle, heq⟩ := length_flatMap_le fun f hf => (hdeeper f hf).1
        refine ⟨hle, fun hlength => ⟨fun hempty => absurd hempty hsome, fun f hf => ?_⟩⟩
        have hfound := hsearch.mem_iff.2 hf
        exact (hdeeper f hfound).2 (heq hlength f hfound)

theorem represents_nil (facts : List Fact) : Represents facts [] [] fun _ => none :=
  ⟨bound_nil facts, by simp, rfl⟩

end RdfStore.Query
