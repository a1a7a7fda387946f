import RdfStore.Query.Answers
import RdfStore.Query.Evaluation

/-!
# Graph patterns with constraints (`_each_other` of `DBD/RDFStore.pm`)

The search is called again and again until a result passes the constraints or
nothing is left to be visited.

    call after call gives the answers that pass          (matches_constrained)
-/

namespace RdfStore.Query

open ByteMem Streams

variable (P : Perl) (search : List Bytes → List Fact) (patterns : List TriplePattern) (constraints : List Bytes)

/-! ## The loop -/

/-- `keys %{$sth->{'iterators'}->{$rpi}}` -/
def Progress.visiting (s : Progress) : Bool := s.iterators.any Option.isSome

/-- Whether `eval` answers a true value. -/
def passes (r : Result) : Bool := (eval (P := P) r.binding constraints).isTrue

/-- `while`, `n` times at most. -/
def constrainedLoop : ℕ → Result × Progress → Option (Result × Progress)
  | n, t =>
    if t.1 ≠ [] ∧ passes P constraints t.1 = false ∧ t.2.visiting = true then
      match n with
      | 0 => none
      | n + 1 => constrainedLoop n (eachOther search patterns t.2)
    else some t

/-- `_each_other`; a loop that is run through more than `n` times answers nothing. -/
def eachConstrained (n : ℕ) (s : Progress) : Result × Progress :=
  let t := eachOther search patterns s
  if constraints = [] then t else (constrainedLoop P search patterns constraints n t).getD ([], t.2)

variable {P search patterns constraints}

/-! ## The results that pass -/

/-- Behind a result there is an iterator, if only an empty one. -/
theorem Suspended.visiting {binds : List Result} {iterators : List (Option Level)} {rest : List Result}
    (hpatterns : patterns ≠ []) (h : Suspended search patterns [] binds iterators rest) :
    iterators.any Option.isSome = true := by
  obtain ⟨t, ts, rfl⟩ := List.exists_cons_of_ne_nil hpatterns
  obtain ⟨level, -, -, iterators', -, rfl, -⟩ := h
  rfl

/-- The loop ends with the first result that passes, or behind the last one. -/
theorem constrainedLoop_delivers (P : Perl) (constraints : List Bytes) (hpatterns : patterns ≠ []) {rest : List Result} (hrest : ∀ r ∈ rest, r ≠ [])
    {s : Progress} (h : Delivers search patterns [] (eachOther search patterns s).2 rest) {n : ℕ}
    (hn : rest.length ≤ n) :
    ∃ t, constrainedLoop P search patterns constraints n (eachOther search patterns s) = some t ∧ t.1 = t.2.result ∧
      Delivers search patterns [] t.2 (rest.dropWhile fun r => !passes P constraints r) := by
  induction rest generalizing s n with
  | nil =>
    refine ⟨eachOther search patterns s, ?_, rfl, h⟩
    unfold constrainedLoop
    exact if_neg fun hloop => hloop.1 h.1
  | cons r rest ih =>
    have hr : (eachOther search patterns s).1 = r := h.1
    have hrest' : ∀ u ∈ rest, u ≠ [] := fun u hu => hrest u (List.mem_cons_of_mem _ hu)
    by_cases hpass : passes P constraints r = true
    · refine ⟨eachOther search patterns s, ?_, rfl, ?_⟩
      · unfold constrainedLoop
        refine if_neg ?_
        rintro ⟨-, hfails, -⟩
        rw [hr, hpass] at hfails
        cases hfails
      · rw [List.dropWhile_cons_of_neg (by simp [hpass])]
        exact h
    · obtain ⟨n, rfl⟩ := Nat.exists_eq_add_one.2 (show 0 < n by rw [List.length_cons] at hn; omega)
      obtain ⟨binds, hsuspended, -⟩ := h.2
      have hloop : (eachOther search patterns s).1 ≠ [] ∧ passes P constraints (eachOther search patterns s).1 = false ∧
          (eachOther search patterns s).2.visiting = true :=
        ⟨hr ▸ hrest r List.mem_cons_self, by rw [hr]; simpa using hpass, hsuspended.visiting hpatterns⟩
      obtain ⟨t, ht, hresult, hdelivers⟩ := ih hrest' (delivers_next hpatterns hrest' h) (n := n)
        (by rw [List.length_cons] at hn; omega)
      refine ⟨t, ?_, hresult, ?_⟩
      · rw [constrainedLoop, if_pos hloop]
        exact ht
      · rw [List.dropWhile_cons_of_pos (by simp [hpass])]
        exact hdelivers

theorem matches_of_delivers_constrained (hpatterns : patterns ≠ []) {rest : List Result} (hrest : ∀ r ∈ rest, r ≠ [])
    (hconstraints : constraints ≠ []) {s : Progress}
    (h : Delivers search patterns [] (eachOther search patterns s).2 rest) {n : ℕ} (hn : rest.length ≤ n) :
    Matches (eachConstrained P search patterns constraints n) s (rest.filter (passes P constraints)) := by
  unfold Matches
  induction hlength : rest.length using Nat.strong_induction_on generalizing s rest with
  | _ m ih =>
    obtain ⟨t, ht, hresult, hdelivers⟩ := constrainedLoop_delivers P constraints hpatterns hrest h hn
    have heach : eachConstrained P search patterns constraints n s = t := by
      rw [eachConstrained, if_neg hconstraints, ht, Option.getD_some]
    have hfilter : rest.filter (passes P constraints) =
        (rest.dropWhile fun r => !passes P constraints r).filter (passes P constraints) := by
      conv_lhs => rw [← List.takeWhile_append_dropWhile (p := fun r => !passes P constraints r) (l := rest)]
      rw [List.filter_append, List.filter_eq_nil_iff.2, List.nil_append]
      intro r hr
      simpa using List.mem_takeWhile_imp hr
    rw [hfilter]
    cases hdrop : rest.dropWhile fun r => !passes P constraints r with
    | nil =>
      rw [hdrop] at hdelivers
      refine .nil (t := t.2) ?_
      rw [heach, if_pos (hresult.trans hdelivers.1)]
    | cons r later =>
      rw [hdrop] at hdelivers
      have hmem : ∀ u ∈ r :: later, u ∈ rest := fun u hu => List.dropWhile_subset _ (hdrop ▸ hu)
      have hpass : passes P constraints r = true := by
        have hhead := List.head?_dropWhile_not (fun r => !passes P constraints r) rest
        rw [hdrop] at hhead
        simpa using hhead
      have hr : t.1 = r := hresult.trans hdelivers.1
      have hlater : ∀ u ∈ later, u ≠ [] := fun u hu => hrest u (hmem u (List.mem_cons_of_mem _ hu))
      have hshort : later.length < rest.length := by
        have := List.length_dropWhile_le (fun r => !passes P constraints r) rest
        rw [hdrop, List.length_cons] at this
        exact this
      rw [List.filter_cons_of_pos hpass]
      refine .cons (t := t.2) ?_ (ih later.length (hlength ▸ hshort) hlater (delivers_next hpatterns hlater hdelivers)
        (by omega) rfl)
      rw [heach, if_neg (hr ▸ hrest r (hmem r List.mem_cons_self)), hr]

/-- **Call after call the search gives the answers that pass**, in their order, and then none. -/
theorem matches_constrained (h : Starts patterns []) (hconstraints : constraints ≠ []) {n : ℕ}
    (hn : (answers search patterns []).length ≤ n) :
    Matches (eachConstrained P search patterns constraints n) .start
      ((answers search patterns []).filter (passes P constraints)) :=
  matches_of_delivers_constrained h.patterns (starts_answers_ne_nil h) hconstraints (delivers_start h) hn

end RdfStore.Query
