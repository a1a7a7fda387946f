import RdfStore.Query.Matching

/-!
# The results of the search

`answers` runs through the triple patterns without a stack: for each statement of
the first one, the answers of the others under the bindings it gives.

    call after call gives the answers          (matches_answers)
-/

namespace RdfStore.Query

open ByteMem Streams

variable (search : List Bytes → List Fact)

/-! ## Answers -/

/-- The bindings that the triple patterns give to more variables, in the order in which they are found. -/
def answers : List TriplePattern → Result → List Result
  | [], bind => [bind]
  | t :: patterns, bind =>
    match substitute bind 0 t.parts with
    | none => []
    | some (parts, vars) =>
      if t.optional = true ∧ search parts = [] then answers patterns (fillHoles vars bind)
      else (search parts).flatMap fun f => answers patterns (bindFact vars f bind)

variable {search}

/-! ## Bindings -/

/-- Variables that are different and not bound. -/
structure Fresh (vars : List (Bytes × ℕ)) (bind : Result) : Prop where
  nodup : (vars.map (·.1)).Nodup
  disjoint : ∀ v ∈ vars.map (·.1), v ∉ bind.map (·.1)

theorem lookup_eq_none_iff_not_mem (bind : Result) (v : Bytes) : bind.lookup v = none ↔ v ∉ bind.map (·.1) := by
  rw [List.lookup_eq_none_iff]
  constructor
  · intro h hv
    obtain ⟨p, hp, rfl⟩ := List.mem_map.1 hv
    simpa using h p hp
  · intro h p hp
    rw [bne_iff_ne]
    rintro rfl
    exact h (List.mem_map_of_mem hp)

theorem substitute_fresh {bind : Result} {j : ℕ} {parts : List Bytes} {t : List Bytes × List (Bytes × ℕ)}
    (h : substitute bind j parts = some t) : Fresh t.2 bind := by
  induction parts generalizing j t with
  | nil =>
    cases h
    exact ⟨List.nodup_nil, by simp⟩
  | cons s parts ih =>
    rw [substitute, Option.bind_eq_some_iff] at h
    obtain ⟨u, hu, h⟩ := h
    have hfresh := ih hu
    by_cases hs : isVariable s = true
    · rw [if_pos hs] at h
      cases hlookup : bind.lookup s with
      | some n =>
        rw [hlookup] at h
        obtain ⟨w, -, rfl⟩ := Option.map_eq_some_iff.1 h
        exact hfresh
      | none =>
        rw [hlookup] at h
        cases h
        by_cases hmem : s ∈ u.2.map (·.1)
        · simpa only [if_pos hmem] using hfresh
        · simp only [if_neg hmem]
          constructor
          · rw [List.map_cons, List.nodup_cons]
            exact ⟨hmem, hfresh.nodup⟩
          · intro v hv
            rw [List.map_cons, List.mem_cons] at hv
            rcases hv with rfl | hv
            · exact (lookup_eq_none_iff_not_mem bind v).1 hlookup
            · exact hfresh.disjoint v hv
    · rw [if_neg hs] at h
      cases h
      exact hfresh

theorem set_of_not_mem {bind : Result} {v : Bytes} (h : v ∉ bind.map (·.1)) (n : Option Node) :
    bind.set v n = bind ++ [(v, n)] := if_neg h

/-- Fresh variables go behind the others. -/
theorem bindFact_eq {vars : List (Bytes × ℕ)} {bind : Result} (h : Fresh vars bind) (f : Fact) :
    bindFact vars f bind = bind ++ vars.map fun v => (v.1, f.part v.2) := by
  induction vars generalizing bind with
  | nil => simp [bindFact]
  | cons v vars ih =>
    obtain ⟨hnodup, hdisjoint⟩ := h
    rw [List.map_cons, List.nodup_cons] at hnodup
    have hv : v.1 ∉ bind.map (·.1) := hdisjoint v.1 (by simp)
    have hrest : Fresh vars (bind ++ [(v.1, f.part v.2)]) := by
      refine ⟨hnodup.2, fun u hu => ?_⟩
      rw [List.map_append, List.mem_append, not_or]
      refine ⟨hdisjoint u (List.mem_cons_of_mem _ hu), ?_⟩
      rintro hmem
      rw [List.map_singleton, List.mem_singleton] at hmem
      exact hnodup.1 (hmem ▸ hu)
    have hfold := ih hrest
    unfold bindFact at hfold ⊢
    rw [List.foldl_cons, set_of_not_mem hv, hfold]
    simp

theorem fillHoles_eq {vars : List (Bytes × ℕ)} {bind : Result} (h : Fresh vars bind) :
    fillHoles vars bind = bind ++ vars.map fun v => (v.1, none) := by
  induction vars generalizing bind with
  | nil => simp [fillHoles]
  | cons v vars ih =>
    obtain ⟨hnodup, hdisjoint⟩ := h
    rw [List.map_cons, List.nodup_cons] at hnodup
    have hv : v.1 ∉ bind.map (·.1) := hdisjoint v.1 (by simp)
    have hrest : Fresh vars (bind ++ [(v.1, none)]) := by
      refine ⟨hnodup.2, fun u hu => ?_⟩
      rw [List.map_append, List.mem_append, not_or]
      refine ⟨hdisjoint u (List.mem_cons_of_mem _ hu), ?_⟩
      rintro hmem
      rw [List.map_singleton, List.mem_singleton] at hmem
      exact hnodup.1 (hmem ▸ hu)
    have hfold := ih hrest
    unfold fillHoles at hfold ⊢
    rw [List.foldl_cons, if_neg hv, set_of_not_mem hv, hfold]
    simp

/-- What was put behind the bindings is taken away. -/
theorem forget_append {vars : List (Bytes × ℕ)} {bind : Result} (h : Fresh vars bind) (value : Bytes × ℕ → Option Node) :
    forget vars (bind ++ vars.map fun v => (v.1, value v)) = bind := by
  unfold forget
  rw [List.filter_append]
  have hkept : bind.filter (fun e => !(vars.map (·.1)).contains e.1) = bind := by
    refine List.filter_eq_self.2 fun e he => ?_
    have : e.1 ∉ vars.map (·.1) := fun hmem => h.disjoint e.1 hmem (List.mem_map_of_mem he)
    simp only [List.contains_eq_mem, this, decide_false, Bool.not_false]
  have hgone : (vars.map fun v => (v.1, value v)).filter (fun e => !(vars.map (·.1)).contains e.1) = [] := by
    refine List.filter_eq_nil_iff.2 fun e he => ?_
    obtain ⟨v, hv, rfl⟩ := List.mem_map.1 he
    simp only [List.contains_eq_mem, List.mem_map_of_mem hv, decide_true, Bool.not_true, Bool.false_eq_true, not_false_eq_true]
  rw [hkept, hgone, List.append_nil]

theorem forget_bindFact {vars : List (Bytes × ℕ)} {bind : Result} (h : Fresh vars bind) (f : Fact) :
    forget vars (bindFact vars f bind) = bind := by
  rw [bindFact_eq h]
  exact forget_append h _

theorem forget_fillHoles {vars : List (Bytes × ℕ)} {bind : Result} (h : Fresh vars bind) :
    forget vars (fillHoles vars bind) = bind := by
  rw [fillHoles_eq h]
  exact forget_append h _

theorem set_append {bind rest : Result} {v : Bytes} (hbind : v ∉ bind.map (·.1)) (hrest : v ∉ rest.map (·.1))
    (m n : Option Node) : Result.set (bind ++ (v, m) :: rest) v n = bind ++ (v, n) :: rest := by
  have hsame : ∀ l : Result, v ∉ l.map (·.1) → l.map (fun e => if e.1 = v then (v, n) else e) = l := by
    intro l hl
    refine (List.map_congr_left fun e he => ?_).trans (List.map_id l)
    exact if_neg fun heq : e.1 = v => hl (heq ▸ List.mem_map_of_mem he)
  rw [Result.set, if_pos (by simp), List.map_append, List.map_cons, hsame bind hbind, hsame rest hrest, if_pos rfl]

/-- The next statement takes the place of the one before. -/
theorem bindFact_append {vars : List (Bytes × ℕ)} {bind : Result} (h : Fresh vars bind) (f g : Fact) :
    bindFact vars g (bind ++ vars.map fun v => (v.1, f.part v.2)) = bind ++ vars.map fun v => (v.1, g.part v.2) := by
  induction vars generalizing bind with
  | nil => rfl
  | cons v vars ih =>
    obtain ⟨hnodup, hdisjoint⟩ := h
    rw [List.map_cons, List.nodup_cons] at hnodup
    have hv : v.1 ∉ bind.map (·.1) := hdisjoint v.1 (by simp)
    have hvars : v.1 ∉ (vars.map fun u => (u.1, f.part u.2)).map (·.1) := by
      rw [List.map_map]
      exact hnodup.1
    have hrest : Fresh vars (bind ++ [(v.1, g.part v.2)]) := by
      refine ⟨hnodup.2, fun u hu => ?_⟩
      rw [List.map_append, List.mem_append, not_or]
      refine ⟨hdisjoint u (List.mem_cons_of_mem _ hu), ?_⟩
      rintro hmem
      rw [List.map_singleton, List.mem_singleton] at hmem
      exact hnodup.1 (hmem ▸ hu)
    have hfold := ih hrest
    unfold bindFact at hfold ⊢
    rw [List.map_cons, List.foldl_cons, set_append hv hvars, List.map_cons]
    simpa using hfold

theorem bindFact_bindFact {vars : List (Bytes × ℕ)} {bind : Result} (h : Fresh vars bind) (f g : Fact) :
    bindFact vars g (bindFact vars f bind) = bindFact vars g bind := by
  rw [bindFact_eq h f, bindFact_append h, bindFact_eq h]

theorem bindFact_ne_nil {vars : List (Bytes × ℕ)} {bind : Result} (h : Fresh vars bind) (hne : bind ≠ [] ∨ vars ≠ [])
    (f : Fact) : bindFact vars f bind ≠ [] := by
  rw [bindFact_eq h]
  simpa [or_iff_not_imp_left] using hne

theorem fillHoles_ne_nil {vars : List (Bytes × ℕ)} {bind : Result} (h : Fresh vars bind) (hne : bind ≠ [] ∨ vars ≠ []) :
    fillHoles vars bind ≠ [] := by
  rw [fillHoles_eq h]
  simpa [or_iff_not_imp_left] using hne

theorem answers_ne_nil {patterns : List TriplePattern} {bind : Result} (h : bind ≠ []) :
    ∀ r ∈ answers search patterns bind, r ≠ [] := by
  induction patterns generalizing bind with
  | nil => simpa [answers] using h
  | cons t patterns ih =>
    rw [answers]
    cases hsub : substitute bind 0 t.parts with
    | none => simp
    | some u =>
      obtain ⟨parts, vars⟩ := u
      have hfresh := substitute_fresh hsub
      simp only
      split
      · exact ih (fillHoles_ne_nil hfresh (Or.inl h))
      · intro r hr
        obtain ⟨f, -, hr⟩ := List.mem_flatMap.1 hr
        exact ih (bindFact_ne_nil hfresh (Or.inl h) f) r hr

/-- The bindings are not empty behind the first triple pattern. -/
def Starts (patterns : List TriplePattern) (bind : Result) : Prop :=
  bind ≠ [] ∨ ∃ t ∈ patterns.head?, ∃ v ∈ t.parts, isVariable v = true

theorem substitute_vars_ne_nil {j : ℕ} {parts : List Bytes} {t : List Bytes × List (Bytes × ℕ)}
    (h : substitute [] j parts = some t) (hvar : ∃ v ∈ parts, isVariable v = true) : t.2 ≠ [] := by
  induction parts generalizing j t with
  | nil => simp at hvar
  | cons s parts ih =>
    rw [substitute, Option.bind_eq_some_iff] at h
    obtain ⟨u, hu, h⟩ := h
    by_cases hs : isVariable s = true
    · rw [if_pos hs] at h
      cases h
      simp only
      split
      · rename_i hmem
        exact fun hnil => by simp [hnil] at hmem
      · simp
    · rw [if_neg hs] at h
      cases h
      obtain ⟨v, hv, hvar⟩ := hvar
      rcases List.mem_cons.1 hv with rfl | hv
      · exact absurd hvar hs
      · exact ih (t := u) hu ⟨v, hv, hvar⟩

theorem Starts.vars {t : TriplePattern} {patterns : List TriplePattern} {bind : Result} (h : Starts (t :: patterns) bind)
    {u : List Bytes × List (Bytes × ℕ)} (hu : substitute bind 0 t.parts = some u) : bind ≠ [] ∨ u.2 ≠ [] := by
  by_cases hbind : bind = []
  · subst hbind
    obtain ⟨t', ht', hvar⟩ := h.resolve_left (by simp)
    cases ht'
    exact Or.inr (substitute_vars_ne_nil hu hvar)
  · exact Or.inl hbind

/-! ## Between two calls -/

/-- No iterator is left. -/
def Clear (iterators : List (Option Level)) : Prop := ∀ x ∈ iterators, x = none

/-- Where the search was left after a result, and the results that are still to come: at each level an iterator
and, on the stack, the bindings the next level was called with. -/
def Suspended (search : List Bytes → List Fact) :
    List TriplePattern → Result → List Result → List (Option Level) → List Result → Prop
  | [], _, binds, iterators, rest => binds = [] ∧ Clear iterators ∧ rest = []
  | _ :: patterns, bind, binds, iterators, rest =>
    ∃ level below binds' iterators' rest', iterators = some level :: iterators' ∧ Fresh level.vars bind ∧
      (bind ≠ [] ∨ level.vars ≠ []) ∧ below ≠ [] ∧ Suspended search patterns below binds' iterators' rest' ∧
      binds = (if patterns = [] then [] else below :: binds') ∧
      rest = rest' ++ level.items.flatMap fun f => answers search patterns (bindFact level.vars f bind)

/-- What a call leaves behind: the first of the results that are still to come. -/
def Delivers (search : List Bytes → List Fact) (patterns : List TriplePattern) (bind : Result) (s : Progress) :
    List Result → Prop
  | [] => s.result = [] ∧ s.binds = [] ∧ Clear s.iterators
  | r :: rest =>
    s.result = r ∧ ∃ binds, Suspended search patterns bind binds s.iterators rest ∧
      s.binds = if patterns = [] then [] else pushBind bind binds

/-! ## One call -/

theorem pushBind_ne_nil {bind : Result} (h : bind ≠ []) (binds : List Result) : pushBind bind binds = bind :: binds :=
  if_neg h

/-- The loop over an iterator: the first statement with an answer behind it gives the result, and the loop is left
with the bindings it was entered with. -/
theorem eachFact_delivers {t : TriplePattern} {patterns : List TriplePattern} {bind : Result} {vars : List (Bytes × ℕ)}
    (hfresh : Fresh vars bind) (hne : bind ≠ [] ∨ vars ≠ [])
    (hdeeper : ∀ (b : Result) (s : Progress), b ≠ [] → s.binds = [] → Clear s.iterators → s.result = [] →
      Delivers search patterns b (nextMatch search patterns b s) (answers search patterns b))
    (items : List Fact) (current : Result) (hcurrent : ∀ f, bindFact vars f current = bindFact vars f bind)
    (s : Progress) (hbinds : s.binds = []) (hclear : Clear s.iterators) (hresult : s.result = []) :
    Delivers search (t :: patterns) bind (eachFact (nextMatch search patterns) vars items current s)
      (items.flatMap fun f => answers search patterns (bindFact vars f bind)) := by
  induction items generalizing current s with
  | nil => exact ⟨hresult, hbinds, by simpa [eachFact, Clear] using hclear⟩
  | cons f items ih =>
    have hbelow : bindFact vars f bind ≠ [] := bindFact_ne_nil hfresh hne f
    have hcall := hdeeper (bindFact vars f bind) s hbelow hbinds hclear hresult
    rw [eachFact, hcurrent f, List.flatMap_cons]
    cases hanswers : answers search patterns (bindFact vars f bind) with
    | nil =>
      rw [hanswers] at hcall
      obtain ⟨hresult', hbinds', hclear'⟩ := hcall
      rw [if_neg (not_not.2 hresult'), List.nil_append]
      exact ih _ (fun g => bindFact_bindFact hfresh f g) _ hbinds' hclear' hresult'
    | cons r rest =>
      rw [hanswers] at hcall
      obtain ⟨hresult', binds, hsuspended, hbinds'⟩ := hcall
      have hr : r ≠ [] := answers_ne_nil hbelow r (hanswers ▸ List.mem_cons_self)
      rw [if_pos (hresult' ▸ hr), forget_bindFact hfresh f, List.cons_append]
      refine ⟨hresult', _, ⟨⟨items, vars⟩, bindFact vars f bind, binds, _, rest, rfl, hfresh, hne, hbelow, hsuspended, ?_, rfl⟩,
        (if_neg (by simp)).symm⟩
      rw [hbinds', pushBind_ne_nil hbelow]

/-- A call of `_nextMatch` gives the first answer, or the first of those that are still to come. -/
theorem nextMatch_delivers (patterns : List TriplePattern) :
    (∀ (bind : Result) (s : Progress), Starts patterns bind → s.binds = [] → Clear s.iterators → s.result = [] →
      Delivers search patterns bind (nextMatch search patterns bind s) (answers search patterns bind)) ∧
    (∀ (bind : Result) (s : Progress) (rest : List Result), patterns ≠ [] → (∀ r ∈ rest, r ≠ []) →
      Suspended search patterns bind s.binds s.iterators rest → s.result = [] →
      Delivers search patterns bind (nextMatch search patterns bind s) rest) := by
  induction patterns with
  | nil =>
    refine ⟨fun bind s _ hbinds hclear hresult => ?_, fun _ _ _ hne => absurd rfl hne⟩
    rw [nextMatch, hbinds, copyResult, if_pos hresult]
    exact ⟨rfl, [], ⟨rfl, hclear, rfl⟩, rfl⟩
  | cons t patterns ih =>
    obtain ⟨ihfirst, ihnext⟩ := ih
    have hdeeper : ∀ (b : Result) (s : Progress), b ≠ [] → s.binds = [] → Clear s.iterators → s.result = [] →
        Delivers search patterns b (nextMatch search patterns b s) (answers search patterns b) :=
      fun b s hb => ihfirst b s (Or.inl hb)
    constructor
    · intro bind s hstarts hbinds hclear hresult
      have hown : s.iterators.head?.join = none := by
        cases hiterators : s.iterators with
        | nil => rfl
        | cons x its =>
          rw [hiterators] at hclear
          rw [hclear x List.mem_cons_self]
          rfl
      have htail : Clear s.iterators.tail := fun x hx => hclear x (List.mem_of_mem_tail hx)
      rw [nextMatch, answers]
      simp only [hbinds, hown, hresult, ne_eq, not_true_eq_false, if_false]
      cases hsub : substitute bind 0 t.parts with
      | none => exact ⟨rfl, rfl, by simpa [Clear] using htail⟩
      | some u =>
        obtain ⟨parts, vars⟩ := u
        have hfresh := substitute_fresh hsub
        have hne := hstarts.vars hsub
        simp only
        split
        · have hfill := fillHoles_ne_nil hfresh hne
          have hcall := hdeeper (fillHoles vars bind) ⟨[], s.iterators.tail, []⟩ hfill rfl htail rfl
          cases hanswers : answers search patterns (fillHoles vars bind) with
          | nil =>
            rw [hanswers] at hcall
            obtain ⟨hresult', hbinds', hclear'⟩ := hcall
            rw [if_neg (not_not.2 hresult')]
            exact ⟨hresult', hbinds', by simpa [eachFact, Clear] using hclear'⟩
          | cons r rest =>
            rw [hanswers] at hcall
            obtain ⟨hresult', binds, hsuspended, hbinds'⟩ := hcall
            have hr : r ≠ [] := answers_ne_nil hfill r (hanswers ▸ List.mem_cons_self)
            rw [if_pos (hresult' ▸ hr), forget_fillHoles hfresh]
            refine ⟨hresult', _, ⟨⟨[], vars⟩, fillHoles vars bind, binds, _, rest, rfl, hfresh, hne, hfill, hsuspended, ?_,
              by simp⟩, (if_neg (by simp)).symm⟩
            rw [hbinds', pushBind_ne_nil hfill]
        · exact eachFact_delivers hfresh hne hdeeper (search parts) bind (fun _ => rfl) _ rfl htail rfl
    · intro bind s rest _ hrest hsuspended hresult
      obtain ⟨level, below, binds', iterators', rest', hiterators, hfresh, hne, hbelow, hdeep, hbinds, rfl⟩ := hsuspended
      rw [nextMatch]
      simp only [hiterators, List.head?_cons, Option.join_some, List.tail_cons]
      by_cases hnil : patterns = []
      · subst hnil
        obtain ⟨-, hclear, rfl⟩ := hdeep
        rw [if_pos rfl] at hbinds
        simp only [hbinds, hresult, ne_eq, not_true_eq_false, if_false, List.nil_append]
        exact eachFact_delivers hfresh hne hdeeper level.items bind (fun _ => rfl) _ rfl hclear rfl
      · rw [if_neg hnil] at hbinds
        simp only [hbinds]
        have hcall := ihnext below ⟨binds', iterators', s.result⟩ rest' hnil
          (fun r hr => hrest r (List.mem_append_left _ hr)) hdeep hresult
        cases rest' with
        | nil =>
          obtain ⟨hresult', hbinds', hclear'⟩ := hcall
          rw [if_neg (not_not.2 hresult'), List.nil_append]
          exact eachFact_delivers hfresh hne hdeeper level.items bind (fun _ => rfl) _ hbinds' hclear' hresult'
        | cons r rest' =>
          obtain ⟨hresult', binds, hsuspended, hbinds'⟩ := hcall
          have hr : r ≠ [] := hrest r (by simp)
          rw [if_pos (hresult' ▸ hr), List.cons_append]
          refine ⟨hresult', _, ⟨level, below, binds, _, rest', rfl, hfresh, hne, hbelow, hsuspended, ?_, rfl⟩,
            (if_neg (by simp)).symm⟩
          rw [hbinds', pushBind_ne_nil hbelow]

/-! ## No results -/

/-- Nothing is left to be recovered, and there is no result. -/
structure Idle (s : Progress) : Prop where
  binds : s.binds = []
  clear : Clear s.iterators
  result : s.result = []

theorem eachFact_idle {patterns : List TriplePattern} {bind : Result} {vars : List (Bytes × ℕ)}
    (hdeeper : ∀ (b : Result) (s : Progress), answers search patterns b = [] → Idle s → Idle (nextMatch search patterns b s))
    (items : List Fact) (hitems : ∀ f ∈ items, answers search patterns (bindFact vars f bind) = []) (current : Result)
    (hfresh : Fresh vars bind) (hcurrent : ∀ f, bindFact vars f current = bindFact vars f bind) (s : Progress)
    (h : Idle s) : Idle (eachFact (nextMatch search patterns) vars items current s) := by
  induction items generalizing current s with
  | nil => exact ⟨h.binds, by simpa [eachFact, Clear] using h.clear, h.result⟩
  | cons f items ih =>
    have hcall := hdeeper (bindFact vars f bind) s (hitems f List.mem_cons_self) h
    rw [eachFact, hcurrent f]
    simp only [hcall.result, ne_eq, not_true_eq_false, if_false]
    exact ih (fun g hg => hitems g (List.mem_cons_of_mem _ hg)) _ (fun g => bindFact_bindFact hfresh f g) _ hcall

/-- Without answers a call gives no result and leaves nothing behind. -/
theorem nextMatch_idle {patterns : List TriplePattern} {bind : Result} {s : Progress}
    (h : answers search patterns bind = []) (hs : Idle s) : Idle (nextMatch search patterns bind s) := by
  induction patterns generalizing bind s with
  | nil => exact absurd h (by simp [answers])
  | cons t patterns ih =>
    have hown : s.iterators.head?.join = none := by
      cases hiterators : s.iterators with
      | nil => rfl
      | cons x its => simpa using hs.clear x (hiterators ▸ List.mem_cons_self)
    have htail : Idle ⟨[], s.iterators.tail, []⟩ := ⟨rfl, fun x hx => hs.clear x (List.mem_of_mem_tail hx), rfl⟩
    rw [answers] at h
    rw [nextMatch]
    simp only [hs.binds, hown, hs.result, ne_eq, not_true_eq_false, if_false]
    cases hsub : substitute bind 0 t.parts with
    | none => exact ⟨rfl, by simpa [Clear] using htail.clear, rfl⟩
    | some u =>
      obtain ⟨parts, vars⟩ := u
      have hfresh := substitute_fresh hsub
      simp only [hsub] at h ⊢
      split
      · rename_i hnone
        rw [if_pos hnone] at h
        have hcall := ih h htail
        rw [if_neg (not_not.2 hcall.result)]
        exact ⟨hcall.binds, by simpa [eachFact, Clear] using hcall.clear, hcall.result⟩
      · rename_i hsome
        rw [if_neg hsome, List.flatMap_eq_nil_iff] at h
        exact eachFact_idle (fun b s hb hs => ih hb hs) (search parts) h bind hfresh (fun _ => rfl) _ htail

/-! ## Call after call -/

theorem starts_answers_ne_nil {patterns : List TriplePattern} {bind : Result} (h : Starts patterns bind) :
    ∀ r ∈ answers search patterns bind, r ≠ [] := by
  cases patterns with
  | nil => exact answers_ne_nil (h.resolve_right (by simp))
  | cons t patterns =>
    rw [answers]
    cases hsub : substitute bind 0 t.parts with
    | none => simp
    | some u =>
      obtain ⟨parts, vars⟩ := u
      have hfresh := substitute_fresh hsub
      have hne := h.vars hsub
      simp only
      split
      · exact answers_ne_nil (fillHoles_ne_nil hfresh hne)
      · intro r hr
        obtain ⟨f, -, hr⟩ := List.mem_flatMap.1 hr
        exact answers_ne_nil (bindFact_ne_nil hfresh hne f) r hr

/-- The call behind a result delivers what is still to come. -/
theorem delivers_next {patterns : List TriplePattern} (hpatterns : patterns ≠ []) {r : Result} {rest : List Result}
    (hrest : ∀ u ∈ rest, u ≠ []) {s : Progress} (h : Delivers search patterns [] s (r :: rest)) :
    Delivers search patterns [] (eachOther search patterns s).2 rest := by
  obtain ⟨-, binds, hsuspended, hbinds⟩ := h
  rw [if_neg hpatterns, pushBind, if_pos rfl] at hbinds
  refine (nextMatch_delivers patterns).2 [] { s with result := [] } rest hpatterns hrest ?_ rfl
  rw [hbinds]
  exact hsuspended

theorem matches_of_delivers {patterns : List TriplePattern} (hpatterns : patterns ≠ []) {rest : List Result}
    (hrest : ∀ r ∈ rest, r ≠ []) {s : Progress}
    (h : Delivers search patterns [] (eachOther search patterns s).2 rest) :
    Matches (eachOther search patterns) s rest := by
  unfold Matches
  induction rest generalizing s with
  | nil =>
    obtain ⟨hresult, -, -⟩ := h
    refine .nil (t := (eachOther search patterns s).2) ?_
    rw [if_pos (show (eachOther search patterns s).1 = [] from hresult)]
  | cons r rest ih =>
    have hr : (eachOther search patterns s).1 = r := h.1
    have hrest' : ∀ u ∈ rest, u ≠ [] := fun u hu => hrest u (List.mem_cons_of_mem _ hu)
    refine .cons (t := (eachOther search patterns s).2) ?_ (ih hrest' (delivers_next hpatterns hrest' h))
    rw [if_neg (hr ▸ hrest r List.mem_cons_self), hr]

theorem Starts.patterns {patterns : List TriplePattern} (h : Starts patterns []) : patterns ≠ [] := by
  rintro rfl
  exact absurd h (by simp [Starts])

/-- The first call delivers the answers. -/
theorem delivers_start {patterns : List TriplePattern} (h : Starts patterns []) :
    Delivers search patterns [] (eachOther search patterns .start).2 (answers search patterns []) :=
  (nextMatch_delivers patterns).1 [] .start h rfl (by simp [Clear, Progress.start]) rfl

/-- **Call after call the search gives the answers**, in their order, and then none: the stack and the iterators
stay with their levels when the first triple pattern binds a variable. -/
theorem matches_answers {patterns : List TriplePattern} (h : Starts patterns []) :
    Matches (eachOther search patterns) .start (answers search patterns []) :=
  matches_of_delivers h.patterns (starts_answers_ne_nil h) (delivers_start h)

theorem matches_nil {patterns : List TriplePattern} (h : answers search patterns [] = []) :
    Matches (eachOther search patterns) .start [] := by
  have hidle : Idle (nextMatch search patterns [] { Progress.start with result := [] }) :=
    nextMatch_idle h ⟨rfl, by simp [Clear, Progress.start], rfl⟩
  refine .nil (t := (eachOther search patterns .start).2) ?_
  rw [if_pos (show (eachOther search patterns .start).1 = [] from hidle.result)]

end RdfStore.Query
