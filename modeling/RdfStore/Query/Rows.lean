import RdfStore.Query.Fetch

/-!
# What is fetched

The rows of successive calls for every query and every machine that answers
finitely many results.

    with DISTINCT, LIMIT, OFFSET and ORDER BY          (fetches_rows)
-/

namespace RdfStore.Query

open ByteMem Streams

variable {σ : Type} {P : Perl} {digest : Node → Digest} {next : σ → Result × σ} {q : Select}

/-! ## What the code returns -/

/-- The results in the order in which they are returned. -/
def ordered (P : Perl) (q : Select) (results : List Result) : List Result :=
  if q.orderBy = [] then results else sortResults P q.orderBy.dropLast q.orderBy.getLast? results

/-- The rows of the results behind the offset. -/
def candidates (P : Perl) (q : Select) (results : List Result) : List Row :=
  ((ordered P q results).drop (q.offset.getD 0)).map (Result.row q.columns)

/-- With `DISTINCT`, the rows whose keys were not there before. -/
def kept (digest : Node → Digest) (q : Select) (seen : List Bytes) (rows : List Row) : List Row :=
  if q.distinct then firsts (resultKey digest) seen rows else rows

/-- How many rows are returned: the rows that are passed over count for the limit, the first one that is
returned is returned whatever the limit. -/
def quota (q : Select) : Option ℕ :=
  q.limit.map fun n => if n = 0 then 0 else max n (q.offset.getD 0 + 1) - q.offset.getD 0

/-- All, or so many. -/
def upTo {α : Type} (k : Option ℕ) (l : List α) : List α := k.elim l l.take

/-! ## One step -/

/-- What is still to come: in the cache, or from the machine. -/
def Pending (next : σ → Result × σ) (s : Handle σ) (results : List Result) : Prop :=
  (s.cache = [] ∧ Matches next s.source results) ∨
    (s.cache = results.map some ++ [none] ∧ ∀ r ∈ results, r ≠ [])

/-- Nothing is to be sorted, or all is. -/
def Settled (s : Handle σ) : Prop := s.orderBy = [] ∨ s.cache ≠ []

/-- What a step that gives a result leaves as it is. -/
structure Kept (s t : Handle σ) : Prop where
  total : t.total = s.total
  previous : t.previous = s.previous
  orderBy : t.orderBy = s.orderBy
  settled : Settled s → Settled t

theorem Kept.trans {s t u : Handle σ} (h : Kept s t) (h' : Kept t u) : Kept s u :=
  ⟨h'.total.trans h.total, h'.previous.trans h.previous, h'.orderBy.trans h.orderBy, fun hs => h'.settled (h.settled hs)⟩

theorem each_nil {s : Handle σ} (h : Pending next s []) :
    (each next s).1 = [] ∧ (each next s).2.previous = s.previous ∧ (each next s).2.total = s.total ∧
      (each next s).2.orderBy = s.orderBy := by
  rcases h with ⟨hcache, hsource⟩ | ⟨hcache, -⟩
  · cases hsource with
    | nil h =>
      simp only [Option.some.injEq, Prod.mk.injEq, ite_eq_left_iff, reduceCtorEq, imp_false, Decidable.not_not] at h
      rw [each, hcache]
      exact ⟨h.1, rfl, rfl, rfl⟩
  · rw [each, hcache]
    exact ⟨rfl, rfl, rfl, rfl⟩

theorem each_cons {s : Handle σ} {r : Result} {results : List Result} (h : Pending next s (r :: results)) :
    (each next s).1 = r ∧ r ≠ [] ∧ Pending next (each next s).2 results ∧ Kept s (each next s).2 := by
  rcases h with ⟨hcache, hsource⟩ | ⟨hcache, hne⟩
  · cases hsource with
    | @cons _ _ _ _ h hrest =>
      simp only [Option.some.injEq, Prod.mk.injEq] at h
      obtain ⟨hr, rfl⟩ := h
      rw [ite_eq_iff] at hr
      obtain ⟨-, hr⟩ | ⟨hne, hr⟩ := hr
      · cases hr
      · cases hr
        rw [each, hcache]
        exact ⟨rfl, hne, Or.inl ⟨rfl, hrest⟩, rfl, rfl, rfl, fun hs => hs.imp id fun hnot => absurd hcache hnot⟩
  · rw [each, hcache]
    exact ⟨rfl, hne r List.mem_cons_self, Or.inr ⟨rfl, fun u hu => hne u (List.mem_cons_of_mem _ hu)⟩,
      rfl, rfl, rfl, fun _ => Or.inr (by simp)⟩

/-- What is passed over before the next result. -/
def skipSeen (digest : Node → Digest) (q : Select) (seen : List Bytes) (results : List Result) : List Result :=
  if q.distinct = true ∧ seen ≠ [] then
    results.dropWhile fun r => decide (resultKey digest (r.row q.columns) ∈ seen)
  else results

/-- What is answered when these results are to come: none, or the first of them. -/
def Answers (next : σ → Result × σ) (s : Handle σ) (t : Result × Handle σ) : List Result → Prop
  | [] => t.1 = [] ∧ t.2.previous = s.previous ∧ t.2.total = s.total ∧ t.2.orderBy = s.orderBy
  | r :: rest => t.1 = r ∧ r ≠ [] ∧ Pending next t.2 rest ∧ Kept s t.2

theorem answers_each {s : Handle σ} {results : List Result} (h : Pending next s results) :
    Answers next s (each next s) results := by
  cases results with
  | nil => exact each_nil h
  | cons r results => exact each_cons h

theorem Answers.of_kept {s s' : Handle σ} (hkept : Kept s s') {t : Result × Handle σ} {results : List Result}
    (h : Answers next s' t results) : Answers next s t results := by
  cases results with
  | nil =>
    obtain ⟨hnil, hprevious, htotal, horder⟩ := h
    exact ⟨hnil, hprevious.trans hkept.previous, htotal.trans hkept.total, horder.trans hkept.orderBy⟩
  | cons r rest =>
    obtain ⟨hr, hne, hpending, hkept'⟩ := h
    exact ⟨hr, hne, hpending, hkept.trans hkept'⟩

theorem purge_pending {s : Handle σ} {results : List Result} (h : Pending next s results) {n : ℕ}
    (hn : results.length ≤ n) :
    ∃ t, purge digest next q n (each next s).1 (each next s).2 = some t ∧
      Answers next s t (results.dropWhile fun r => decide (resultKey digest (r.row q.columns) ∈ s.previous)) := by
  induction results generalizing s n with
  | nil =>
    refine ⟨each next s, ?_, answers_each h⟩
    unfold purge
    rw [if_neg (by simp [each_nil h])]
  | cons r results ih =>
    obtain ⟨hr, hne, hrest, hkept⟩ := each_cons h
    by_cases hseen : resultKey digest (r.row q.columns) ∈ s.previous
    · cases n with
      | zero => simp at hn
      | succ n =>
        obtain ⟨t, ht, hcase⟩ := ih hrest (Nat.le_of_succ_le_succ hn)
        refine ⟨t, ?_, ?_⟩
        · unfold purge
          rw [if_pos ⟨hr ▸ hne, by rw [hr, hkept.previous]; exact hseen⟩]
          exact ht
        · rw [List.dropWhile_cons_of_pos (by simpa using hseen)]
          rw [hkept.previous] at hcase
          exact hcase.of_kept hkept
    · refine ⟨each next s, ?_, ?_⟩
      · unfold purge
        rw [if_neg (by rw [hr, hkept.previous]; exact fun hboth => hseen hboth.2)]
      · rw [List.dropWhile_cons_of_neg (by simpa using hseen)]
        exact ⟨hr, hne, hrest, hkept⟩

variable (digest) in
/-- The next result that is not passed over. -/
theorem eachDistinct_pending {s : Handle σ} {results : List Result} (h : Pending next s results) {fuel : ℕ}
    (hfuel : results.length ≤ fuel) :
    ∃ t, eachDistinct digest next q fuel s = some t ∧
      Answers next s t (skipSeen digest q s.previous results) := by
  unfold eachDistinct skipSeen
  split
  · exact purge_pending h hfuel
  · exact ⟨each next s, rfl, answers_each h⟩

/-! ## Sorting -/

variable (digest) in
/-- Nothing is passed over while nothing was returned. -/
theorem collect_pending {s : Handle σ} {results : List Result} (h : Pending next s results) (hseen : s.previous = [])
    {fuel n : ℕ} (hfuel : results.length ≤ fuel) (hn : results.length ≤ n) (all : List Result) :
    ∃ t, collect digest next q fuel n all s = some (all ++ results, t) ∧ t.previous = [] ∧ t.total = s.total ∧
      t.orderBy = s.orderBy := by
  induction results generalizing s n all with
  | nil =>
    obtain ⟨t, ht, hanswers⟩ := eachDistinct_pending digest (q := q) h hfuel
    have hskip : skipSeen digest q s.previous [] = [] := by simp [skipSeen]
    rw [hskip] at hanswers
    obtain ⟨hnil, hprevious, htotal, horder⟩ := hanswers
    refine ⟨t.2, ?_, hprevious.trans hseen, htotal, horder⟩
    unfold collect
    simp [ht, hnil]
  | cons r results ih =>
    obtain ⟨t, ht, hanswers⟩ := eachDistinct_pending digest (q := q) h hfuel
    have hskip : skipSeen digest q s.previous (r :: results) = r :: results := by simp [skipSeen, hseen]
    rw [hskip] at hanswers
    obtain ⟨hr, hne, hrest, hkept⟩ := hanswers
    cases n with
    | zero => simp at hn
    | succ n =>
      obtain ⟨u, hu, hprevious, htotal, horder⟩ := ih hrest (hkept.previous.trans hseen)
        (Nat.le_of_succ_le hfuel) (Nat.le_of_succ_le_succ hn) (all ++ [r])
      refine ⟨u, ?_, hprevious, htotal.trans hkept.total, horder.trans hkept.orderBy⟩
      unfold collect
      rw [ht, Option.bind_some, if_neg (hr ▸ hne), hr]
      simpa using hu

theorem prefetch_settled {s : Handle σ} (h : Settled s) (fuel : ℕ) : prefetch P digest next q fuel s = some s := by
  unfold prefetch
  rw [if_neg]
  rintro ⟨horder, hcache⟩
  exact h.elim horder (fun hne => hne hcache)

theorem sortResults_perm (orderBy : List Bytes) (direction : Option Bytes) (results : List Result) :
    (sortResults P orderBy direction results).Perm results := by
  unfold sortResults
  split
  · exact (List.reverse_perm _).trans (List.mergeSort_perm _ _)
  · exact List.mergeSort_perm _ _

theorem Matches.ne_nil {source : σ} {results : List Result} (h : Matches next source results) :
    ∀ r ∈ results, r ≠ [] := by
  unfold Matches at h
  induction h with
  | nil _ => simp
  | cons h _ ih =>
    intro u hu
    rcases List.mem_cons.1 hu with rfl | hu
    · simp only [Option.some.injEq, Prod.mk.injEq] at h
      rw [ite_eq_iff] at h
      obtain ⟨⟨-, hr⟩ | ⟨hne, hr⟩, -⟩ := h
      · cases hr
      · cases hr
        exact hne
    · exact ih u hu

theorem ordered_perm (results : List Result) : (ordered P q results).Perm results := by
  unfold ordered
  split
  · exact List.Perm.refl results
  · exact sortResults_perm _ _ _

variable (digest) in
/-- At the first call, the results are as they come, or in the cache in their order. -/
theorem prefetch_execute {source : σ} {results : List Result} (h : Matches next source results) {fuel : ℕ}
    (hfuel : results.length ≤ fuel) :
    ∃ s, prefetch P digest next q fuel (execute q source) = some s ∧ Pending next s (ordered P q results) ∧
      Settled s ∧ s.total = 0 ∧ s.previous = [] := by
  by_cases horder : q.orderBy = []
  · refine ⟨execute q source, prefetch_settled (Or.inl horder) fuel, ?_, Or.inl horder, rfl, rfl⟩
    rw [ordered, if_pos horder]
    exact Or.inl ⟨rfl, h⟩
  · obtain ⟨t, ht, hprevious, htotal, horderBy⟩ :=
      collect_pending digest (s := execute q source) (q := q) (Or.inl ⟨rfl, h⟩) rfl hfuel hfuel []
    have horderBy' : t.orderBy = q.orderBy := horderBy
    refine ⟨{ t with
      cache := (sortResults P t.orderBy.dropLast t.orderBy.getLast? results).map some ++ [none]
      orderBy := t.orderBy.dropLast }, ?_, Or.inr ⟨?_, ?_⟩, Or.inr (by simp), htotal, hprevious⟩
    · unfold prefetch
      rw [if_pos ⟨horder, rfl⟩, ht]
      rfl
    · rw [ordered, if_neg horder, horderBy']
    · intro r hr
      exact h.ne_nil r ((ordered_perm results).mem_iff.1 hr)

/-! ## The loop of `fetchrow_arrayref` -/

/-- The rows up to the offset are passed over, whatever they are. -/
theorem fetchLoop_skip {s : Handle σ} {results : List Result} (h : Pending next s results) (hs : Settled s)
    (hseen : s.previous = []) {fuel n : ℕ} (hfuel : results.length ≤ fuel) (hn : results.length ≤ n)
    (htotal : s.total ≤ q.offset.getD 0) :
    ∃ t, fetchLoop P digest next q fuel n s = some t ∧
      match results.drop (q.offset.getD 0 - s.total) with
      | [] => t.1 = []
      | r :: rest => t.1 = r ∧ r ≠ [] ∧ Pending next t.2 rest ∧ Settled t.2 ∧ t.2.total = q.offset.getD 0 + 1 ∧
        t.2.previous = [] := by
  induction results generalizing s n with
  | nil =>
    obtain ⟨t, ht, hanswers⟩ := eachDistinct_pending digest (q := q) h hfuel
    have hskip : skipSeen digest q s.previous [] = [] := by simp [skipSeen]
    rw [hskip] at hanswers
    refine ⟨t, ?_, ?_⟩
    · unfold fetchLoop
      rw [prefetch_settled hs, Option.bind_some, ht, Option.bind_some, if_pos hanswers.1]
    · rw [List.drop_nil]
      exact hanswers.1
  | cons r results ih =>
    obtain ⟨t, ht, hanswers⟩ := eachDistinct_pending digest (q := q) h hfuel
    have hskip : skipSeen digest q s.previous (r :: results) = r :: results := by simp [skipSeen, hseen]
    rw [hskip] at hanswers
    obtain ⟨hr, hne, hrest, hkept⟩ := hanswers
    cases n with
    | zero => simp at hn
    | succ n =>
      have hstep : fetchLoop P digest next q fuel (n + 1) s =
          if q.offset.getD 0 < s.total + 1 then some (r, { t.2 with total := s.total + 1 })
          else fetchLoop P digest next q fuel n { t.2 with total := s.total + 1 } := by
        conv_lhs => unfold fetchLoop
        rw [prefetch_settled hs, Option.bind_some, ht, Option.bind_some, if_neg (hr ▸ hne), hr, hkept.total]
      rw [hstep]
      split
      · rename_i hover
        have hzero : q.offset.getD 0 - s.total = 0 := by omega
        have hlast : s.total + 1 = q.offset.getD 0 + 1 := by omega
        refine ⟨_, rfl, ?_⟩
        rw [hzero, List.drop_zero]
        exact ⟨rfl, hne, hrest, hkept.settled hs, hlast, hkept.previous.trans hseen⟩
      · rename_i hunder
        have hless : q.offset.getD 0 - s.total = q.offset.getD 0 - (s.total + 1) + 1 := by omega
        rw [hless, List.drop_succ_cons]
        exact ih (s := { t.2 with total := s.total + 1 }) hrest (hkept.settled hs) (hkept.previous.trans hseen)
          (Nat.le_of_succ_le hfuel) (Nat.le_of_succ_le_succ hn) (show s.total + 1 ≤ _ by omega)

/-- Behind the offset each call takes the next row that is not passed over. -/
theorem fetchLoop_next {s : Handle σ} {results : List Result} (h : Pending next s results) (hs : Settled s)
    {fuel n : ℕ} (hfuel : results.length ≤ fuel) (htotal : q.offset.getD 0 < s.total) :
    ∃ t, fetchLoop P digest next q fuel n s = some t ∧
      match skipSeen digest q s.previous results with
      | [] => t.1 = []
      | r :: rest => t.1 = r ∧ r ≠ [] ∧ Pending next t.2 rest ∧ Settled t.2 ∧ t.2.total = s.total + 1 ∧
        t.2.previous = s.previous := by
  obtain ⟨t, ht, hanswers⟩ := eachDistinct_pending digest (q := q) h hfuel
  cases hskip : skipSeen digest q s.previous results with
  | nil =>
    rw [hskip] at hanswers
    refine ⟨t, ?_, hanswers.1⟩
    unfold fetchLoop
    rw [prefetch_settled hs, Option.bind_some, ht, Option.bind_some, if_pos hanswers.1]
  | cons r rest =>
    rw [hskip] at hanswers
    obtain ⟨hr, hne, hrest, hkept⟩ := hanswers
    have hover : q.offset.getD 0 < t.2.total + 1 := by
      rw [hkept.total]
      omega
    refine ⟨(t.1, { t.2 with total := t.2.total + 1 }), ?_, hr, hne, hrest, hkept.settled hs,
      by rw [← hkept.total], hkept.previous⟩
    unfold fetchLoop
    rw [prefetch_settled hs, Option.bind_some, ht, Option.bind_some, if_neg (hr ▸ hne)]
    simp only [if_pos hover]

/-! ## Successive calls -/

theorem upTo_zero {α : Type} (k : Option ℕ) (l : List α) (h : ∃ n ∈ k, n = 0) : upTo k l = [] := by
  obtain ⟨n, hn, rfl⟩ := h
  cases hn
  rfl

theorem upTo_cons {α : Type} {k : Option ℕ} (h : ¬ ∃ n ∈ k, n = 0) (a : α) (l : List α) :
    upTo k (a :: l) = a :: upTo (k.map (· - 1)) l := by
  cases k with
  | none => rfl
  | some n =>
    cases n with
    | zero => exact absurd ⟨0, rfl, rfl⟩ h
    | succ n => rfl

theorem upTo_nil {α : Type} (k : Option ℕ) : upTo k ([] : List α) = [] := by
  cases k <;> simp [upTo]

/-- What is passed over is none of what is kept. -/
theorem kept_skipSeen (digest : Node → Digest) (q : Select) (seen : List Bytes) (results : List Result) :
    kept digest q seen ((skipSeen digest q seen results).map (Result.row q.columns)) =
      kept digest q seen (results.map (Result.row q.columns)) := by
  unfold kept skipSeen
  by_cases hdistinct : q.distinct = true
  · by_cases hseen : seen = []
    · simp [hseen]
    · rw [if_pos hdistinct, if_pos hdistinct, if_pos ⟨hdistinct, hseen⟩, firsts_map, firsts_map,
        firsts_dropWhile seen results]
      refine congrArg (List.map _) (congrArg (firsts _ seen) (congrArg (List.dropWhile · results) ?_))
      funext r
      exact decide_eq_decide.2 Iff.rfl
  · rw [if_neg hdistinct, if_neg hdistinct, if_neg fun h => hdistinct h.1]

theorem kept_cons {seen : List Bytes} {row : Row} (h : q.distinct = true → resultKey digest row ∉ seen) (rows : List Row) :
    kept digest q seen (row :: rows) = row :: kept digest q (resultKey digest row :: seen) rows := by
  unfold kept
  split
  · rename_i hdistinct
    rw [firsts, if_neg (h hdistinct)]
  · rfl

theorem skipSeen_head {seen : List Bytes} {results rest : List Result} {r : Result}
    (h : skipSeen digest q seen results = r :: rest) :
    q.distinct = true → resultKey digest (r.row q.columns) ∉ seen := by
  intro hdistinct hmem
  have hne : seen ≠ [] := fun hnil => by simp [hnil] at hmem
  rw [skipSeen, if_pos ⟨hdistinct, hne⟩] at h
  have := List.head?_dropWhile_not (fun r => decide (resultKey digest (r.row q.columns) ∈ seen)) results
  rw [h] at this
  simp [hmem] at this

theorem skipSeen_length_le (digest : Node → Digest) (q : Select) (seen : List Bytes) (results : List Result) :
    (skipSeen digest q seen results).length ≤ results.length := by
  unfold skipSeen
  split
  · exact (List.dropWhile_sublist _).length_le
  · exact Nat.le_refl _

variable (digest) in
/-- The calls behind the first row. -/
theorem yields_next {s : Handle σ} {results : List Result} (h : Pending next s results) (hs : Settled s) {fuel : ℕ}
    (hfuel : results.length ≤ fuel) (htotal : q.offset.getD 0 < s.total) :
    Yields (fetchrow P digest next q fuel) s
      (upTo (q.limit.map (· - s.total)) (kept digest q s.previous (results.map (Result.row q.columns)))) := by
  induction hlength : results.length using Nat.strong_induction_on generalizing s results with
  | _ m ih =>
    by_cases hlimit : ∃ n ∈ q.limit, ¬s.total < n
    · rw [upTo_zero]
      · refine .nil (t := s) ?_
        rw [fetchrow, if_pos hlimit]
      · obtain ⟨n, hn, hle⟩ := hlimit
        exact ⟨n - s.total, by rw [Option.mem_def.1 hn]; rfl, by omega⟩
    · obtain ⟨t, ht, hcase⟩ := fetchLoop_next (P := P) (n := fuel) h hs hfuel htotal
      rw [← kept_skipSeen]
      cases hskip : skipSeen digest q s.previous results with
      | nil =>
        rw [hskip] at hcase
        have hempty : kept digest q s.previous ([] : List Row) = [] := by simp [kept, firsts]
        rw [List.map_nil, hempty, upTo_nil]
        refine .nil (t := t.2) ?_
        rw [fetchrow, if_neg hlimit, ht, Option.map_some, if_pos hcase]
      | cons r rest =>
        rw [hskip] at hcase
        obtain ⟨hr, hne, hrest, hsettled, htotal', hprevious⟩ := hcase
        have hshort := skipSeen_length_le digest q s.previous results
        rw [hskip, List.length_cons] at hshort
        have hpositive : ¬ ∃ n ∈ q.limit.map (· - s.total), n = 0 := by
          rintro ⟨k, hk, rfl⟩
          obtain ⟨n, hn, heq⟩ := Option.mem_map.1 hk
          exact hlimit ⟨n, hn, by omega⟩
        rw [List.map_cons, kept_cons (skipSeen_head hskip), upTo_cons hpositive]
        refine .cons (t := { t.2 with previous := resultKey digest (r.row q.columns) :: t.2.previous }) ?_ ?_
        · rw [fetchrow, if_neg hlimit, ht, Option.map_some, if_neg (hr ▸ hne), hr]
        · have hnext := ih rest.length (by omega)
            (s := { t.2 with previous := resultKey digest (r.row q.columns) :: t.2.previous })
            hrest hsettled (by omega) (show q.offset.getD 0 < t.2.total by omega) rfl
          simp only [hprevious, htotal'] at hnext
          rw [Option.map_map]
          have hcount : (fun n => n - s.total - 1 : ℕ → ℕ) = fun n => n - (s.total + 1) := by
            funext n
            omega
          simp only [Function.comp_def, hcount]
          rw [hprevious, htotal']
          exact hnext

theorem fetchLoop_prefetch {s t : Handle σ} {fuel n : ℕ} (h : prefetch P digest next q fuel s = some t) (ht : Settled t) :
    fetchLoop P digest next q fuel n s = fetchLoop P digest next q fuel n t := by
  conv_lhs => unfold fetchLoop
  conv_rhs => unfold fetchLoop
  rw [h, prefetch_settled ht]

/-- **The rows of successive calls**: in their order, from the offset on, with `DISTINCT` those whose keys were
not there before, and as many as the quota allows. -/
theorem fetches_rows (P : Perl) (digest : Node → Digest) (q : Select) {source : σ} {results : List Result}
    (h : Matches next source results) :
    Fetches P digest next q (execute q source)
      (upTo (quota q) (kept digest q [] (candidates P q results))) := by
  refine ⟨results.length, fun fuel hfuel => ?_⟩
  have hstart : (execute q source).total = 0 := rfl
  by_cases hlimit : ∃ n ∈ q.limit, ¬(execute q source).total < n
  · have hquota : ∃ n ∈ quota q, n = 0 := by
      obtain ⟨n, hn, hzero⟩ := hlimit
      exact ⟨0, by simp [quota, Option.mem_def.1 hn, show n = 0 by omega], rfl⟩
    rw [upTo_zero (quota q) _ hquota]
    refine .nil (t := execute q source) ?_
    rw [fetchrow, if_pos hlimit]
  · obtain ⟨s, hs, hpending, hsettled, htotal, hprevious⟩ := prefetch_execute digest (P := P) (q := q) h hfuel
    have hlength : (ordered P q results).length ≤ fuel := (ordered_perm results).length_eq ▸ hfuel
    obtain ⟨t, ht, hcase⟩ := fetchLoop_skip (P := P) (q := q) hpending hsettled hprevious hlength hlength
      (by rw [htotal]; exact Nat.zero_le _)
    rw [← fetchLoop_prefetch hs hsettled] at ht
    rw [htotal, Nat.sub_zero] at hcase
    unfold candidates
    cases hdrop : (ordered P q results).drop (q.offset.getD 0) with
    | nil =>
      rw [hdrop] at hcase
      have hempty : kept digest q [] ([] : List Row) = [] := by simp [kept, firsts]
      rw [List.map_nil, hempty, upTo_nil]
      refine .nil (t := t.2) ?_
      rw [fetchrow, if_neg hlimit, ht, Option.map_some, if_pos hcase]
    | cons r rest =>
      rw [hdrop] at hcase
      obtain ⟨hr, hne, hrest, hsettled', htotal', hprevious'⟩ := hcase
      have hshort : rest.length ≤ fuel := by
        have := List.length_drop (l := ordered P q results) (i := q.offset.getD 0)
        rw [hdrop, List.length_cons] at this
        omega
      have hpositive : ¬ ∃ n ∈ quota q, n = 0 := by
        rintro ⟨k, hk, rfl⟩
        obtain ⟨n, hn, heq⟩ := Option.mem_map.1 hk
        refine hlimit ⟨n, hn, ?_⟩
        split at heq
        · omega
        · omega
      have hquota : (quota q).map (· - 1) = q.limit.map (· - (q.offset.getD 0 + 1)) := by
        cases hlim : q.limit with
        | none => simp [quota, hlim]
        | some n =>
          have hn : n ≠ 0 := fun hzero => hlimit ⟨n, hlim, by omega⟩
          simp only [quota, hlim, Option.map_some, if_neg hn]
          congr 1
          omega
      rw [List.map_cons, kept_cons (by simp), upTo_cons hpositive, hquota]
      refine .cons (t := { t.2 with previous := resultKey digest (r.row q.columns) :: t.2.previous }) ?_ ?_
      · rw [fetchrow, if_neg hlimit, ht, Option.map_some, if_neg (hr ▸ hne), hr]
      · have hnext := yields_next digest (P := P)
          (s := { t.2 with previous := resultKey digest (r.row q.columns) :: t.2.previous })
          hrest hsettled' hshort (show q.offset.getD 0 < t.2.total by omega)
        simp only [hprevious', htotal'] at hnext ⊢
        exact hnext

end RdfStore.Query
