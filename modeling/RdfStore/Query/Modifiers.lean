import RdfStore.Query.Rows
import RdfStore.Query.Evaluation
import RdfStore.Concrete

/-!
# DISTINCT, LIMIT, OFFSET and ORDER BY

What is fetched is compared with what the modifiers ask for.

    the slice of the ordered results            (fetches_slice_iff)
    each different row once                     (fetches_distinct_iff)
-/

namespace RdfStore.Query

open ByteMem Streams

variable {σ : Type} {next : σ → Result × σ}

theorem Fetches.unique {P : Perl} {digest : Node → Digest} {q : Select} {s : Handle σ} {rows rows' : List Row}
    (h : Fetches P digest next q s rows) (h' : Fetches P digest next q s rows') : rows = rows' := by
  obtain ⟨n, hn⟩ := h
  obtain ⟨n', hn'⟩ := h'
  exact (hn (max n n') (Nat.le_max_left n n')).unique (hn' (max n n') (Nat.le_max_right n n'))

theorem fetches_iff (P : Perl) (digest : Node → Digest) (q : Select) {source : σ} {results : List Result}
    (h : Matches next source results) (rows : List Row) :
    Fetches P digest next q (execute q source) rows ↔
      upTo (quota q) (kept digest q [] (candidates P q results)) = rows := by
  constructor
  · exact (fetches_rows P digest q h).unique
  · rintro rfl
    exact fetches_rows P digest q h

/-! ## The order -/

/-- A variable of the query. -/
structure Variable where
  name : Bytes
  nonempty : name ≠ []
  chars : ∀ a ∈ name, Rdql.isVarChar a = true

def Variable.text (v : Variable) : Bytes := 0x3f :: v.name

/-- `ORDER BY ?v`, and whether it is `DESC`. -/
abbrev Order := Option (Variable × Bool)

def Order.clause : Order → List Bytes
  | none => []
  | some (v, descending) => [v.text, if descending then ascii "DESC" else ascii "ASC"]

/-- The string content of a variable: empty when it is not bound, and 0, for the error, when it is not there. -/
def content (P : Perl) (v : Variable) (r : Result) : Bytes :=
  match r.lookup v.text with
  | some n => (n.map Node.toString).getD []
  | none => P.text (P.ofNat 0)

/-- Sorted by the string content of the variable, equal ones in their order, and then turned round. -/
def Order.sorted (P : Perl) (order : Order) (results : List Result) : List Result :=
  match order with
  | none => results
  | some (v, descending) =>
    let sorted := results.mergeSort fun a b => decide (content P v a ≤ content P v b)
    if descending then sorted.reverse else sorted

/-- What is evaluated to sort by a variable. -/
theorem orderKey_variable (P : Perl) (v : Variable) (r : Result) : orderKey P [v.text] r = content P v r := by
  have hamp : v.text ≠ ascii "&" := fun heq => absurd (List.cons.inj heq).1 (by decide)
  have hread := readText_name (P := P) r.binding v.nonempty v.chars
  have hbound : r.binding (P := P) (0x3f :: v.name) = (r.lookup v.text).map fun n => n.elim .undef .node := rfl
  have hnext := nextItem_text (P := P) r.binding hamp []
  rw [Variable.text, hread, hbound] at hnext
  have heval : evalEnded (P := P) r.binding [v.text] = evalLoop r.binding 4 [.text (0x3f :: v.name)] [] := rfl
  rw [orderKey, eval, heval, content]
  cases hlookup : r.lookup v.text with
  | none =>
    rw [hlookup, Option.map_none] at hnext
    rw [evalLoop, hnext]
    rfl
  | some n =>
    rw [hlookup, Option.map_some] at hnext
    rw [evalLoop_push _ hnext]
    cases n with
    | none => rfl
    | some n => rfl

theorem ordered_eq {P : Perl} {q : Select} {order : Order} (h : q.orderBy = order.clause) (results : List Result) :
    ordered P q results = order.sorted P results := by
  unfold ordered Order.sorted
  rw [h]
  cases order with
  | none => rfl
  | some o =>
    obtain ⟨v, descending⟩ := o
    simp only [Order.clause, reduceCtorEq, if_false, sortResults, List.dropLast_cons_cons, List.dropLast_singleton,
      orderKey_variable]
    have hasc : ascii "ASC" ≠ ascii "DESC" := by decide
    cases descending
    · simp [hasc]
    · simp

/-! ## LIMIT and OFFSET -/

/-- What is asked for. -/
def slice {α : Type} (q : Select) (l : List α) : List α := upTo q.limit (l.drop (q.offset.getD 0))

theorem upTo_map {α β : Type} (f : α → β) (k : Option ℕ) (l : List α) : (upTo k l).map f = upTo k (l.map f) := by
  cases k with
  | none => rfl
  | some n => exact List.map_take

theorem upTo_prefix {α : Type} (k : Option ℕ) (l : List α) : upTo k l <+: l := by
  cases k with
  | none => exact List.prefix_refl l
  | some n => exact List.take_prefix n l

/-- What is returned is what is asked for unless a row is passed over that counts for the limit. -/
theorem upTo_quota_eq_iff {α : Type} (q : Select) (l : List α) :
    upTo (quota q) (l.drop (q.offset.getD 0)) = slice q l ↔
      ∀ n ∈ q.limit, n ≤ 1 ∨ q.offset.getD 0 = 0 ∨ l.length ≤ max n (q.offset.getD 0 + 1) := by
  unfold slice quota
  cases hlimit : q.limit with
  | none => simp [upTo]
  | some n =>
    simp only [upTo, Option.map_some, Option.elim_some, List.take_eq_take_iff, List.length_drop, Option.mem_def,
      Option.some.injEq, forall_eq']
    split
    · omega
    · omega

theorem kept_nodup {digest : Node → Digest} {q : Select} {rows : List Row}
    (h : q.distinct = true → (rows.map (resultKey digest)).Nodup) : kept digest q [] rows = rows := by
  unfold kept
  split
  · rename_i hdistinct
    exact firsts_eq_self (h hdistinct) (by simp)
  · rfl

/-- **LIMIT, OFFSET and ORDER BY cut the right slice** exactly when the limit is 0 or 1, there is no offset, or
nothing is left behind what is returned: the rows that are passed over count for the limit.  With `DISTINCT`, when
there is nothing to be left out. -/
theorem fetches_slice_iff (P : Perl) (digest : Node → Digest) (q : Select) (order : Order)
    (horder : q.orderBy = order.clause) {source : σ} {results : List Result} (h : Matches next source results)
    (hdistinct : q.distinct = true → (results.map fun r => resultKey digest (r.row q.columns)).Nodup) :
    Fetches P digest next q (execute q source) ((slice q (order.sorted P results)).map (Result.row q.columns)) ↔
      ∀ n ∈ q.limit, n ≤ 1 ∨ q.offset.getD 0 = 0 ∨ results.length ≤ max n (q.offset.getD 0 + 1) := by
  have hperm := ordered_perm (P := P) (q := q) results
  rw [fetches_iff P digest q h]
  have hkept : kept digest q [] (candidates P q results) = candidates P q results := by
    refine kept_nodup fun hd => ?_
    rw [candidates, List.map_map]
    have hall : ((ordered P q results).map (resultKey digest ∘ Result.row q.columns)).Nodup :=
      (hperm.map _).nodup_iff.2 (hdistinct hd)
    exact hall.sublist ((List.drop_sublist _ _).map _)
  rw [hkept, ← hperm.length_eq, ← upTo_quota_eq_iff q (ordered P q results), ← ordered_eq horder results,
    candidates, slice, ← upTo_map]
  constructor
  · intro heq
    have hlength := congrArg List.length heq
    rw [List.length_map, List.length_map] at hlength
    exact (List.prefix_of_prefix_length_le ( upTo_prefix _ _) ( upTo_prefix _ _) hlength.le).eq_of_length hlength
  · intro heq
    rw [heq]

/-! ## DISTINCT -/

/-- The last value of a row that is bound. -/
def lastBound (row : Row) : Option Node := row.foldl (fun last n => n.or last) none

theorem digest_true (d : Digest) : isTrueText d.toList = true := by
  have hlength : d.toList.length = 20 := by simp
  have hne : d.toList ≠ [] ∧ d.toList ≠ ascii "0" := by
    constructor
    · intro heq
      simp [heq] at hlength
    · intro heq
      simp [heq, ascii] at hlength
  simp [isTrueText, hne]

/-- Each digest takes the place of the one before. -/
theorem resultDigest_eq (digest : Node → Digest) (row : Row) :
    resultDigest digest row = (lastBound row).map fun n => (digest n).toList := by
  have hfold : ∀ step : Option Bytes → Option Node → Option Bytes, (∀ d, step d none = d) →
      (∀ d n, step d (some n) =
        if isTrueText (d.getD []) then some (digest n).toList else some (d.getD [] ++ (digest n).toList)) →
      ∀ last : Option Node, row.foldl step (last.map fun n => (digest n).toList) =
        (row.foldl (fun last n => n.or last) last).map fun n => (digest n).toList := by
    intro step hnone hsome
    induction row with
    | nil => intro last; rfl
    | cons n row ih =>
      intro last
      rw [List.foldl_cons, List.foldl_cons]
      cases n with
      | none => rw [hnone, Option.none_or, ih last]
      | some n =>
        rw [Option.some_or, ← ih (some n), hsome]
        congr 1
        cases last with
        | none => rfl
        | some m => simp [digest_true]
  exact hfold _ (fun _ => rfl) (fun _ _ => rfl) none

theorem mem_of_lastBound {row : Row} {n : Node} (h : n ∈ lastBound row) : some n ∈ row := by
  have hfold : ∀ last : Option Node, n ∈ row.foldl (fun last n => n.or last) last → some n ∈ row ∨ n ∈ last := by
    clear h
    induction row with
    | nil => exact fun last h => Or.inr h
    | cons m row ih =>
      intro last h
      rcases ih _ h with h | h
      · exact Or.inl (List.mem_cons_of_mem _ h)
      · cases m with
        | none => exact Or.inr h
        | some m =>
          have hm : some m = some n := h
          exact Or.inl (hm ▸ List.mem_cons_self)
  exact (hfold none h).resolve_right (by simp)

/-- The key of a row is that of its last value. -/
theorem resultKey_eq_iff {digest : Node → Digest} {rows : List Row}
    (hdigest : Set.InjOn digest {n | ∃ row ∈ rows, some n ∈ row}) {a b : Row} (ha : a ∈ rows) (hb : b ∈ rows) :
    resultKey digest a = resultKey digest b ↔ lastBound a = lastBound b := by
  have hmem : ∀ row ∈ rows, ∀ n ∈ lastBound row, n ∈ {n | ∃ row ∈ rows, some n ∈ row} :=
    fun row hrow n hn => ⟨row, hrow, mem_of_lastBound hn⟩
  rw [resultKey, resultKey, resultDigest_eq, resultDigest_eq]
  constructor
  · intro heq
    cases hla : lastBound a with
    | none =>
      cases hlb : lastBound b with
      | none => rfl
      | some m =>
        rw [hla, hlb] at heq
        have := congrArg List.length heq
        simp at this
    | some n =>
      cases hlb : lastBound b with
      | none =>
        rw [hla, hlb] at heq
        have := congrArg List.length heq
        simp at this
      | some m =>
        rw [hla, hlb] at heq
        have hsame : digest n = digest m := Vector.toList_inj.1 heq
        rw [hdigest (hmem a ha n hla) (hmem b hb m hlb) hsame]
  · intro heq
    rw [heq]

/-- **DISTINCT returns each different row once** exactly when the last bound values tell the rows of the query
without DISTINCT apart, and either no two of these rows are the same, or a limit cut off none with another last
value: two rows with the same last bound value count as the same. -/
theorem fetches_distinct_iff (P : Perl) (digest : Node → Digest) (q : Select) (hq : q.distinct = true) {source : σ}
    {results : List Result} (h : Matches next source results)
    (hdigest : Set.InjOn digest {n | ∃ row ∈ candidates P q results, some n ∈ row}) {rows : List Row}
    (hplain : Fetches P digest next { q with distinct := false } (execute { q with distinct := false } source) rows) :
    Fetches P digest next q (execute q source) (firsts id [] rows) ↔
      (∀ a ∈ rows, ∀ b ∈ rows, lastBound a = lastBound b → a = b) ∧
        (rows.Nodup ∨ ∀ b ∈ candidates P q results, ∃ a ∈ rows, lastBound a = lastBound b) := by
  have hrows : upTo (quota q) (candidates P q results) = rows :=
    (fetches_iff P digest { q with distinct := false } h rows).1 hplain
  obtain ⟨k, hk⟩ : ∃ k, ∀ l : List Row, l.length ≤ (candidates P q results).length → upTo (quota q) l = l.take k := by
    cases hquota : quota q with
    | none => exact ⟨_, fun l hl => (List.take_of_length_le hl).symm⟩
    | some n => exact ⟨n, fun l _ => rfl⟩
  have htake : (candidates P q results).take k = rows := by rw [← hk _ (Nat.le_refl _), hrows]
  have hmem : ∀ a ∈ rows, a ∈ candidates P q results := fun a ha => List.mem_of_mem_take (htake ▸ ha)
  rw [fetches_iff P digest q h, kept, if_pos hq, hk _ (firsts_sublist _ _).length_le, ← htake,
    take_firsts_eq_iff k (candidates P q results), htake]
  refine and_congr ?_ (or_congr Iff.rfl ?_)
  · constructor
    · intro hinj a ha b hb heq
      exact hinj ha hb ((resultKey_eq_iff hdigest (hmem a ha) (hmem b hb)).2 heq)
    · intro hinj a ha b hb heq
      exact hinj a ha b hb ((resultKey_eq_iff hdigest (hmem a ha) (hmem b hb)).1 heq)
  · refine forall₂_congr fun b hb => exists_congr fun a => and_congr_right fun ha => ?_
    exact resultKey_eq_iff hdigest (hmem a ha) hb

/-! ## On a list of results -/

/-- The results of a list, one after the other. -/
def listSource : List Result → Result × List Result
  | [] => ([], [])
  | r :: results => (r, results)

theorem matches_list {results : List Result} (h : ∀ r ∈ results, r ≠ []) : Matches listSource results results := by
  unfold Matches
  induction results with
  | nil => exact .nil (t := []) rfl
  | cons r results ih =>
    refine .cons (t := results) ?_ (ih fun u hu => h u (List.mem_cons_of_mem _ hu))
    simp [listSource, h r List.mem_cons_self]

/-- The first character, twenty times. -/
def firstDigest (n : Node) : Digest := Vector.replicate 20 ((Node.toString n).headD 0)

/-- The values of `?x` and `?y`. -/
def pairResult (x y : UInt8) : Result :=
  [(ascii "?x", some (.resource (uri x))), (ascii "?y", some (.resource (uri y)))]

theorem firstDigest_uri (c : UInt8) : firstDigest (.resource (uri c)) = Vector.replicate 20 c := by
  have hlabel : (Node.toString (.resource (uri c))).headD 0 = c := by
    by_cases hc : c = 0
    · subst hc
      rfl
    · simp [Node.toString, Resource.bytes, uri, cstr, hc]
  rw [firstDigest, hlabel]

/-- One byte URIs are told apart. -/
theorem firstDigest_injOn {rows : List Row}
    (h : ∀ row ∈ rows, ∀ n ∈ row, ∃ c, n = some (.resource (uri c))) :
    Set.InjOn firstDigest {n | ∃ row ∈ rows, some n ∈ row} := by
  rintro a ⟨row, hrow, ha⟩ b ⟨row', hrow', hb⟩ heq
  obtain ⟨c, hc⟩ := h row hrow _ ha
  obtain ⟨d, hd⟩ := h row' hrow' _ hb
  cases hc
  cases hd
  rw [firstDigest_uri, firstDigest_uri] at heq
  have hbyte : (Vector.replicate 20 c)[0] = (Vector.replicate 20 d)[0] := by rw [heq]
  simp only [Vector.getElem_replicate] at hbyte
  rw [hbyte]

/-- `SELECT` of `?x` and `?y`. -/
def selectPair (distinct : Bool) (limit offset : Option ℕ) : Select :=
  ⟨distinct, limit, offset, [], [ascii "?x", ascii "?y"], by simp⟩

theorem pair_candidates (x y x' y' : UInt8) :
    ∀ row ∈ candidates wholePerl (selectPair true none none) [pairResult x y, pairResult x' y'],
      ∀ n ∈ row, ∃ c, n = some (.resource (uri c)) := by
  intro row hrow n hn
  have hrows : candidates wholePerl (selectPair true none none) [pairResult x y, pairResult x' y'] =
      [[some (.resource (uri x)), some (.resource (uri y))], [some (.resource (uri x')), some (.resource (uri y'))]] := rfl
  rw [hrows] at hrow
  simp only [List.mem_cons, List.not_mem_nil, or_false] at hrow
  rcases hrow with rfl | rfl
  · simp only [List.mem_cons, List.not_mem_nil, or_false] at hn
    exact hn.elim (fun h => ⟨x, h⟩) fun h => ⟨y, h⟩
  · simp only [List.mem_cons, List.not_mem_nil, or_false] at hn
    exact hn.elim (fun h => ⟨x', h⟩) fun h => ⟨y', h⟩

/-- `LIMIT 2 OFFSET 1` of two results returns the second one, which is all there is. -/
theorem fetches_slice_two :
    Fetches wholePerl firstDigest listSource (selectPair false (some 2) (some 1))
      (execute (selectPair false (some 2) (some 1)) [pairResult 0x61 0x63, pairResult 0x62 0x63])
      ((slice (selectPair false (some 2) (some 1)) (Order.sorted wholePerl none
        [pairResult 0x61 0x63, pairResult 0x62 0x63])).map (Result.row [ascii "?x", ascii "?y"])) :=
  (fetches_slice_iff wholePerl firstDigest (selectPair false (some 2) (some 1)) none rfl
    (matches_list (by simp [pairResult])) (fun h => by cases h)).2
    (fun n hn => by cases hn; exact Or.inr (Or.inr (by decide)))

/-- `LIMIT 2 OFFSET 1` of three results returns one row. -/
theorem fetches_slice_not :
    ¬ ∀ (q : Select) (order : Order) (source results : List Result), q.orderBy = order.clause → q.distinct = false →
      Matches listSource source results →
      Fetches wholePerl firstDigest listSource q (execute q source)
        ((slice q (order.sorted wholePerl results)).map (Result.row q.columns)) := by
  intro h
  have hfetch := h (selectPair false (some 2) (some 1)) none
    [pairResult 0x61 0x63, pairResult 0x62 0x63, pairResult 0x62 0x64] _ rfl rfl (matches_list (by simp [pairResult]))
  have heq := (fetches_iff _ _ _ (matches_list (by simp [pairResult])) _).1 hfetch
  exact absurd (congrArg List.length heq) (by decide)

/-- Two rows with different last values are both returned. -/
theorem fetches_distinct_two :
    Fetches wholePerl firstDigest listSource (selectPair true none none)
      (execute (selectPair true none none) [pairResult 0x61 0x62, pairResult 0x61 0x63])
      (firsts id [] ([pairResult 0x61 0x62, pairResult 0x61 0x63].map (Result.row [ascii "?x", ascii "?y"]))) := by
  have hinj : Set.InjOn firstDigest {n | ∃ row ∈ candidates wholePerl (selectPair true none none)
      [pairResult 0x61 0x62, pairResult 0x61 0x63], some n ∈ row} := firstDigest_injOn (pair_candidates _ _ _ _)
  have hplain := (fetches_iff wholePerl firstDigest (selectPair false none none)
    (@matches_list [pairResult 0x61 0x62, pairResult 0x61 0x63] (by simp [pairResult])) _).2 rfl
  exact (fetches_distinct_iff wholePerl firstDigest (selectPair true none none) rfl
    (matches_list (by simp [pairResult])) hinj hplain).2 ⟨by decide, Or.inl (by decide)⟩

/-- Of two rows that differ in the first column only, the second one is not returned. -/
theorem fetches_distinct_not :
    ¬ ∀ (q : Select) (source results : List Result) (rows : List Row), q.distinct = true →
      Matches listSource source results →
      Set.InjOn firstDigest {n | ∃ row ∈ candidates wholePerl q results, some n ∈ row} →
      Fetches wholePerl firstDigest listSource { q with distinct := false } (execute { q with distinct := false } source)
        rows →
      Fetches wholePerl firstDigest listSource q (execute q source) (firsts id [] rows) := by
  intro h
  have hmatch : Matches listSource [pairResult 0x61 0x63, pairResult 0x62 0x63] _ := matches_list (by simp [pairResult])
  have hplain := (fetches_iff wholePerl firstDigest (selectPair false none none) hmatch _).2 rfl
  have hfetch := h (selectPair true none none) _ _ _ rfl hmatch (firstDigest_injOn (pair_candidates _ _ _ _)) hplain
  have heq := (fetches_iff _ _ _ hmatch _).1 hfetch
  exact absurd (congrArg List.length heq) (by decide)

end RdfStore.Query
