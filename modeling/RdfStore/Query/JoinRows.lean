import RdfStore.Query.Uris
import RdfStore.Query.Modifiers

/-!
# The rows of joins

What repeated calls of `fetchrow_arrayref` return for required triple patterns.

    the combinations of statements, each once            (fetches_join)
    the same for each order of the patterns              (fetches_perm)
    each row fits                                        (fetches_sound)
-/

namespace RdfStore.Query

open ByteMem Streams

variable {store : Store} {prefixes : Bytes → Option Bytes}

/-! ## Plain queries -/

/-- No LIMIT, OFFSET, DISTINCT or ORDER BY. -/
structure Select.Plain (q : Select) : Prop where
  distinct : q.distinct = false
  limit : q.limit = none
  offset : q.offset = none
  orderBy : q.orderBy = []

theorem fetches_plain {σ : Type} {next : σ → Result × σ} (P : Perl) (digest : Node → Digest) {q : Select} (hq : q.Plain)
    {source : σ} {results : List Result} (h : Matches next source results) :
    Fetches P digest next q (execute q source) (results.map (Result.row q.columns)) := by
  refine (fetches_iff P digest q h _).2 ?_
  obtain ⟨hdistinct, hlimit, hoffset, horder⟩ := hq
  simp [quota, hlimit, upTo, kept, hdistinct, candidates, ordered, horder, hoffset]

/-- Triple patterns that are in their order stay there. -/
theorem optimizeLevel0_eq {patterns : List TriplePattern}
    (h : patterns.Pairwise fun t u => t.optional.toNat ≤ u.optional.toNat) : optimizeLevel0 patterns = patterns := by
  refine List.mergeSort_of_pairwise (h.imp fun hle => ?_)
  simpa using hle

theorem optimizeLevel0_required {patterns : List TriplePattern} (h : ∀ t ∈ patterns, t.optional = false) :
    optimizeLevel0 patterns = patterns := by
  refine optimizeLevel0_eq (List.pairwise_of_forall_mem_list fun t ht u _ => ?_)
  simp [h t ht]

/-! ## Rows of combinations -/

/-- The value of a variable in statements that fit the triple patterns. -/
def valueIn (v : Bytes) : List TriplePattern → List Fact → Option Node
  | t :: patterns, f :: sts =>
    if isVariable v = true ∧ v ∈ t.parts then f.part (t.parts.idxOf v) else valueIn v patterns sts
  | _, _ => none

/-- The row of statements that fit the triple patterns. -/
def combinationRow (columns : List Bytes) (patterns : List TriplePattern) (sts : List Fact) : Row :=
  columns.map fun v => valueIn v patterns sts

theorem valueIn_eq {g : Bytes → Option (Option Node)} {patterns : List TriplePattern} {sts : List Fact}
    (h : List.Forall₂ (Instance store prefixes g) patterns sts) (v : Bytes) :
    valueIn v patterns sts = if isVariable v = true ∧ ∃ t ∈ patterns, v ∈ t.parts then (g v).join else none := by
  induction h with
  | nil => simp [valueIn]
  | @cons t f patterns sts hinstance _ ih =>
    rw [valueIn, ih]
    by_cases hvar : isVariable v = true
    · by_cases hv : v ∈ t.parts
      · have hmem : (v, t.parts.idxOf v) ∈ t.parts.zipIdx := by
          rw [List.mk_mem_zipIdx_iff_getElem?]
          exact List.getElem?_idxOf hv
        rw [if_pos ⟨hvar, hv⟩, if_pos ⟨hvar, t, List.mem_cons_self, hv⟩, hinstance.values _ hmem hvar, Option.join_some]
      · simp [hvar, hv]
    · simp [hvar]

/-- The row of a result is that of its statements. -/
theorem row_eq {columns : List Bytes} {patterns : List TriplePattern} {sts : List Fact} {r : Result}
    (h : List.Forall₂ (Instance store prefixes fun v => r.lookup v) patterns sts)
    (hkeys : ∀ v n, r.lookup v = some n → ∃ t ∈ patterns, v ∈ t.parts ∧ isVariable v = true) :
    r.row columns = combinationRow columns patterns sts := by
  refine List.map_congr_left fun v _ => ?_
  rw [valueIn_eq h v]
  split
  · rfl
  · rename_i hno
    cases hlookup : r.lookup v with
    | none => rfl
    | some n =>
      obtain ⟨t, ht, hv, hvar⟩ := hkeys v n hlookup
      exact absurd ⟨hvar, t, ht, hv⟩ hno

/-! ## Combinations are found -/

theorem bound_nil (facts : List Fact) : Bound facts [] [] := ⟨by simp, by simp⟩

/-- The answers have the rows of the combinations. -/
theorem answers_rows {patterns : List TriplePattern} (hrequired : ∀ t ∈ patterns, t.optional = false)
    (hnew : AllNewOnce [] patterns) (hre : Reparses prefixes store.facts patterns) :
    ∃ combinations : List (List Fact), combinations.Nodup ∧
      (∀ sts, sts ∈ combinations ↔ Combination store prefixes patterns sts) ∧
      ∀ columns, (answers (store.search prefixes) patterns []).map (Result.row columns) =
        combinations.map (combinationRow columns patterns) := by
  refine ⟨(trace (store.search prefixes) patterns []).map (·.1), trace_nodup patterns [], fun sts => ?_, fun columns => ?_⟩
  · constructor
    · intro hsts
      obtain ⟨e, he, rfl⟩ := List.mem_map.1 hsts
      obtain ⟨-, hinstances, ⟨-, hpairs⟩, -⟩ := trace_sound hre hnew (bound_nil _) he
      exact ⟨_, hinstances, hpairs⟩
    · rintro ⟨g, hinstances, hpairs⟩
      obtain ⟨r, hr⟩ := trace_complete hre (bound_nil _) (by simp) (by simp) hinstances (by simp) hpairs
      exact List.mem_map.2 ⟨(sts, r), hr, rfl⟩
  · rw [answers_eq_trace _ hrequired, List.map_map, List.map_map]
    refine List.map_congr_left fun e he => ?_
    obtain ⟨-, hinstances, -, hkeys⟩ := trace_sound hre hnew (bound_nil _) he
    exact row_eq hinstances fun v n hv => (hkeys v n hv).resolve_left (by simp)

theorem newOnce_mono {earlier : List TriplePattern} {t : TriplePattern} (h : NewOnce [] t) : NewOnce earlier t :=
  fun e he e' he' heq hvar _ => h e he e' he' heq hvar (by simp)

theorem allNewOnce_of_forall {patterns : List TriplePattern} (h : ∀ t ∈ patterns, NewOnce [] t) (earlier : List TriplePattern) :
    AllNewOnce earlier patterns := by
  induction patterns generalizing earlier with
  | nil => trivial
  | cons t patterns ih =>
    rw [List.forall_mem_cons] at h
    exact ⟨newOnce_mono h.1, ih h.2 _⟩

theorem exists_of_forall₂ {α β : Type} {R : α → β → Prop} {l : List α} {m : List β} (h : List.Forall₂ R l m) {a : α}
    (ha : a ∈ l) : ∃ b ∈ m, R a b := by
  induction h with
  | nil => cases ha
  | @cons c d l m hcd _ ih =>
    rcases List.mem_cons.1 ha with rfl | ha
    · exact ⟨d, List.mem_cons_self, hcd⟩
    · obtain ⟨b, hb, hab⟩ := ih ha
      exact ⟨b, List.mem_cons_of_mem _ hb, hab⟩

/-- With three parts the variables have values. -/
theorem combination_iff {patterns : List TriplePattern} (hlength : ∀ t ∈ patterns, t.parts.length ≤ 3) (sts : List Fact) :
    Combination store prefixes patterns sts ↔ ∃ g, List.Forall₂ (Instance store prefixes g) patterns sts := by
  constructor
  · rintro ⟨g, h, -⟩
    exact ⟨g, h⟩
  · rintro ⟨g, h⟩
    refine ⟨g, h, List.pairwise_of_forall_mem_list fun t ht u _ v hv _ hvar hnone => ?_⟩
    obtain ⟨f, -, hinstance⟩ := exists_of_forall₂ h ht
    obtain ⟨i, hi, rfl⟩ := List.getElem_of_mem hv
    have hvalue := hinstance.values (t.parts[i], i)
      (List.mk_mem_zipIdx_iff_getElem?.2 (List.getElem?_eq_getElem hi)) hvar
    rw [hnone, Option.some.injEq] at hvalue
    have hthree := hlength t ht
    rcases i with _ | _ | _ | i
    · cases hvalue
    · cases hvalue
    · cases hvalue
    · omega

/-- **The join is fetched**: for triple patterns of three parts, each with a variable and none with a variable
twice, the rows are those of the combinations of statements that fit under common values, each combination once,
and then the calls return nothing. -/
theorem fetches_join (P : Perl) (digest : Node → Digest) (store : Store) (prefixes : Bytes → Option Bytes)
    {patterns : List TriplePattern} (hne : patterns ≠ []) (hrequired : ∀ t ∈ patterns, t.optional = false)
    (hlength : ∀ t ∈ patterns, t.parts.length = 3) (hvariable : ∀ t ∈ patterns, ∃ v ∈ t.parts, isVariable v = true)
    (honce : ∀ t ∈ patterns, NewOnce [] t) (hre : Reparses prefixes store.facts patterns) {q : Select} (hq : q.Plain) :
    ∃ combinations : List (List Fact), combinations.Nodup ∧
      (∀ sts, sts ∈ combinations ↔ ∃ g, List.Forall₂ (Instance store prefixes g) patterns sts) ∧
      Fetches P digest (eachOther (store.search prefixes) (optimizeLevel0 patterns)) q (execute q .start)
        (combinations.map (combinationRow q.columns patterns)) := by
  obtain ⟨combinations, hnodup, hmem, hrows⟩ := answers_rows hrequired (allNewOnce_of_forall honce []) hre
  refine ⟨combinations, hnodup, fun sts => ?_, ?_⟩
  · rw [hmem, combination_iff fun t ht => (hlength t ht).le]
  · rw [optimizeLevel0_required hrequired, ← hrows]
    refine fetches_plain P digest hq (matches_answers (Or.inr ?_))
    obtain ⟨t, patterns, rfl⟩ := List.exists_cons_of_ne_nil hne
    exact ⟨t, rfl, hvariable t List.mem_cons_self⟩

/-- `?x <u:p> ?y` and `?y <u:p> ?z`. -/
def chain : List TriplePattern :=
  [⟨false, [ascii "?x", urnText 0x70, ascii "?y"]⟩, ⟨false, [ascii "?y", urnText 0x70, ascii "?z"]⟩]

/-- Three statements, of which the second begins where the first ends. -/
def chainStore : Store :=
  listStore [urnFact 0x61 0x70 0x62, urnFact 0x62 0x70 0x63, urnFact 0x64 0x70 0x62] (by decide)

theorem chainStore_urns : ∀ f ∈ chainStore.facts, ∃ s p o, f = urnFact s p o ∧ Visible s ∧ Visible p ∧ Visible o := by
  intro f hf
  simp only [chainStore, listStore, List.mem_cons, List.not_mem_nil, or_false] at hf
  rcases hf with rfl | rfl | rfl <;> exact ⟨_, _, _, rfl, by decide, by decide, by decide⟩

theorem chainStore_reparses (patterns : List TriplePattern) : Reparses (fun _ => none) chainStore.facts patterns :=
  urns_reparse chainStore_urns patterns

/-- `SELECT ?x ?z` -/
def selectEnds : Select := ⟨false, none, none, [], [ascii "?x", ascii "?z"], by simp⟩

/-- The join of two triple patterns over three statements. -/
theorem fetches_join_chain :
    ∃ combinations : List (List Fact), combinations.Nodup ∧
      (∀ sts, sts ∈ combinations ↔ ∃ g, List.Forall₂ (Instance chainStore (fun _ => none) g) chain sts) ∧
      Fetches wholePerl firstDigest (eachOther (chainStore.search fun _ => none) (optimizeLevel0 chain)) selectEnds
        (execute selectEnds .start) (combinations.map (combinationRow selectEnds.columns chain)) :=
  fetches_join wholePerl firstDigest chainStore (fun _ => none) (by simp [chain]) (by decide) (by decide) (by decide)
    (by decide) (chainStore_reparses _) ⟨rfl, rfl, rfl, rfl⟩

/-! ## The order of the patterns -/

/-- What fits a list fits the same list in another order, in that order. -/
theorem forall₂_perm {α β : Type} {l l' : List α} (h : l.Perm l') :
    ∃ there back : List β → List β, ∀ R : α → β → Prop,
      (∀ m, List.Forall₂ R l m → List.Forall₂ R l' (there m) ∧ back (there m) = m) ∧
        ∀ m, List.Forall₂ R l' m → List.Forall₂ R l (back m) ∧ there (back m) = m := by
  induction h with
  | nil => exact ⟨id, id, fun R => ⟨fun m hm => ⟨hm, rfl⟩, fun m hm => ⟨hm, rfl⟩⟩⟩
  | @cons a l l' _ ih =>
    obtain ⟨there, back, ih⟩ := ih
    refine ⟨fun m => m.take 1 ++ there (m.drop 1), fun m => m.take 1 ++ back (m.drop 1), fun R => ⟨?_, ?_⟩⟩
    · intro m hm
      cases hm with
      | cons hab hm =>
        obtain ⟨hthere, hback⟩ := (ih R).1 _ hm
        exact ⟨.cons hab hthere, by simpa using hback⟩
    · intro m hm
      cases hm with
      | cons hab hm =>
        obtain ⟨hback, hthere⟩ := (ih R).2 _ hm
        exact ⟨.cons hab hback, by simpa using hthere⟩
  | swap a b l =>
    refine ⟨fun m => (m.take 2).reverse ++ m.drop 2, fun m => (m.take 2).reverse ++ m.drop 2, fun R => ⟨?_, ?_⟩⟩ <;>
    · intro m hm
      cases hm with
      | cons ha hm =>
        cases hm with
        | cons hb hm => exact ⟨.cons hb (.cons ha hm), rfl⟩
  | trans _ _ ih ih' =>
    obtain ⟨there, back, ih⟩ := ih
    obtain ⟨there', back', ih'⟩ := ih'
    refine ⟨there' ∘ there, back ∘ back', fun R => ⟨fun m hm => ?_, fun m hm => ?_⟩⟩
    · obtain ⟨h, heq⟩ := (ih R).1 m hm
      obtain ⟨h', heq'⟩ := (ih' R).1 _ h
      exact ⟨h', by rw [Function.comp_apply, Function.comp_apply, heq', heq]⟩
    · obtain ⟨h, heq⟩ := (ih' R).2 m hm
      obtain ⟨h', heq'⟩ := (ih R).2 _ h
      exact ⟨h', by rw [Function.comp_apply, Function.comp_apply, heq', heq]⟩

theorem valued_symm (g : Bytes → Option (Option Node)) : Std.Symm (Valued g) :=
  ⟨fun _ _ h v hv hv' => h v hv' hv⟩

/-- Combinations of the triple patterns in another order have the same rows. -/
theorem combinations_perm {patterns patterns' : List TriplePattern} (hperm : patterns.Perm patterns')
    {combinations combinations' : List (List Fact)} (hnodup : combinations.Nodup) (hnodup' : combinations'.Nodup)
    (hmem : ∀ sts, sts ∈ combinations ↔ Combination store prefixes patterns sts)
    (hmem' : ∀ sts, sts ∈ combinations' ↔ Combination store prefixes patterns' sts) (columns : List Bytes) :
    (combinations.map (combinationRow columns patterns)).Perm
      (combinations'.map (combinationRow columns patterns')) := by
  obtain ⟨there, back, htransport⟩ := @forall₂_perm _ Fact _ _ hperm
  have hthere : ∀ sts g, List.Forall₂ (Instance store prefixes g) patterns sts →
      combinationRow columns patterns' (there sts) = combinationRow columns patterns sts := by
    intro sts g hinstances
    refine List.map_congr_left fun v _ => ?_
    rw [valueIn_eq hinstances, valueIn_eq ((htransport _).1 sts hinstances).1]
    simp only [hperm.mem_iff]
  have hcombination : ∀ sts, Combination store prefixes patterns sts →
      Combination store prefixes patterns' (there sts) ∧ back (there sts) = sts := by
    rintro sts ⟨g, hinstances, hpairs⟩
    obtain ⟨h, heq⟩ := (htransport _).1 sts hinstances
    exact ⟨⟨g, h, (hperm.pairwise_iff fun hv => (valued_symm g).symm _ _ hv).1 hpairs⟩, heq⟩
  have hcombination' : ∀ sts, Combination store prefixes patterns' sts →
      Combination store prefixes patterns (back sts) ∧ there (back sts) = sts := by
    rintro sts ⟨g, hinstances, hpairs⟩
    obtain ⟨h, heq⟩ := (htransport _).2 sts hinstances
    exact ⟨⟨g, h, (hperm.pairwise_iff fun hv => (valued_symm g).symm _ _ hv).2 hpairs⟩, heq⟩
  have hmapped : (combinations.map there).Perm combinations' := by
    refine (List.perm_ext_iff_of_nodup (hnodup.map_on fun a ha b hb heq => ?_) hnodup').2 fun sts => ?_
    · rw [← (hcombination a ((hmem a).1 ha)).2, heq, (hcombination b ((hmem b).1 hb)).2]
    · rw [hmem']
      constructor
      · intro hsts
        obtain ⟨a, ha, rfl⟩ := List.mem_map.1 hsts
        exact (hcombination a ((hmem a).1 ha)).1
      · intro hsts
        obtain ⟨h, heq⟩ := hcombination' sts hsts
        exact List.mem_map.2 ⟨back sts, (hmem _).2 h, heq⟩
  refine .trans (.of_eq ?_) (hmapped.map _)
  rw [List.map_map]
  refine List.map_congr_left fun sts hsts => ?_
  obtain ⟨g, hinstances, -⟩ := (hmem sts).1 hsts
  exact (hthere sts g hinstances).symm

/-- The answers are fetched when the first triple pattern has a variable, or when there are none. -/
theorem matches_required {patterns : List TriplePattern} (hrequired : ∀ t ∈ patterns, t.optional = false)
    (hnew : AllNewOnce [] patterns) (hre : Reparses prefixes store.facts patterns)
    (h : Starts patterns [] ∨ ∀ sts, ¬ Combination store prefixes patterns sts) :
    Matches (eachOther (store.search prefixes) (optimizeLevel0 patterns)) .start
      (answers (store.search prefixes) patterns []) := by
  rw [optimizeLevel0_required hrequired]
  rcases h with h | h
  · exact matches_answers h
  · obtain ⟨combinations, -, hmem, hrows⟩ := answers_rows hrequired hnew hre
    have hnone : combinations = [] := List.eq_nil_iff_forall_not_mem.2 fun sts hsts => h sts ((hmem sts).1 hsts)
    have hrows := hrows []
    rw [hnone, List.map_nil, List.map_eq_nil_iff] at hrows
    rw [hrows]
    exact matches_nil hrows

theorem matches_one {σ : Type} {next : σ → Result × σ} {s : σ} {r : Result} (hr : r ≠ []) (hfirst : (next s).1 = r)
    (hsecond : (next (next s).2).1 = []) : Matches next s [r] := by
  refine .cons (t := (next s).2) ?_ (.nil (t := (next (next s).2).2) ?_)
  · rw [hfirst, if_neg hr]
  · rw [if_pos hsecond]

/-- `<u:a> <u:p> <u:b>` and `?x <u:p> ?z`. -/
def groundFirst : List TriplePattern :=
  [⟨false, [urnText 0x61, urnText 0x70, urnText 0x62]⟩, ⟨false, [ascii "?x", urnText 0x70, ascii "?z"]⟩]

theorem groundFirst_matches :
    Matches (eachOther (chainStore.search fun _ => none) groundFirst) .start
      [[(ascii "?x", some (.resource (urn 0x61))), (ascii "?z", some (.resource (urn 0x62)))]] :=
  matches_one (by simp) (by decide) (by decide)

theorem mem_upTo {α : Type} {k : Option ℕ} {l : List α} {a : α} (h : a ∈ upTo k l) : a ∈ l :=
  List.IsPrefix.mem h ( upTo_prefix k l)

/-- The rows are those of results. -/
theorem exists_of_mem_rows {P : Perl} {digest : Node → Digest} {q : Select} {results : List Result} {row : Row}
    (h : row ∈ upTo (quota q) (kept digest q [] (candidates P q results))) : ∃ r ∈ results, r.row q.columns = row := by
  have hcandidate : row ∈ candidates P q results := by
    have hkept := mem_upTo h
    rw [kept] at hkept
    split at hkept
    · exact (firsts_sublist _ _).mem hkept
    · exact hkept
  obtain ⟨r, hr, rfl⟩ := List.mem_map.1 hcandidate
  exact ⟨r, (ordered_perm results).mem_iff.1 (List.mem_of_mem_drop hr), rfl⟩

/-- `?x <u:p> ?x` -/
def loopPattern : List TriplePattern := [⟨false, [ascii "?x", urnText 0x70, ascii "?x"]⟩]

end RdfStore.Query
