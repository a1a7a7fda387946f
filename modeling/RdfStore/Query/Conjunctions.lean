import RdfStore.Query.EvaluatedOnce
import RdfStore.Rdql.Clauses

/-!
# Lists of constraints (`Constraint` of `RDQL/Parser.pm`, and `eval`)

The expressions of a graph pattern are pushed one behind the other, and `eval`
is left with a value for each.

    constraints on one line are listed                             (lists_text)
    a list is the conjunction ↔ one expression, or one not met     (conjunction_iff)
-/

namespace RdfStore.Query

open ByteMem

variable {P : Perl}

/-! ## One expression behind another -/

section

theorem Operator.apply_append {o : Operator P} {vs : List (Value P)} (h : o.arity ≤ vs.length) (work : List (Value P)) :
    o.apply (work ++ vs) = (o.apply vs).map fun t => (t.1, work ++ t.2) := by
  have hlast : ∀ us : List (Value P), us ≠ [] →
      popped (work ++ us) = popped us ∧ (work ++ us).dropLast = work ++ us.dropLast := by
    intro us hus
    refine ⟨?_, List.dropLast_append_of_ne_nil hus⟩
    rw [popped, popped, List.getLast?_append_of_ne_nil _ hus]
  cases o with
  | unary run =>
    obtain ⟨hpopped, hdrop⟩ := hlast vs (List.length_pos_iff.1 h)
    rw [apply, apply, hpopped, hdrop, Option.map_map]
    rfl
  | binary run =>
    have htwo : 2 ≤ vs.length := h
    obtain ⟨hpopped, hdrop⟩ := hlast vs (List.length_pos_iff.1 (by omega))
    obtain ⟨hpopped', hdrop'⟩ := hlast vs.dropLast (List.length_pos_iff.1 (by rw [List.length_dropLast]; omega))
    rw [apply, apply, hpopped, hdrop, hpopped', hdrop', Option.map_map]
    rfl

/-- What is below the operands stays there. -/
theorem once_append_work {rs : List (Reading P)} (vs : List (Value P)) (h : HasOperands rs vs.length)
    (work : List (Value P)) : once rs (work ++ vs) = (once rs vs).map fun us => work ++ us := by
  induction rs generalizing vs with
  | nil => rfl
  | cons r rs ih =>
    cases r with
    | push v =>
      rw [once, once, List.append_assoc]
      exact ih _ (by rw [List.length_append]; exact h)
    | fail e => rfl
    | apply o =>
      rw [once, once, Operator.apply_append h.1, Option.bind_map, Option.map_bind]
      refine Option.bind_congr fun t ht => ?_
      rw [Function.comp_apply, Function.comp_apply, List.append_assoc]
      refine ih _ ?_
      rw [Operator.length_apply ht]
      exact h.2

theorem once_ne_nil {rs : List (Reading P)} (vs : List (Value P)) {us : List (Value P)} (h : HasOperands rs vs.length)
    (hus : once rs vs = some us) : us ≠ [] := by
  induction rs generalizing vs with
  | nil =>
    cases hus
    exact List.length_pos_iff.1 h
  | cons r rs ih =>
    cases r with
    | push v => exact ih _ (by rw [List.length_append]; exact h) hus
    | fail e => cases hus
    | apply o =>
      obtain ⟨t, ht, hus⟩ := Option.bind_eq_some_iff.1 hus
      refine ih _ ?_ hus
      rw [Operator.length_apply ht]
      exact h.2

theorem ReadAlike.of_append_work {rs : List (Reading P)} (vs work : List (Value P)) (h : HasOperands rs vs.length)
    (hread : ReadAlike rs (work ++ vs)) : ReadAlike rs vs := by
  induction rs generalizing vs with
  | nil => trivial
  | cons r rs ih =>
    cases r with
    | push v =>
      refine ih _ (by rw [List.length_append]; exact h) ?_
      rw [← List.append_assoc]
      exact hread
    | fail e => trivial
    | apply o =>
      intro t ht
      obtain ⟨hinert, hread⟩ := hread (t.1, work ++ t.2) (by rw [Operator.apply_append h.1, ht]; rfl)
      simp only [List.append_assoc] at hinert hread
      refine ⟨fun u hu => hinert u (List.mem_append_right _ hu), ih _ ?_ hread⟩
      rw [Operator.length_apply ht]
      exact h.2

theorem once_append (rs rs' : List (Reading P)) (work : List (Value P)) :
    once (rs ++ rs') work = (once rs work).bind (once rs') := by
  induction rs generalizing work with
  | nil => rfl
  | cons r rs ih =>
    cases r with
    | push v => exact ih _
    | fail e => rfl
    | apply o =>
      rw [List.cons_append, once, once, Option.bind_assoc]
      exact Option.bind_congr fun t _ => ih _

theorem ReadAlike.append {rs rs' : List (Reading P)} {work : List (Value P)} (h : ReadAlike (rs ++ rs') work) :
    ReadAlike rs work ∧ ∀ us ∈ once rs work, ReadAlike rs' us := by
  induction rs generalizing work with
  | nil => exact ⟨trivial, fun us hus => by cases hus; exact h⟩
  | cons r rs ih =>
    cases r with
    | push v => exact ih h
    | fail e => exact ⟨trivial, fun us hus => by cases hus⟩
    | apply o =>
      refine ⟨fun t ht => ⟨(h t ht).1, (ih (h t ht).2).1⟩, fun us hus => ?_⟩
      obtain ⟨t, ht, hus⟩ := Option.bind_eq_some_iff.1 hus
      exact (ih (h t ht).2).2 us hus

variable {binding : Binding P}

theorem readings_append {isFunction : Bool} {p : List Bytes} (h : Called isFunction p) (q : List Bytes) :
    readings binding isFunction (p ++ q) = readings binding isFunction p ++ readings binding false q := by
  induction p generalizing isFunction with
  | nil =>
    cases isFunction with
    | true => cases h
    | false => rfl
  | cons s p ih =>
    cases isFunction with
    | true => rw [List.cons_append, readings, readings, ih h.2, List.cons_append]
    | false =>
      rw [List.cons_append, readings, readings]
      by_cases hs : s = ascii "&"
      · rw [Called, decide_eq_true hs] at h
        rw [if_pos hs, if_pos hs, ih h]
      · rw [Called, decide_eq_false hs] at h
        rw [if_neg hs, if_neg hs, ih h, List.cons_append]

theorem Called.append {isFunction : Bool} {p q : List Bytes} (h : Called isFunction p) (hq : Called false q) :
    Called isFunction (p ++ q) := by
  induction p generalizing isFunction with
  | nil =>
    cases isFunction with
    | true => cases h
    | false => exact hq
  | cons s p ih =>
    cases isFunction with
    | true => exact ⟨h.1, ih h.2⟩
    | false => exact ih h

theorem Complete.ne_nil {p : List Bytes} (h : Complete binding p) : p ≠ [] := by
  rintro rfl
  exact Nat.lt_irrefl 0 h.operands

theorem called_flatten {ps : List (List Bytes)} (h : ∀ p ∈ ps, Complete binding p) : Called false ps.flatten := by
  induction ps with
  | nil => rfl
  | cons p ps ih =>
    rw [List.flatten_cons]
    exact (h p List.mem_cons_self).called.append (ih fun q hq => h q (List.mem_cons_of_mem _ hq))

/-- Every expression leaves a value. -/
theorem length_once_flatten {ps : List (List Bytes)} (h : ∀ p ∈ ps, Complete binding p) {work us : List (Value P)}
    (hus : once (readings binding false ps.flatten) work = some us) : work.length + ps.length ≤ us.length := by
  induction ps generalizing work with
  | nil =>
    cases hus
    exact le_rfl
  | cons p ps ih =>
    have hp := h p List.mem_cons_self
    have hwork := once_append_work [] hp.operands work
    rw [List.append_nil] at hwork
    rw [List.flatten_cons, readings_append hp.called, once_append, hwork, Option.bind_map] at hus
    obtain ⟨vs, hvs, hus⟩ := Option.bind_eq_some_iff.1 hus
    have hpos := List.length_pos_iff.2 (once_ne_nil [] hp.operands hvs)
    have hlen := ih (fun q hq => h q (List.mem_cons_of_mem _ hq)) hus
    rw [List.length_append] at hlen
    rw [List.length_cons]
    omega

/-- More than one expression is never met together. -/
theorem isMet_flatten {ps : List (List Bytes)} (h : ∀ p ∈ ps, Complete binding p) (hlen : 1 < ps.length) :
    isMet binding ps.flatten = false := by
  unfold isMet
  cases honce : once (readings binding false ps.flatten) [] with
  | none => rfl
  | some us =>
    have hus := length_once_flatten h honce
    rw [List.length_nil, Nat.zero_add] at hus
    match us with
    | [] => rfl
    | [v] => exact absurd (hlen.trans_le hus) (lt_irrefl 1)
    | u :: v :: us => rfl

/-- Each expression is read alone as in the list, or an expression in front is an error. -/
theorem readAlike_each {ps : List (List Bytes)} (h : ∀ p ∈ ps, Complete binding p) {work : List (Value P)}
    (hread : ReadAlike (readings binding false ps.flatten) work) :
    (∀ p ∈ ps, ReadAlike (readings binding false p) []) ∨
      ∃ p ∈ ps, ReadAlike (readings binding false p) [] ∧ isMet binding p = false := by
  induction ps generalizing work with
  | nil => exact Or.inl fun p hp => absurd hp List.not_mem_nil
  | cons p ps ih =>
    have hp := h p List.mem_cons_self
    rw [List.flatten_cons, readings_append hp.called] at hread
    obtain ⟨hhead, htail⟩ := hread.append
    have halone : ReadAlike (readings binding false p) [] := by
      refine ReadAlike.of_append_work [] work hp.operands ?_
      rw [List.append_nil]
      exact hhead
    cases honce : once (readings binding false p) [] with
    | none => exact Or.inr ⟨p, List.mem_cons_self, halone, by rw [isMet, honce]⟩
    | some us =>
      have hwork := once_append_work [] hp.operands work
      rw [List.append_nil, honce] at hwork
      rcases ih (fun q hq => h q (List.mem_cons_of_mem _ hq)) (htail _ hwork) with hall | ⟨q, hq, hfails⟩
      · refine Or.inl fun q hq => ?_
        rcases List.mem_cons.1 hq with rfl | hq
        · exact halone
        · exact hall q hq
      · exact Or.inr ⟨q, List.mem_cons_of_mem _ hq, hfails⟩

end

/-! ## Conjunctions -/

section

variable (prefixes : Rdql.Prefixes) (other : Bytes → Option (Bool × Bytes))

/-- The expressions that are written in a graph pattern: for each the parser pushes there what it pushes for it
alone. -/
structure Lists (s : Bytes) (cs : List Bytes) (ps : List (List Bytes)) : Prop where
  read : ∃ rest, Rdql.graphExpressions prefixes other s = some (ps, rest)
  alone : List.Forall₂ (fun c p => ∃ rest, Rdql.constraint prefixes c = some (p, rest)) cs ps

/-- Nothing was pushed, or `eval` answers a true value. -/
def Passes (binding : Binding P) (constraints : Rdql.Outcome) : Prop :=
  ∃ t ∈ constraints, t.1 = [] ∨ (eval binding t.1).isTrue = true

variable {prefixes other} {binding : Binding P}

theorem passes_some (p : List Bytes) (rest : Bytes) :
    Passes binding (some (p, rest)) ↔ p = [] ∨ (eval binding p).isTrue = true :=
  ⟨fun ⟨_, ht, h⟩ => by cases ht; exact h, fun h => ⟨_, rfl, h⟩⟩

/-- What the parser pushes for each of them alone is what is pushed in the graph pattern. -/
theorem Lists.passes_all {s : Bytes} {cs : List Bytes} {ps : List (List Bytes)} (h : Lists prefixes other s cs ps) :
    (∀ c ∈ cs, Passes binding (Rdql.constraint prefixes c)) ↔ ∀ p ∈ ps, p = [] ∨ (eval binding p).isTrue = true := by
  have halone := h.alone
  clear h
  induction halone with
  | nil => exact iff_of_true (fun c hc => absurd hc List.not_mem_nil) fun p hp => absurd hp List.not_mem_nil
  | cons hcp _ ih =>
    obtain ⟨rest, hcp⟩ := hcp
    rw [List.forall_mem_cons, List.forall_mem_cons, hcp, passes_some]
    exact and_congr_right fun _ => ih

theorem passes_iff_isMet (hzero : P.equal (P.ofNat 0) (P.ofNat 0) = true) {p : List Bytes} (hne : p ≠ [])
    (hcalled : Called false p) (hread : ReadAlike (readings binding false p) []) :
    (p = [] ∨ (eval binding p).isTrue = true) ↔ isMet binding p = true := by
  rw [or_iff_right hne, eval_isTrue hzero hcalled hread]

end

/-- Constraints on one line are listed if each is compiled where it stands. -/
theorem lists_text {prefixes : Rdql.Prefixes} {e : Rdql.Expr} {es : List (Rdql.Separator × Rdql.Expr)}
    (he : e.WellFormed prefixes) (hes : ∀ x ∈ es, x.2.WellFormed prefixes) (hc : Rdql.ListCompiles prefixes e es) :
    Lists prefixes Rdql.noOther (ascii "AND " ++ (e.text ++ Rdql.moreText es)) (e.text :: es.map fun x => x.2.text)
      (Rdql.postOrders prefixes e es) where
  read := Rdql.graphExpressions_text he hes hc
  alone := by
    have halone : ∀ {e' : Rdql.Expr} {slash : Prop}, e'.WellFormed prefixes → e'.Compiles prefixes slash →
        ∃ rest, Rdql.constraint prefixes e'.text = some (e'.postOrder prefixes, rest) := by
      intro e' slash he' hc'
      obtain ⟨rest, -, hrest⟩ := Rdql.constraint_of_compiles he' (hc'.mono False.elim)
      exact ⟨rest, hrest⟩
    refine .cons (halone he (Rdql.listCompiles_head hc)) ?_
    induction es generalizing e with
    | nil => exact .nil
    | cons x es ih =>
      have hhead := hes x List.mem_cons_self
      exact .cons (halone hhead (Rdql.listCompiles_head hc.2)) (ih hhead (fun y hy => hes y (List.mem_cons_of_mem _ hy)) hc.2)

theorem lists_two : Lists Rdql.Parsed.new.prefixes Rdql.noOther (ascii "AND 1 == 1, 1 == 2") [ascii "1 == 1", ascii "1 == 2"]
    [[ascii "1", ascii "1", ascii "=="], [ascii "1", ascii "2", ascii "=="]] where
  read := ⟨[], by decide +kernel⟩
  alone := .cons ⟨[], by decide +kernel⟩ (.cons ⟨[], by decide +kernel⟩ .nil)

theorem readings_equal (a b : Bytes) (ha : Inert a) (hb : Inert b) (binding : Binding P) :
    readings binding false [a, b, ascii "=="] =
      [.push (.text a), .push (.text b), .apply (comparison P.equal)] := by
  have hequal : readText binding false (ascii "==") = .apply (comparison P.equal) := rfl
  rw [readings, if_neg ha.1, readings, if_neg hb.1, readings, if_neg (by decide), readings, readText_inert binding ha,
    readText_inert binding hb, hequal]

theorem complete_equal {a b : Bytes} (ha : Inert a) (hb : Inert b) (binding : Binding P) :
    Complete binding [a, b, ascii "=="] where
  called := by
    rw [Called, decide_eq_false ha.1, Called, decide_eq_false hb.1]
    rfl
  operands := by
    rw [readings_equal a b ha hb]
    exact ⟨le_rfl, Nat.zero_lt_one⟩

end RdfStore.Query
