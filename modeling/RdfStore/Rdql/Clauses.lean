import RdfStore.Rdql.Compiled

/-!
# The constraints of a graph pattern (`GraphAndPattern` of `RDQL/Parser.pm`)

All `AND` clauses of a graph pattern push on one list, expression by expression.

    the list is what is pushed for its expressions, one behind the other    (graphAndPattern_eq)
    expressions that are written as a list are read as they are alone       (graphExpressions_text)
-/

namespace RdfStore.Rdql

open ByteMem Scan Tokens NTriples

/-! ## Clauses -/

section

variable {β : Type} (prefixes : Prefixes) (other : Bytes → Option (Bool × Bytes)) (clause : Bytes → Option (List β × Bytes))

/-- `VarOrURIOrQName`, which is an error when there is none. -/
def varOrURIOrQName (s : Bytes) : Option Bytes :=
  match scanVar s with
  | some t => some t.2
  | none => (scanURIOrQName prefixes s).bind fun t => t.map Prod.snd

/-- `PatternElement`: whether there is one, what it pushes, and what is left of the query.  `other` is
`TriplePattern` or `GroupGraphPattern`, which push nothing on the constraints around them, and `clause` what
is behind `AND`; there are fewer than `n` modifiers. -/
def patternElement : ℕ → Bytes → Option (Bool × List β × Bytes)
  | 0, _ => none
  | n + 1, s =>
    (other s).bind fun t =>
      if t.1 then some (true, [], t.2)
      else
        (matchAndEat (ascii "graph") t.2).bind fun u =>
          if u.1 then (varOrURIOrQName prefixes u.2).bind fun v => (patternElement n v).map fun w => (true, w.2)
          else
            (matchAndEat (ascii "optional") u.2).bind fun v =>
              if v.1 then (patternElement n v.2).map fun w => (true, w.2)
              else
                (matchAndEat (ascii "and") v.2).bind fun w =>
                  if w.1 then (clause w.2).map fun c => (true, c) else some (false, [], w.2)

/-- `while( PatternElement $class ) { MatchAndEat $class,','; }`, `n` times at most. -/
def patternElements : ℕ → List β → Bytes → Option (List β × Bytes)
  | 0, _, _ => none
  | n + 1, es, s =>
    (patternElement prefixes other clause (s.length + 1) s).bind fun t =>
      if t.1 then (matchAndEat (ascii ",") t.2.2).bind fun u => patternElements n (es ++ t.2.1) u.2
      else some (es ++ t.2.1, t.2.2)

end

section

variable (prefixes : Prefixes) (other : Bytes → Option (Bool × Bytes))

/-- `GraphAndPattern`: what is pushed on `constraints`. -/
def graphAndPattern (s : Bytes) : Outcome := patternElements prefixes other (constraint prefixes) (s.length + 1) [] s

/-! ## Expressions -/

/-- The loop of `Constraint`, with what each expression pushes. -/
def expressionsLoop : ℕ → List (List Bytes) → Bytes → Option (List (List Bytes) × Bytes)
  | 0, ps, s => some (ps, s)
  | n + 1, ps, s =>
    (matchAndEat (ascii ",") s).bind fun t =>
      (if t.1 then some t else matchAndEat (ascii "and") t.2).bind fun u =>
        if u.1 then (expression prefixes u.2).bind fun v => expressionsLoop n (ps ++ [v.1]) v.2 else some (ps, u.2)

/-- What `Constraint` pushes, expression by expression. -/
def constraintExpressions (s : Bytes) : Option (List (List Bytes) × Bytes) :=
  (expression prefixes s).bind fun t => expressionsLoop prefixes (t.2.length + 1) [t.1] t.2

/-- What `GraphAndPattern` pushes, expression by expression. -/
def graphExpressions (s : Bytes) : Option (List (List Bytes) × Bytes) :=
  patternElements prefixes other (constraintExpressions prefixes) (s.length + 1) [] s

end

/-! ## One list -/

section

variable {prefixes : Prefixes} {other : Bytes → Option (Bool × Bytes)}

theorem constraintLoop_eq (n : ℕ) (ps : List (List Bytes)) (s : Bytes) :
    constraintLoop prefixes n ps.flatten s = (expressionsLoop prefixes n ps s).map fun t => (t.1.flatten, t.2) := by
  induction n generalizing ps s with
  | zero => rfl
  | succ n ih =>
    rw [constraintLoop, expressionsLoop, Option.map_bind]
    refine Option.bind_congr fun t _ => ?_
    rw [Function.comp_apply, Option.map_bind]
    refine Option.bind_congr fun u _ => ?_
    rw [Function.comp_apply]
    split
    · rw [Option.map_bind]
      refine Option.bind_congr fun v _ => ?_
      rw [Function.comp_apply, ← ih, List.flatten_append, List.flatten_singleton]
    · rfl

theorem constraint_eq (s : Bytes) :
    constraint prefixes s = (constraintExpressions prefixes s).map fun t => (t.1.flatten, t.2) := by
  unfold constraint constraintExpressions
  rw [Option.map_bind]
  refine Option.bind_congr fun t _ => ?_
  rw [Function.comp_apply, ← constraintLoop_eq, List.flatten_singleton]

theorem patternElement_flatten {β : Type} {clause : Bytes → Option (List (List β) × Bytes)}
    {clause' : Bytes → Option (List β × Bytes)} (h : ∀ s, clause' s = (clause s).map fun t => (t.1.flatten, t.2))
    (n : ℕ) (s : Bytes) : patternElement prefixes other clause' n s =
      (patternElement prefixes other clause n s).map fun t => (t.1, t.2.1.flatten, t.2.2) := by
  induction n generalizing s with
  | zero => rfl
  | succ n ih =>
    rw [patternElement, patternElement, Option.map_bind]
    refine Option.bind_congr fun t _ => ?_
    rw [Function.comp_apply]
    split
    · rfl
    · rw [Option.map_bind]
      refine Option.bind_congr fun u _ => ?_
      rw [Function.comp_apply]
      split
      · rw [Option.map_bind]
        refine Option.bind_congr fun v _ => ?_
        rw [Function.comp_apply, ih, Option.map_map, Option.map_map]
        rfl
      · rw [Option.map_bind]
        refine Option.bind_congr fun v _ => ?_
        rw [Function.comp_apply]
        split
        · rw [ih, Option.map_map, Option.map_map]
          rfl
        · rw [Option.map_bind]
          refine Option.bind_congr fun w _ => ?_
          rw [Function.comp_apply]
          split
          · rw [h, Option.map_map, Option.map_map]
            rfl
          · rfl

theorem patternElements_flatten {β : Type} {clause : Bytes → Option (List (List β) × Bytes)}
    {clause' : Bytes → Option (List β × Bytes)} (h : ∀ s, clause' s = (clause s).map fun t => (t.1.flatten, t.2))
    (n : ℕ) (ps : List (List β)) (s : Bytes) : patternElements prefixes other clause' n ps.flatten s =
      (patternElements prefixes other clause n ps s).map fun t => (t.1.flatten, t.2) := by
  induction n generalizing ps s with
  | zero => rfl
  | succ n ih =>
    rw [patternElements, patternElements, patternElement_flatten h, Option.map_bind, Option.bind_map]
    refine Option.bind_congr fun t _ => ?_
    rw [Function.comp_apply, Function.comp_apply]
    split
    · rw [Option.map_bind]
      refine Option.bind_congr fun u _ => ?_
      rw [Function.comp_apply, ← ih, List.flatten_append]
    · rw [Option.map_some, List.flatten_append]

/-- **A graph pattern's constraints are one list**, in which no operator stands between the expressions. -/
theorem graphAndPattern_eq (s : Bytes) :
    graphAndPattern prefixes other s = (graphExpressions prefixes other s).map fun t => (t.1.flatten, t.2) :=
  patternElements_flatten constraint_eq (s.length + 1) [] s

end

/-! ## Written lists -/

def Separator.text : Separator → Bytes
  | .comma => ascii ", "
  | .and => ascii " AND "

/-- What is behind the first expression, on one line. -/
def moreText : List (Separator × Expr) → Bytes
  | [] => []
  | (sep, e) :: es => sep.text ++ (e.text ++ moreText es)

/-- Each expression is compiled where it stands; a slash may be in one of those behind it. -/
def ListCompiles (prefixes : Prefixes) (e : Expr) : List (Separator × Expr) → Prop
  | [] => e.Compiles prefixes False
  | (sep, e') :: es => e.Compiles prefixes (0x2f ∈ moreText ((sep, e') :: es)) ∧ ListCompiles prefixes e' es

/-- In front of no triple pattern and no group. -/
def noOther (s : Bytes) : Option (Bool × Bytes) := some (false, s)

section

variable {prefixes : Prefixes}

theorem moreText_oneLine {es : List (Separator × Expr)} (h : ∀ x ∈ es, x.2.WellFormed prefixes) : 0x0a ∉ moreText es := by
  induction es with
  | nil => exact List.not_mem_nil
  | cons x es ih =>
    unfold moreText
    rw [List.mem_append, not_or, List.mem_append, not_or]
    exact ⟨by cases x.1 <;> decide, Expr.oneLine (h x List.mem_cons_self), ih fun y hy => h y (List.mem_cons_of_mem _ hy)⟩

theorem skipWhite_separator (sep : Separator) (t : Bytes) : skipWhite (sep.text ++ t) = sep.sign ++ 0x20 :: t := by
  cases sep <;> rfl

theorem follows_moreText {es : List (Separator × Expr)} (h : ∀ x ∈ es, x.2.WellFormed prefixes) :
    Follows 0 (moreText es) := by
  cases es with
  | nil => exact follows_nil 0
  | cons x es =>
    refine ⟨?_, moreText_oneLine h, ?_⟩
    · intro a ha
      unfold moreText at ha
      cases hsep : x.1 with
      | comma =>
        rw [hsep] at ha
        exact Or.inr (Or.inr (Option.some.inj ha).symm)
      | and =>
        rw [hsep] at ha
        exact Or.inl (Option.some.inj ha).symm
    · rw [moreText, skipWhite_separator]
      exact .separator x.1 _

theorem listCompiles_head {e : Expr} {es : List (Separator × Expr)} (h : ListCompiles prefixes e es) :
    e.Compiles prefixes (0x2f ∈ moreText es) := by
  cases es with
  | nil => exact Expr.Compiles.mono (fun h' => absurd h' List.not_mem_nil) h
  | cons x es => exact h.1

/-- The sign between two constraints is taken. -/
theorem expressionsLoop_separator (sep : Separator) {n : ℕ} {ps : List (List Bytes)} {s t : Bytes}
    (hs : skipWhite s = sep.sign ++ 0x20 :: t) : expressionsLoop prefixes (n + 1) ps s =
      (expression prefixes (skipWhite t)).bind fun v => expressionsLoop prefixes n (ps ++ [v.1]) v.2 := by
  have hcomment := sep.noComment hs
  cases sep with
  | comma =>
    rw [expressionsLoop, matchAndEat_some hcomment (u := 0x20 :: t) (by rw [hs]; rfl)]
    rfl
  | and =>
    have hnone : matchAndEat (ascii ",") s = some (false, s) := matchAndEat_none hcomment (by rw [hs]; rfl)
    rw [expressionsLoop, hnone, Option.bind_some, if_neg Bool.false_ne_true,
      matchAndEat_some hcomment (u := 0x20 :: t) (by rw [hs]; rfl)]
    rfl

theorem expressionsLoop_ends {n : ℕ} {ps : List (List Bytes)} {s : Bytes} (hs : skipWhite s = []) :
    expressionsLoop prefixes n ps s = some (ps, s) := by
  have hcomment : NoComment s := Behind.noComment (k := 0) (hs ▸ .nil)
  cases n with
  | zero => rfl
  | succ n =>
    rw [expressionsLoop, matchAndEat_none hcomment (by rw [hs]; rfl), Option.bind_some, if_neg Bool.false_ne_true,
      matchAndEat_none hcomment (by rw [hs]; rfl)]
    rfl

/-- The loop reads one expression after the other. -/
theorem expressionsLoop_moreText {e : Expr} {es : List (Separator × Expr)} (h : ∀ x ∈ es, x.2.WellFormed prefixes)
    (hc : ListCompiles prefixes e es) {n : ℕ} {s : Bytes} (hn : s.length ≤ n) (hs : skipWhite s = skipWhite (moreText es))
    (ps : List (List Bytes)) : ∃ rest, skipWhite rest = [] ∧
      expressionsLoop prefixes n ps s = some (ps ++ es.map fun x => x.2.postOrder prefixes, rest) := by
  induction es generalizing e n s ps with
  | nil => exact ⟨s, hs, by rw [expressionsLoop_ends hs, List.map_nil, List.append_nil]⟩
  | cons x es ih =>
    obtain ⟨sep, e'⟩ := x
    have he' : e'.WellFormed prefixes := h _ List.mem_cons_self
    have hes : ∀ x ∈ es, x.2.WellFormed prefixes := fun x hx => h x (List.mem_cons_of_mem _ hx)
    rw [moreText, skipWhite_separator] at hs
    have hlen := length_skipWhite s
    rw [hs, List.length_append, List.length_cons, List.length_append] at hlen
    obtain ⟨n, rfl⟩ : ∃ n', n = n' + 1 := ⟨n - 1, by omega⟩
    have hfront : skipWhite (e'.text ++ moreText es) = e'.text ++ moreText es := by
      have hfront := (Expr.front he' 0 (moreText es)).1
      rwa [parens_of_le (Nat.zero_le _)] at hfront
    obtain ⟨z, hz, hskip, hle⟩ :=
      (expression_follows prefixes he' (follows_moreText hes)).right (listCompiles_head hc.2)
    obtain ⟨rest, hrest, hrun⟩ := ih hes hc.2 (n := n) (s := z) (by omega) hskip (ps ++ [e'.postOrder prefixes])
    refine ⟨rest, hrest, ?_⟩
    rw [expressionsLoop_separator sep hs, hfront, hz, Option.bind_some, hrun, List.map_cons, List.append_assoc]
    rfl

variable (prefixes)

/-- What is pushed for the expressions, each alone. -/
def postOrders (e : Expr) (es : List (Separator × Expr)) : List (List Bytes) :=
  e.postOrder prefixes :: es.map fun x => x.2.postOrder prefixes

variable {prefixes}

theorem constraintExpressions_text {e : Expr} {es : List (Separator × Expr)} (he : e.WellFormed prefixes)
    (hes : ∀ x ∈ es, x.2.WellFormed prefixes) (hc : ListCompiles prefixes e es) :
    ∃ rest, skipWhite rest = [] ∧
      constraintExpressions prefixes (e.text ++ moreText es) = some (postOrders prefixes e es, rest) := by
  obtain ⟨s, hs, hskip, -⟩ := (expression_follows prefixes he (follows_moreText hes)).right (listCompiles_head hc)
  obtain ⟨rest, hrest, hrun⟩ := expressionsLoop_moreText hes hc (Nat.le_succ s.length) hskip [e.postOrder prefixes]
  refine ⟨rest, hrest, ?_⟩
  unfold constraintExpressions
  rw [hs, Option.bind_some, hrun]
  rfl

/-- **A list of expressions is read one by one**, each as it is alone. -/
theorem graphExpressions_text {e : Expr} {es : List (Separator × Expr)} (he : e.WellFormed prefixes)
    (hes : ∀ x ∈ es, x.2.WellFormed prefixes) (hc : ListCompiles prefixes e es) :
    ∃ rest, graphExpressions prefixes noOther (ascii "AND " ++ (e.text ++ moreText es)) =
      some (postOrders prefixes e es, rest) := by
  obtain ⟨rest, hrest, hclause⟩ := constraintExpressions_text he hes hc
  have hfront : skipWhite (e.text ++ moreText es) = e.text ++ moreText es := by
    have hfront := (Expr.front he 0 (moreText es)).1
    rwa [parens_of_le (Nat.zero_le _)] at hfront
  -- the clause
  have hand : skipWhite (ascii "AND " ++ (e.text ++ moreText es)) = Separator.and.sign ++ 0x20 :: (e.text ++ moreText es) := rfl
  have hcomment := Separator.and.noComment hand
  have hfirst : ∀ n, patternElement prefixes noOther (constraintExpressions prefixes) (n + 1)
      (ascii "AND " ++ (e.text ++ moreText es)) = some (true, postOrders prefixes e es, rest) := by
    intro n
    rw [patternElement, noOther, Option.bind_some, if_neg Bool.false_ne_true,
      matchAndEat_none hcomment (by rw [hand]; rfl), Option.bind_some, if_neg Bool.false_ne_true,
      matchAndEat_none hcomment (by rw [hand]; rfl), Option.bind_some, if_neg Bool.false_ne_true,
      matchAndEat_some hcomment (u := 0x20 :: (e.text ++ moreText es)) (by rw [hand]; rfl), Option.bind_some, if_pos rfl,
      show skipWhite (0x20 :: (e.text ++ moreText es)) = e.text ++ moreText es from hfront, hclause]
    rfl
  -- nothing is behind it
  have hblank : NoComment rest := Behind.noComment (k := 0) (hrest ▸ .nil)
  have hnone : ∀ lit, lit ≠ [] → matchAndEat lit rest = some (false, rest) := by
    intro lit hlit
    obtain ⟨a, t, rfl⟩ := List.exists_cons_of_ne_nil hlit
    exact matchAndEat_none hblank (by rw [hrest]; rfl)
  have hsecond : ∀ n, patternElement prefixes noOther (constraintExpressions prefixes) (n + 1) rest =
      some (false, [], rest) := by
    intro n
    rw [patternElement, noOther, Option.bind_some, if_neg Bool.false_ne_true, hnone _ (by decide), Option.bind_some,
      if_neg Bool.false_ne_true, hnone _ (by decide), Option.bind_some, if_neg Bool.false_ne_true, hnone _ (by decide)]
    rfl
  refine ⟨rest, ?_⟩
  unfold graphExpressions
  rw [show (ascii "AND " ++ (e.text ++ moreText es)).length + 1 =
      (ascii "ND " ++ (e.text ++ moreText es)).length + 1 + 1 from rfl, patternElements, hfirst, Option.bind_some,
    if_pos rfl, hnone _ (by decide), Option.bind_some, patternElements, hsecond]
  simp

end

end RdfStore.Rdql
