import RdfStore.Rdql.Leaves

/-!
# Operators are read (`MatchAndEat` and `PatternLiteral` of `RDQL/Parser.pm`)

An operator is found by the level it belongs to, and by no other: none of the
literals before it begins the same way.

    the operator in front is found                 (findInfix_operator, findInfix_match)
    an operator that is not as tight is not        (findInfix_behind)
    a pattern goes up to the last slash            (patternLiteral_of_noSlash, patternLiteral_of_slash)
-/

namespace RdfStore.Rdql

open ByteMem Scan Tokens NTriples

/-! ## A literal in front -/

/-- The two differ in a place that both have. -/
def differ : Bytes → Bytes → Bool
  | a :: lit, b :: s => toLower a ≠ toLower b || differ lit s
  | _, _ => false

theorem stripLiteral_of_differ {lit x : Bytes} (h : differ lit x = true) (t : Bytes) :
    stripLiteral lit (x ++ t) = none := by
  induction lit generalizing x with
  | nil => cases h
  | cons a lit ih =>
    cases x with
    | nil => cases h
    | cons b x =>
      rw [List.cons_append, stripLiteral]
      split
      · next hsame =>
        refine ih ?_
        rw [differ, Bool.or_eq_true, decide_eq_true_eq] at h
        exact h.resolve_left fun hne => hne hsame
      · rfl

theorem stripLiteral_self (lit t : Bytes) : stripLiteral lit (lit ++ t) = some t := by
  induction lit with
  | nil => rfl
  | cons a lit ih => rw [List.cons_append, stripLiteral, if_pos rfl, ih]

theorem skipWhite_skipWhite (s : Bytes) : skipWhite (skipWhite s) = skipWhite s := by
  refine skipWhite_of_head fun a ha => ?_
  have h := List.head?_dropWhile_not isWhite s
  unfold skipWhite at ha
  rw [Option.mem_def] at ha
  rw [ha] at h
  simpa using h

/-- No comment begins. -/
def NoComment (s : Bytes) : Prop := ∀ a t, skipWhite s = a :: t →
  a ≠ 0x23 ∧ ¬ (a = 0x2f ∧ (t.head? = some 0x2f ∨ t.head? = some 0x2a))

theorem eatComments_of_noComment {s : Bytes} (h : NoComment s) : eatComments s = some s := by
  have hline : eatLineComment s = none := by
    unfold eatLineComment
    cases hs : skipWhite s with
    | nil => rfl
    | cons a t =>
      obtain ⟨hsharp, hslash⟩ := h a t hs
      simp only
      rw [if_neg hsharp, if_neg fun h0 => hslash ⟨h0.1, Or.inl h0.2⟩]
  have hlines : ∀ n, eatLineComments n s = s := by
    intro n
    cases n with
    | zero => rfl
    | succ n => rw [eatLineComments, hline]
  unfold eatComments
  simp only [hlines]
  cases hs : skipWhite s with
  | nil => rfl
  | cons a t => exact if_neg fun h0 => (h a t hs).2 ⟨h0.1, Or.inr h0.2⟩

theorem matchAndEat_some {lit s u : Bytes} (hs : NoComment s) (h : stripLiteral lit (skipWhite s) = some u) :
    matchAndEat lit s = some (true, skipWhite u) := by
  unfold matchAndEat
  rw [eatComments_of_noComment hs, Option.map_some, h]

theorem matchAndEat_none {lit s : Bytes} (hs : NoComment s) (h : stripLiteral lit (skipWhite s) = none) :
    matchAndEat lit s = some (false, s) := by
  unfold matchAndEat
  rw [eatComments_of_noComment hs, Option.map_some, h]

theorem findInfix_none {os : List Infix} {s : Bytes} (hs : NoComment s)
    (h : ∀ o ∈ os, stripLiteral o.literal (skipWhite s) = none) : findInfix os s = some (none, s) := by
  induction os with
  | nil => rfl
  | cons o os ih =>
    rw [findInfix, matchAndEat_none hs (h o List.mem_cons_self)]
    exact ih fun o' ho' => h o' (List.mem_cons_of_mem o ho')

theorem findInfix_append {os os' : List Infix} {o : Infix} {s u : Bytes} (hs : NoComment s)
    (h : ∀ o ∈ os, stripLiteral o.literal (skipWhite s) = none) (ho : stripLiteral o.literal (skipWhite s) = some u) :
    findInfix (os ++ o :: os') s = some (some o, skipWhite u) := by
  induction os with
  | nil =>
    rw [List.nil_append, findInfix, matchAndEat_some hs ho]
    rfl
  | cons o' os ih =>
    rw [List.cons_append, findInfix, matchAndEat_none hs (h o' List.mem_cons_self)]
    exact ih fun o'' ho'' => h o'' (List.mem_cons_of_mem o' ho'')

/-! ## The levels -/

/-- The operators that are looked for at a level, in their order. -/
def literalsAt : ℕ → List Bytes
  | 0 => [ascii "||"]
  | 1 => [ascii "&&"]
  | 2 => [ascii "eq", ascii "ne", ascii "=~", ascii "LIKE", ascii "!~"]
  | 3 => [ascii "==", ascii "!="]
  | 4 => [ascii ">=", ascii ">=", ascii "<=", ascii "<=", ascii "<", ascii ">"]
  | 5 => [ascii "+", ascii "-"]
  | 6 => [ascii "*", ascii "/", ascii "%"]
  | _ => []

section

variable (prefixes : Prefixes) (m : ℕ)

/-- The function for a level, with fewer than `m` parentheses inside one another. -/
def levelParser : ℕ → Bytes → Outcome
  | 0 => conditionalOr prefixes (conditionalOrExpression prefixes m)
  | 1 => conditionalAndExpression prefixes (conditionalOrExpression prefixes m)
  | 2 => stringEqualityExpression prefixes (conditionalOrExpression prefixes m)
  | 3 => equalityExpression prefixes (conditionalOrExpression prefixes m)
  | 4 => relationalExpression prefixes (conditionalOrExpression prefixes m)
  | 5 => additiveExpression prefixes (conditionalOrExpression prefixes m)
  | 6 => multiplicativeExpression prefixes (conditionalOrExpression prefixes m)
  | 7 => unaryExpression prefixes (conditionalOrExpression prefixes m)
  | _ => primaryExpression prefixes (conditionalOrExpression prefixes m)

/-- What stands behind an operator, and what is pushed for it. -/
def infixAt (k : ℕ) (lit : Bytes) : Infix :=
  if lit = ascii "=~" ∨ lit = ascii "LIKE" then ⟨lit, patternLiteral, ascii "=~"⟩
  else if lit = ascii "!~" then ⟨lit, patternLiteral, ascii "!~"⟩
  else infixOf (levelParser prefixes m (k + 1)) lit

theorem literal_infixAt (k : ℕ) (lit : Bytes) : (infixAt prefixes m k lit).literal = lit := by
  unfold infixAt
  split_ifs <;> rfl

def infixesAt (k : ℕ) : List Infix := (literalsAt k).map (infixAt prefixes m k)

/-- A level with a loop. -/
def IsLoop (k : ℕ) : Prop := k < 7 ∧ k ≠ 4

theorem levelParser_loop {k : ℕ} (hk : IsLoop k) :
    levelParser prefixes m k = infixLevel (levelParser prefixes m (k + 1)) (infixesAt prefixes m k) := by
  obtain ⟨hlt, hne⟩ := hk
  have hcases : k = 0 ∨ k = 1 ∨ k = 2 ∨ k = 3 ∨ k = 5 ∨ k = 6 := by omega
  rcases hcases with rfl | rfl | rfl | rfl | rfl | rfl <;> rfl

theorem levelParser_relational (s : Bytes) :
    levelParser prefixes m 4 s = (levelParser prefixes m 5 s).bind fun t =>
      (findInfix (infixesAt prefixes m 4) t.2).bind fun u =>
        match u.1 with
        | none => some (t.1, u.2)
        | some o => (o.operand u.2).map fun v => (t.1 ++ (v.1 ++ [o.pushed]), v.2) := rfl

end

theorem differ_operator (op : Operator) :
    ∀ j < 7, op.level ≠ j → ∀ lit ∈ literalsAt j, differ lit (op.text ++ [0x20]) = true := by
  cases op <;> decide

theorem differ_match (negated : Bool) :
    ∀ j < 7, j ≠ 2 → ∀ lit ∈ literalsAt j, differ lit (matchText negated ++ [0x20]) = true := by
  cases negated <;> decide

theorem differ_closing : ∀ j < 7, ∀ lit ∈ literalsAt j, lit ≠ [] ∧ differ lit [0x29] = true := by
  decide

/-- What stands between two constraints. -/
inductive Separator
  | comma
  | and

def Separator.sign : Separator → Bytes
  | .comma => ascii ","
  | .and => ascii "AND"

theorem differ_separator (sep : Separator) :
    ∀ j < 7, ∀ lit ∈ literalsAt j, differ lit (sep.sign ++ [0x20]) = true := by
  cases sep <;> decide

/-- The literals before that of the operator are none that it begins with. -/
theorem literalsAt_operator (op : Operator) : ∃ lits lits', literalsAt op.level = lits ++ op.text :: lits' ∧
    (∀ lit ∈ lits, differ lit (op.text ++ [0x20]) = true) := by
  cases op with
  | or => exact ⟨[], [], by decide, by decide⟩
  | and => exact ⟨[], [], by decide, by decide⟩
  | eq => exact ⟨[], [ascii "ne", ascii "=~", ascii "LIKE", ascii "!~"], by decide, by decide⟩
  | ne => exact ⟨[ascii "eq"], [ascii "=~", ascii "LIKE", ascii "!~"], by decide, by decide⟩
  | equal => exact ⟨[], [ascii "!="], by decide, by decide⟩
  | notEqual => exact ⟨[ascii "=="], [], by decide, by decide⟩
  | less => exact ⟨[ascii ">=", ascii ">=", ascii "<=", ascii "<="], [ascii ">"], by decide, by decide⟩
  | greater => exact ⟨[ascii ">=", ascii ">=", ascii "<=", ascii "<=", ascii "<"], [], by decide, by decide⟩
  | lessEqual => exact ⟨[ascii ">=", ascii ">="], [ascii "<=", ascii "<", ascii ">"], by decide, by decide⟩
  | greaterEqual => exact ⟨[], [ascii ">=", ascii "<=", ascii "<=", ascii "<", ascii ">"], by decide, by decide⟩
  | plus => exact ⟨[], [ascii "-"], by decide, by decide⟩
  | minus => exact ⟨[ascii "+"], [], by decide, by decide⟩
  | times => exact ⟨[], [ascii "/", ascii "%"], by decide, by decide⟩
  | divide => exact ⟨[ascii "*"], [ascii "%"], by decide, by decide⟩
  | modulo => exact ⟨[ascii "*", ascii "/"], [], by decide, by decide⟩

theorem literalsAt_match (negated : Bool) : ∃ lits lits', literalsAt 2 = lits ++ matchText negated :: lits' ∧
    (∀ lit ∈ lits, differ lit (matchText negated ++ [0x20]) = true) := by
  cases negated with
  | true => exact ⟨[ascii "eq", ascii "ne", ascii "=~", ascii "LIKE"], [], by decide, by decide⟩
  | false => exact ⟨[ascii "eq", ascii "ne"], [ascii "LIKE", ascii "!~"], by decide, by decide⟩

/-! ## What is written -/

theorem parens_of_lt {level place : ℕ} (h : level < place) (s : Bytes) : parens level place s = 0x28 :: (s ++ [0x29]) :=
  if_pos h

theorem parens_of_le {level place : ℕ} (h : place ≤ level) (s : Bytes) : parens level place s = s :=
  if_neg h.not_gt

theorem mem_parens {c : UInt8} (hopening : c ≠ 0x28) (hclosing : c ≠ 0x29) (level place : ℕ) (s : Bytes) :
    c ∈ parens level place s ↔ c ∈ s := by
  unfold parens
  split
  · rw [List.mem_cons, List.mem_append, List.mem_singleton]
    constructor
    · rintro (h | h | h)
      · exact absurd h hopening
      · exact h
      · exact absurd h hclosing
    · exact fun h => Or.inr (Or.inl h)
  · rfl

/-- What begins an expression: a leaf, an operator in front of its operand, or a parenthesis. -/
def startsExpr (a : UInt8) : Bool := startsLeaf a || a = 0x7e || a = 0x21 || a = 0x28

theorem startsExpr_facts {a : UInt8} (h : startsExpr a = true) : isWhite a = false ∧ a ≠ 0x23 ∧ a ≠ 0x2f := by
  grind only [startsExpr, isWhite, → startsLeaf_facts]

theorem parens_cons {s : Bytes} (h : ∃ a t, s = a :: t ∧ startsExpr a = true) (level place : ℕ) :
    ∃ a t, parens level place s = a :: t ∧ startsExpr a = true := by
  unfold parens
  split
  · exact ⟨_, _, rfl, rfl⟩
  · exact h

section

variable {prefixes : Prefixes} {e : Expr}

theorem Expr.text_cons (he : e.WellFormed prefixes) : ∃ a t, e.text = a :: t ∧ startsExpr a = true := by
  induction e with
  | leaf l =>
    obtain ⟨a, t, ht, ha⟩ := Leaf.text_cons he
    exact ⟨a, t, ht, by rw [startsExpr, ha]; rfl⟩
  | unary op e _ =>
    cases op with
    | complement => exact ⟨_, _, rfl, rfl⟩
    | not => exact ⟨_, _, rfl, rfl⟩
  | binary op l r ihl _ =>
    obtain ⟨a, t, ht, ha⟩ := parens_cons (ihl he.1) l.level op.level
    exact ⟨a, _, by rw [Expr.text, ht]; rfl, ha⟩
  | matching negated l p ihl =>
    obtain ⟨a, t, ht, ha⟩ := parens_cons (ihl he.1) l.level 2
    exact ⟨a, _, by rw [Expr.text, ht]; rfl, ha⟩

/-- Neither white space nor a comment is in front of an expression. -/
theorem Expr.front (he : e.WellFormed prefixes) (place : ℕ) (s : Bytes) :
    skipWhite (parens e.level place e.text ++ s) = parens e.level place e.text ++ s ∧
      NoComment (parens e.level place e.text ++ s) := by
  obtain ⟨a, t, ht, ha⟩ := parens_cons (Expr.text_cons he) e.level place
  obtain ⟨hwhite, hsharp, hslash⟩ := startsExpr_facts ha
  rw [ht]
  have hskip : skipWhite (a :: t ++ s) = a :: t ++ s := skipWhite_of_head fun b hb => Option.some.inj hb ▸ hwhite
  refine ⟨hskip, fun b u hu => ?_⟩
  rw [hskip] at hu
  obtain ⟨rfl, -⟩ := List.cons.inj hu
  exact ⟨hsharp, fun h => hslash h.1⟩

theorem Pattern.flags_oneLine (p : Pattern) : 0x0a ∉ p.flags := by
  unfold Pattern.flags
  cases p.i <;> cases p.m <;> cases p.s <;> cases p.x <;> decide

theorem Pattern.oneLine {p : Pattern} (hp : 0x0a ∉ p.inside) : 0x0a ∉ p.text := by
  unfold Pattern.text
  rw [List.mem_append, not_or]
  refine ⟨by cases p.withM <;> decide, List.not_mem_cons_of_ne_of_not_mem (by decide) ?_⟩
  rw [List.mem_append, not_or]
  exact ⟨hp, List.not_mem_cons_of_ne_of_not_mem (by decide) p.flags_oneLine⟩

theorem Expr.oneLine (he : e.WellFormed prefixes) : 0x0a ∉ e.text := by
  have hplace : ∀ {s : Bytes}, 0x0a ∉ s → ∀ level place, 0x0a ∉ parens level place s :=
    fun hs level place h => hs ((mem_parens (by decide) (by decide) level place _).1 h)
  have hspace : ∀ {s : Bytes}, 0x0a ∉ s → 0x0a ∉ (0x20 : UInt8) :: s :=
    fun hs => List.not_mem_cons_of_ne_of_not_mem (by decide) hs
  induction e with
  | leaf l => exact Leaf.oneLine he
  | unary op e ih =>
    unfold Expr.text
    rw [List.mem_append, not_or]
    exact ⟨by cases op <;> decide, hplace (ih he) _ _⟩
  | binary op l r ihl ihr =>
    unfold Expr.text
    rw [List.mem_append, not_or]
    refine ⟨hplace (ihl he.1) _ _, hspace ?_⟩
    rw [List.mem_append, not_or]
    exact ⟨by cases op <;> decide, hspace (hplace (ihr he.2) _ _)⟩
  | matching negated l p ihl =>
    unfold Expr.text
    rw [List.mem_append, not_or]
    refine ⟨hplace (ihl he.1) _ _, hspace ?_⟩
    rw [List.mem_append, not_or]
    exact ⟨by cases negated <;> decide, hspace (Pattern.oneLine he.2)⟩

end

/-! ## What is behind an expression -/

/-- Behind an expression in a place of level `k`: nothing, a closing parenthesis, the sign in front of another
constraint, or an operator that is not as tight. -/
inductive Behind (k : ℕ) : Bytes → Prop
  | nil : Behind k []
  | closing (t : Bytes) : Behind k (0x29 :: t)
  | separator (sep : Separator) (t : Bytes) : Behind k (sep.sign ++ 0x20 :: t)
  | operator (op : Operator) (hop : op.level < k) (t : Bytes) : Behind k (op.text ++ 0x20 :: t)
  | matching (negated : Bool) (hk : 2 < k) (t : Bytes) : Behind k (matchText negated ++ 0x20 :: t)

structure Follows (k : ℕ) (s : Bytes) : Prop where
  ends : EndsLeaf s
  oneLine : 0x0a ∉ s
  behind : Behind k (skipWhite s)

theorem noComment_of_cons {s t : Bytes} {a b : UInt8} (h : skipWhite s = a :: b :: t) (ha : a ≠ 0x23)
    (hb : a ≠ 0x2f ∨ b = 0x20) : NoComment s := by
  intro a' u hu
  obtain ⟨rfl, rfl⟩ := List.cons.inj (h.symm.trans hu)
  refine ⟨ha, fun hslash => ?_⟩
  rcases hb with hb | rfl
  · exact hb hslash.1
  · rcases hslash.2 with h0 | h0 <;> cases h0

theorem Operator.noComment (op : Operator) {s t : Bytes} (h : skipWhite s = op.text ++ 0x20 :: t) : NoComment s := by
  cases op <;> exact noComment_of_cons h (by decide) (by decide)

theorem noComment_match (negated : Bool) {s t : Bytes} (h : skipWhite s = matchText negated ++ 0x20 :: t) :
    NoComment s := by
  cases negated <;> exact noComment_of_cons h (by decide) (by decide)

theorem Separator.noComment (sep : Separator) {s t : Bytes} (h : skipWhite s = sep.sign ++ 0x20 :: t) : NoComment s := by
  cases sep <;> exact noComment_of_cons h (by decide) (by decide)

theorem Behind.noComment {k : ℕ} {s : Bytes} (h : Behind k (skipWhite s)) : NoComment s := by
  generalize hw : skipWhite s = w at h
  cases h with
  | nil => exact fun a t ha => absurd (hw.symm.trans ha) (List.cons_ne_nil a t).symm
  | closing t =>
    intro a u ha
    obtain ⟨rfl, -⟩ := List.cons.inj (hw.symm.trans ha)
    exact ⟨by decide, fun hslash => absurd hslash.1 (by decide)⟩
  | separator sep t => exact sep.noComment hw
  | operator op _ t => exact op.noComment hw
  | matching negated _ t => exact noComment_match negated hw

theorem Behind.mono {k j : ℕ} (hkj : k ≤ j) {s : Bytes} (h : Behind k s) : Behind j s := by
  cases h with
  | nil => exact .nil
  | closing t => exact .closing t
  | separator sep t => exact .separator sep t
  | operator op hop t => exact .operator op (hop.trans_le hkj) t
  | matching negated hk t => exact .matching negated (hk.trans_le hkj) t

theorem Follows.mono {k j : ℕ} (hkj : k ≤ j) {s : Bytes} (h : Follows k s) : Follows j s :=
  ⟨h.ends, h.oneLine, h.behind.mono hkj⟩

theorem follows_nil (k : ℕ) : Follows k [] where
  ends := fun a ha => by cases ha
  oneLine := List.not_mem_nil
  behind := .nil

theorem follows_closing (k : ℕ) {s : Bytes} (hs : 0x0a ∉ s) : Follows k (0x29 :: s) where
  ends := fun a ha => Or.inr (Or.inl (Option.some.inj ha).symm)
  oneLine := List.not_mem_cons_of_ne_of_not_mem (by decide) hs
  behind := .closing s

theorem skipWhite_operator (op : Operator) (t : Bytes) :
    skipWhite (0x20 :: (op.text ++ 0x20 :: t)) = op.text ++ 0x20 :: t := by
  cases op <;> rfl

theorem skipWhite_match (negated : Bool) (t : Bytes) :
    skipWhite (0x20 :: (matchText negated ++ 0x20 :: t)) = matchText negated ++ 0x20 :: t := by
  cases negated <;> rfl

theorem follows_operator {k : ℕ} (op : Operator) (hop : op.level < k) {t : Bytes} (ht : 0x0a ∉ t) :
    Follows k (0x20 :: (op.text ++ 0x20 :: t)) where
  ends := fun a ha => Or.inl (Option.some.inj ha).symm
  oneLine := by
    refine List.not_mem_cons_of_ne_of_not_mem (by decide) ?_
    rw [List.mem_append, not_or]
    exact ⟨by cases op <;> decide, List.not_mem_cons_of_ne_of_not_mem (by decide) ht⟩
  behind := by
    rw [skipWhite_operator]
    exact .operator op hop t

theorem follows_match {k : ℕ} (negated : Bool) (hk : 2 < k) {t : Bytes} (ht : 0x0a ∉ t) :
    Follows k (0x20 :: (matchText negated ++ 0x20 :: t)) where
  ends := fun a ha => Or.inl (Option.some.inj ha).symm
  oneLine := by
    refine List.not_mem_cons_of_ne_of_not_mem (by decide) ?_
    rw [List.mem_append, not_or]
    exact ⟨by cases negated <;> decide, List.not_mem_cons_of_ne_of_not_mem (by decide) ht⟩
  behind := by
    rw [skipWhite_match]
    exact .matching negated hk t

/-! ## The operator in front -/

theorem findInfix_passes (prefixes : Prefixes) (m : ℕ) {j : ℕ} {s : Bytes} (hs : NoComment s)
    (h : ∀ lit ∈ literalsAt j, stripLiteral lit (skipWhite s) = none) :
    findInfix (infixesAt prefixes m j) s = some (none, s) := by
  refine findInfix_none hs fun o ho => ?_
  obtain ⟨lit, hlit, rfl⟩ := List.mem_map.1 ho
  rw [literal_infixAt]
  exact h lit hlit

theorem append_space (x t : Bytes) : x ++ 0x20 :: t = (x ++ [0x20]) ++ t := by
  rw [List.append_assoc, List.singleton_append]

theorem findInfix_other (prefixes : Prefixes) (m : ℕ) {j : ℕ} (hj : j < 7) {op : Operator} (hop : op.level ≠ j)
    {s t : Bytes} (h : skipWhite s = op.text ++ 0x20 :: t) : findInfix (infixesAt prefixes m j) s = some (none, s) := by
  refine findInfix_passes prefixes m (op.noComment h) fun lit hlit => ?_
  rw [h, append_space]
  exact stripLiteral_of_differ (differ_operator op j hj hop lit hlit) t

theorem findInfix_behind (prefixes : Prefixes) (m : ℕ) {k j : ℕ} (hj : j < 7) (hkj : k ≤ j) {s : Bytes}
    (h : Behind k (skipWhite s)) : findInfix (infixesAt prefixes m j) s = some (none, s) := by
  have hs := h.noComment
  generalize hw : skipWhite s = w at h
  cases h with
  | nil =>
    refine findInfix_passes prefixes m hs fun lit hlit => ?_
    obtain ⟨a, l, rfl⟩ := List.exists_cons_of_ne_nil (differ_closing j hj lit hlit).1
    rw [hw]
    rfl
  | closing t =>
    refine findInfix_passes prefixes m hs fun lit hlit => ?_
    rw [hw]
    exact stripLiteral_of_differ (differ_closing j hj lit hlit).2 t
  | separator sep t =>
    refine findInfix_passes prefixes m hs fun lit hlit => ?_
    rw [hw, append_space]
    exact stripLiteral_of_differ (differ_separator sep j hj lit hlit) t
  | operator op hop t => exact findInfix_other prefixes m hj (hop.trans_le hkj).ne hw
  | matching negated hk t =>
    refine findInfix_passes prefixes m hs fun lit hlit => ?_
    rw [hw, append_space]
    exact stripLiteral_of_differ (differ_match negated j hj (hk.trans_le hkj).ne' lit hlit) t

theorem findInfix_of_literalsAt (prefixes : Prefixes) (m : ℕ) {k : ℕ} {lit s t : Bytes} {lits lits' : List Bytes}
    (hs : NoComment s) (hlits : literalsAt k = lits ++ lit :: lits')
    (hbefore : ∀ l ∈ lits, differ l (lit ++ [0x20]) = true) (h : skipWhite s = lit ++ 0x20 :: t) :
    findInfix (infixesAt prefixes m k) s = some (some (infixAt prefixes m k lit), skipWhite t) := by
  unfold infixesAt
  rw [hlits, List.map_append, List.map_cons]
  refine findInfix_append (u := 0x20 :: t) hs (fun o ho => ?_) ?_
  · obtain ⟨l, hl, rfl⟩ := List.mem_map.1 ho
    rw [literal_infixAt, h, append_space]
    exact stripLiteral_of_differ (hbefore l hl) t
  · rw [literal_infixAt, h, stripLiteral_self]

theorem findInfix_operator (prefixes : Prefixes) (m : ℕ) (op : Operator) {s t : Bytes}
    (h : skipWhite s = op.text ++ 0x20 :: t) :
    findInfix (infixesAt prefixes m op.level) s =
      some (some (infixOf (levelParser prefixes m (op.level + 1)) op.text), skipWhite t) := by
  obtain ⟨lits, lits', hlits, hbefore⟩ := literalsAt_operator op
  rw [findInfix_of_literalsAt prefixes m (op.noComment h) hlits hbefore h]
  cases op <;> rfl

theorem findInfix_match (prefixes : Prefixes) (m : ℕ) (negated : Bool) {s t : Bytes}
    (h : skipWhite s = matchText negated ++ 0x20 :: t) :
    findInfix (infixesAt prefixes m 2) s =
      some (some ⟨matchText negated, patternLiteral, matchText negated⟩, skipWhite t) := by
  obtain ⟨lits, lits', hlits, hbefore⟩ := literalsAt_match negated
  rw [findInfix_of_literalsAt prefixes m (noComment_match negated h) hlits hbefore h]
  cases negated <;> rfl

/-! ## Patterns -/

/-- A flag that is not there may not be behind it. -/
theorem head_optional {c d : UInt8} (hne : d ≠ c) (b : Bool) {z : Bytes} (hz : ∀ a ∈ z.head?, a ≠ c) :
    ∀ a ∈ ((if b then [d] else []) ++ z).head?, a ≠ c := by
  cases b with
  | true => exact fun a ha => Option.some.inj ha ▸ hne
  | false => exact hz

theorem reads_scanFlags (p : Pattern) {s : Bytes} (hs : EndsLeaf s) : Reads scanFlags p.flags s := by
  have hends : ∀ {c : UInt8}, c ≠ 0x20 → c ≠ 0x29 → c ≠ 0x2c → ∀ a ∈ s.head?, a ≠ c := hs.ne
  have hx := reads_optional 0x78 p.x (hends (c := 0x78) (by decide) (by decide) (by decide))
  have hsx := (reads_optional 0x73 p.s (head_optional (by decide) p.x (hends (by decide) (by decide) (by decide)))).seq hx
  have hmsx := Reads.seq (reads_optional 0x6d p.m ?_) hsx
  · refine Reads.seq (reads_optional 0x69 p.i ?_) hmsx
    rw [List.append_assoc, List.append_assoc]
    exact head_optional (by decide) p.m (head_optional (by decide) p.s (head_optional (by decide) p.x
      (hends (by decide) (by decide) (by decide))))
  · rw [List.append_assoc]
    exact head_optional (by decide) p.s (head_optional (by decide) p.x (hends (by decide) (by decide) (by decide)))

theorem scanSlashes_of_oneLine {t : Bytes} (ht : 0x0a ∉ t) :
    scanSlashes (0x2f :: t) = (lastSplit (fun y => some ((), y)) 0x2f t).bind fun u =>
      (scanFlags u.2).map fun v => (0x2f :: (u.1.1 ++ 0x2f :: v.1), v.2) := by
  have hline : ∀ a ∈ t, decide (a ≠ 0x0a) = true := fun a ha => decide_eq_true fun h => ht (h ▸ ha)
  obtain ⟨htake, hdrop⟩ := takeWhile_append_stop (s := []) hline fun a ha => by cases ha
  rw [List.append_nil] at htake hdrop
  rw [scanSlashes, if_pos rfl, htake, hdrop]
  simp only [List.append_nil]

theorem patternLiteral_of_slashes {p : Pattern} {s : Bytes} {t : Bytes × Bytes}
    (h : scanSlashes (0x2f :: (p.inside ++ 0x2f :: (p.flags ++ s))) = some t) :
    patternLiteral (p.text ++ s) = some ([(if p.withM then [0x6d] else []) ++ t.1], t.2) := by
  have htext : p.text ++ s = (if p.withM then [0x6d] else []) ++ 0x2f :: (p.inside ++ 0x2f :: (p.flags ++ s)) := by
    simp [Pattern.text]
  have hscan : scanPattern (p.text ++ s) = some ((if p.withM then [0x6d] else []) ++ t.1, t.2) := by
    have hslash : ∀ a ∈ ((0x2f : UInt8) :: (p.inside ++ 0x2f :: (p.flags ++ s))).head?, a ≠ 0x6d :=
      fun a ha => Option.some.inj ha ▸ by decide
    rw [htext, scanPattern, (reads_optional 0x6d p.withM hslash).seq_eq, h]
    rfl
  have htake : takePattern (p.text ++ s) = some ((if p.withM then [0x6d] else []) ++ t.1, t.2) := by
    cases hz : p.text ++ s with
    | nil =>
      rw [hz] at hscan
      cases hscan
    | cons a z =>
      rw [hz] at hscan
      rw [takePattern, hscan]
  unfold patternLiteral
  rw [htake]

theorem Pattern.line {p : Pattern} (hp : 0x0a ∉ p.inside) {s : Bytes} (hs : 0x0a ∉ s) :
    0x0a ∉ p.inside ++ 0x2f :: (p.flags ++ s) := by
  rw [List.mem_append, not_or]
  refine ⟨hp, List.not_mem_cons_of_ne_of_not_mem (by decide) ?_⟩
  rw [List.mem_append, not_or]
  exact ⟨p.flags_oneLine, hs⟩

/-- Without a slash behind it a pattern is read as it is written. -/
theorem patternLiteral_of_noSlash {p : Pattern} (hp : 0x0a ∉ p.inside) {s : Bytes} (hs : EndsLeaf s) (hline : 0x0a ∉ s)
    (hslash : 0x2f ∉ s) : patternLiteral (p.text ++ s) = some ([p.text], s) := by
  have hflags : 0x2f ∉ p.flags := by
    unfold Pattern.flags
    cases p.i <;> cases p.m <;> cases p.s <;> cases p.x <;> decide
  have hlast : lastSplit (fun y => some ((), y)) 0x2f (p.inside ++ 0x2f :: (p.flags ++ s)) =
      some ((p.inside, ()), p.flags ++ s) := by
    refine lastSplit_eq rfl rfl fun u z hz => absurd ?_ (not_or.2 ⟨hflags, hslash⟩)
    rw [← List.mem_append, hz]
    exact List.mem_append_right u List.mem_cons_self
  refine patternLiteral_of_slashes (t := (0x2f :: (p.inside ++ 0x2f :: p.flags), s)) ?_
  rw [scanSlashes_of_oneLine (Pattern.line hp hline), hlast, Option.bind_some,
    show scanFlags (p.flags ++ s) = some (p.flags, s) from reads_scanFlags p hs]
  rfl

/-- With one, more is taken for the pattern. -/
theorem patternLiteral_of_slash {p : Pattern} (hp : 0x0a ∉ p.inside) {s : Bytes} (hline : 0x0a ∉ s) (hslash : 0x2f ∈ s) :
    ∃ y r, patternLiteral (p.text ++ s) = some ([y], r) ∧ y ≠ p.text := by
  obtain ⟨u, z, rfl⟩ := List.append_of_mem hslash
  have hsplit : p.inside ++ 0x2f :: (p.flags ++ (u ++ 0x2f :: z)) =
      (p.inside ++ 0x2f :: (p.flags ++ u)) ++ 0x2f :: z := by
    simp
  obtain ⟨⟨⟨x, c⟩, y⟩, hlast⟩ := Option.isSome_iff_exists.1 (lastSplit_isSome (p := fun y => some ((), y)) hsplit rfl)
  have hle := lastSplit_longest hlast hsplit rfl
  obtain ⟨⟨flags, r⟩, hflags⟩ : ∃ v, scanFlags y = some v := ⟨_, rfl⟩
  refine ⟨(if p.withM then [0x6d] else []) ++ 0x2f :: (x ++ 0x2f :: flags), r, ?_, fun h => ?_⟩
  · refine patternLiteral_of_slashes (t := (0x2f :: (x ++ 0x2f :: flags), r)) ?_
    rw [scanSlashes_of_oneLine (Pattern.line hp hline), hlast, Option.bind_some, hflags]
    rfl
  · have hlength := congrArg List.length h
    simp only [Pattern.text, List.length_append, List.length_cons] at hlength hle
    omega

end RdfStore.Rdql
