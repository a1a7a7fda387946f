import RdfStore.Rdql.Operators
import RdfStore.Rdql.Parser

/-!
# Expressions are compiled (`Constraint` to `PrimaryExpression` of `RDQL/Parser.pm`)

Each function of the parser reads an expression in a place of its level.  A list
that went wrong once stays wrong, as the parser only appends.

    a tree is compiled to its post-order ↔ `Expr.Compiles`      (constraint_postOrder_iff)
-/

namespace RdfStore.Rdql

open ByteMem Scan Tokens NTriples

/-! ## Lists that went wrong -/

/-- Neither list goes on where the other one ends. -/
def Apart (es xs : List Bytes) : Prop := ¬ es <+: xs ∧ ¬ xs <+: es

section

variable {es es' xs xs' : List Bytes}

theorem Apart.mono (h : Apart es xs) (hes : es <+: es') (hxs : xs <+: xs') : Apart es' xs' := by
  constructor
  · intro h'
    rcases List.prefix_or_prefix_of_prefix (hes.trans h') hxs with h0 | h0
    · exact h.1 h0
    · exact h.2 h0
  · intro h'
    rcases List.prefix_or_prefix_of_prefix (hxs.trans h') hes with h0 | h0
    · exact h.2 h0
    · exact h.1 h0

theorem Apart.append_left (h : Apart es xs) (l : List Bytes) : Apart (l ++ es) (l ++ xs) :=
  ⟨fun h' => h.1 ((List.prefix_append_right_inj l).1 h'), fun h' => h.2 ((List.prefix_append_right_inj l).1 h')⟩

theorem apart_cons {a b : Bytes} (h : a ≠ b) (es xs : List Bytes) : Apart (a :: es) (b :: xs) :=
  ⟨fun h' => h (List.cons_prefix_cons.1 h').1, fun h' => h (List.cons_prefix_cons.1 h').1.symm⟩

theorem Apart.ne (h : Apart es xs) : es ≠ xs := by
  rintro rfl
  exact h.1 List.prefix_rfl

/-- In front of a comparison by size that no function is left to read: an operand is missing. -/
structure Stuck (es : List Bytes) (s : Bytes) (xs : List Bytes) : Prop where
  operator : ∃ (op : Operator) (t : Bytes), op.level = 4 ∧ skipWhite s = op.text ++ 0x20 :: t
  missing : ∃ y ys, xs = es ++ y :: ys ∧ ∀ op : Operator, y ≠ op.text

theorem Stuck.mono {s : Bytes} (h : Stuck es s xs) (hxs : xs <+: xs') : Stuck es s xs' := by
  obtain ⟨y, ys, rfl, hy⟩ := h.missing
  obtain ⟨zs, rfl⟩ := hxs
  exact ⟨h.operator, y, ys ++ zs, by rw [List.append_assoc, List.cons_append], hy⟩

/-- The next operator comes too early. -/
theorem Stuck.apart {s : Bytes} (h : Stuck es s xs) (op : Operator) : Apart (es ++ [op.text]) xs := by
  obtain ⟨y, ys, rfl, hy⟩ := h.missing
  exact (apart_cons (hy op).symm [] ys).append_left es

theorem Stuck.ne {s : Bytes} (h : Stuck es s xs) : es ≠ xs := by
  obtain ⟨y, ys, rfl, -⟩ := h.missing
  exact fun h' => List.cons_ne_nil y ys (List.append_right_eq_self.1 h'.symm)

end

/-! ## Outcomes -/

/-- The list was pushed and the rest is left, up to white space. -/
def Right (xs : List Bytes) (r : Bytes) (o : Outcome) : Prop :=
  ∃ s, o = some (xs, s) ∧ skipWhite s = skipWhite r ∧ s.length ≤ r.length

/-- The function for level `k` does not push the list. -/
def Wrong (k : ℕ) (xs : List Bytes) (o : Outcome) : Prop :=
  ∀ es s, o = some (es, s) → Apart es xs ∨ k ≤ 4 ∧ Stuck es s xs

theorem Wrong.mono {k : ℕ} {xs xs' : List Bytes} {o : Outcome} (h : Wrong k xs o) (hxs : xs <+: xs') :
    Wrong k xs' o := by
  intro es s ho
  rcases h es s ho with hap | ⟨hk, hstuck⟩
  · exact Or.inl (hap.mono List.prefix_rfl hxs)
  · exact Or.inr ⟨hk, hstuck.mono hxs⟩

/-- The list is pushed exactly if `c`. -/
structure Settles (c : Prop) (k : ℕ) (xs : List Bytes) (r : Bytes) (o : Outcome) : Prop where
  right : c → Right xs r o
  wrong : ¬ c → Wrong k xs o

theorem infixLoop_extends {os : List Infix} {n : ℕ} {es es' : List Bytes} {s s' : Bytes}
    (h : infixLoop os n es s = some (es', s')) : es <+: es' := by
  induction n generalizing es s with
  | zero =>
    unfold infixLoop at h
    obtain ⟨⟨o, t⟩, -, h⟩ := Option.bind_eq_some_iff.1 h
    cases o with
    | none =>
      cases h
      exact List.prefix_rfl
    | some o => cases h
  | succ n ih =>
    unfold infixLoop at h
    obtain ⟨⟨o, t⟩, -, h⟩ := Option.bind_eq_some_iff.1 h
    cases o with
    | none =>
      cases h
      exact List.prefix_rfl
    | some o =>
      obtain ⟨u, -, h⟩ := Option.bind_eq_some_iff.1 h
      exact (List.prefix_append es _).trans (ih h)

/-- Without an operator in front the loop ends. -/
theorem infixLoop_ends {os : List Infix} {s : Bytes} (h : findInfix os s = some (none, s)) (n : ℕ) (es : List Bytes) :
    infixLoop os n es s = some (es, s) := by
  unfold infixLoop
  rw [h]
  rfl

/-- With one in front it goes on behind the operand. -/
theorem infixLoop_goes {os : List Infix} {o : Infix} {s t : Bytes} (h : findInfix os s = some (some o, t)) (n : ℕ)
    (es : List Bytes) : infixLoop os (n + 1) es s =
      (o.operand t).bind fun u => infixLoop os n (es ++ (u.1 ++ [o.pushed])) u.2 := by
  rw [infixLoop, h]
  rfl

/-! ## Entries -/

section

variable {prefixes : Prefixes}

/-- What an operator is written with. -/
def isOperatorChar (a : UInt8) : Bool :=
  a = 0x7c || a = 0x26 || a = 0x65 || a = 0x71 || a = 0x6e || a = 0x3d || a = 0x21 || a = 0x3c || a = 0x3e ||
    a = 0x2b || a = 0x2d || a = 0x2a || a = 0x2f || a = 0x25

theorem Operator.text_chars (op : Operator) : ∀ a ∈ op.text, isOperatorChar a = true := by
  cases op <;> exact forall_mem_of_all (by decide +kernel)

theorem Operator.ne_of_mem (op : Operator) {x : Bytes} {a : UInt8} (ha : a ∈ x) (hno : isOperatorChar a = false) :
    x ≠ op.text := by
  rintro rfl
  exact Bool.false_ne_true (hno.symm.trans (op.text_chars a ha))

/-- An operator is in no angle brackets. -/
theorem Operator.ne_brackets (op : Operator) (x : Bytes) : 0x3c :: (x ++ [0x3e]) ≠ op.text := by
  intro h
  have hhead : op.text.head? = some 0x3c := by rw [← h]; rfl
  have hlast : op.text.getLast? = some 0x3e := by
    rw [← h, ← List.cons_append]
    exact List.getLast?_concat
  revert hhead hlast
  cases op <;> decide

theorem isOperatorChar_leaf {a : UInt8} (h : isQuote a = true ∨ NTriples.isDigit a = true ∨ a = 0x2e) :
    isOperatorChar a = false := by
  by_contra hop
  simp only [isOperatorChar, Bool.or_eq_true, decide_eq_true_eq, Bool.not_eq_false] at hop
  -- none of the characters is a quote, a digit or a full stop
  rcases hop with ((((((((((((hop | hop) | hop) | hop) | hop) | hop) | hop) | hop) | hop) | hop) | hop) | hop) | hop) | hop <;>
    exact absurd h (by subst hop; decide)

theorem Leaf.entry_ne {l : Leaf} (hl : l.WellFormed prefixes) (op : Operator) : l.entry prefixes ≠ op.text := by
  cases l with
  | var dollar name => exact op.ne_of_mem (a := 0x3f) List.mem_cons_self rfl
  | qname name localName => exact op.ne_brackets _
  | number x =>
    obtain ⟨a, t, ht⟩ := List.exists_cons_of_ne_nil (Number.text_ne_nil hl)
    have ha : a ∈ x.text.head? := by rw [ht]; rfl
    exact op.ne_of_mem (List.mem_of_mem_head? ha) (isOperatorChar_leaf (Or.inr (Number.head hl a ha)))
  | hex capital digits => exact op.ne_of_mem (a := 0x30) List.mem_cons_self rfl
  | string x =>
    refine op.ne_of_mem (a := x.mark) ?_ (isOperatorChar_leaf (Or.inl hl.mark))
    exact List.mem_append_right _ List.mem_cons_self
  | yes => exact op.ne_of_mem (show 0x74 ∈ ascii "true" by decide) rfl
  | no => exact op.ne_of_mem (show 0x66 ∈ ascii "false" by decide) rfl
  | null => exact op.ne_of_mem (show 0x75 ∈ ascii "null" by decide) rfl

theorem Expr.postOrder_cons {e : Expr} (he : e.WellFormed prefixes) :
    ∃ y ys, e.postOrder prefixes = y :: ys ∧ ∀ op : Operator, y ≠ op.text := by
  induction e with
  | leaf l => exact ⟨_, _, rfl, Leaf.entry_ne he⟩
  | unary op e ih =>
    obtain ⟨y, ys, h, hy⟩ := ih he
    exact ⟨y, _, by rw [Expr.postOrder, h]; rfl, hy⟩
  | binary op l r ihl _ =>
    obtain ⟨y, ys, h, hy⟩ := ihl he.1
    exact ⟨y, _, by rw [Expr.postOrder, h]; rfl, hy⟩
  | matching negated l p ihl =>
    obtain ⟨y, ys, h, hy⟩ := ihl he.1
    exact ⟨y, _, by rw [Expr.postOrder, h]; rfl, hy⟩

/-- Fewer slashes do no harm. -/
theorem Expr.Compiles.mono {e : Expr} {slash slash' : Prop} (hslash : slash' → slash) (h : e.Compiles prefixes slash) :
    e.Compiles prefixes slash' := by
  induction e generalizing slash slash' with
  | leaf l => exact h
  | unary op e ih => exact ih hslash h
  | binary op l r ihl ihr => exact ⟨h.1, ihl (Or.imp_right (Or.imp_right hslash)) h.2.1, ihr hslash h.2.2⟩
  | matching negated l p ihl => exact ⟨fun h' => h.1 (hslash h'), h.2⟩

/-! ## What the levels read -/

variable (prefixes)

/-- The function for level `k` reads the expression in a place of this level. -/
def LevelReads (k : ℕ) (e : Expr) : Prop :=
  ∀ m r, (parens e.level k e.text).length ≤ m → Follows k r →
    Settles (e.Compiles prefixes (0x2f ∈ r)) k (e.postOrder prefixes) r
      (levelParser prefixes m k (parens e.level k e.text ++ r))

/-- The loop for level `k` goes on behind the expression. -/
def LoopReads (k : ℕ) (e : Expr) : Prop :=
  ∀ m r, (parens e.level k e.text).length ≤ m → Follows (k + 1) r →
    (e.Compiles prefixes (0x2f ∈ r) → ∃ n s, s.length ≤ n ∧ skipWhite s = skipWhite r ∧ s.length ≤ r.length ∧
      levelParser prefixes m k (parens e.level k e.text ++ r) =
        infixLoop (infixesAt prefixes m k) n (e.postOrder prefixes) s) ∧
    (¬ e.Compiles prefixes (0x2f ∈ r) →
      Wrong k (e.postOrder prefixes) (levelParser prefixes m k (parens e.level k e.text ++ r)))

/-- A comparison by size is read in front of another. -/
def ComparisonReads (e : Expr) : Prop :=
  ∀ m r, e.text.length ≤ m → Follows 5 r →
    Settles (e.Compiles prefixes (0x2f ∈ r)) 4 (e.postOrder prefixes) r (levelParser prefixes m 4 (e.text ++ r))

variable {prefixes} {e : Expr}

theorem levelReads_of_loopReads {k : ℕ} (hk : IsLoop k) (h : LoopReads prefixes k e) : LevelReads prefixes k e := by
  intro m r hm hr
  obtain ⟨hright, hwrong⟩ := h m r hm (hr.mono (Nat.le_succ k))
  refine ⟨fun hc => ?_, hwrong⟩
  obtain ⟨n, s, -, hs, hlen, hrun⟩ := hright hc
  have hend : findInfix (infixesAt prefixes m k) s = some (none, s) :=
    findInfix_behind prefixes m hk.1 le_rfl (hs ▸ hr.behind)
  exact ⟨s, by rw [hrun, infixLoop_ends hend], hs, hlen⟩

/-- Two places that make no difference to an expression of another level. -/
theorem parens_succ {level k : ℕ} (h : level ≠ k) (s : Bytes) : parens level (k + 1) s = parens level k s := by
  unfold parens
  by_cases hlt : level < k
  · rw [if_pos (Nat.lt_succ_of_lt hlt), if_pos hlt]
  · rw [if_neg hlt, if_neg (by omega)]

theorem loopReads_of_levelReads {k : ℕ} (hk : IsLoop k) (hlevel : e.level ≠ k) (h : LevelReads prefixes (k + 1) e) :
    LoopReads prefixes k e := by
  intro m r hm hr
  rw [← parens_succ hlevel] at hm ⊢
  obtain ⟨hright, hwrong⟩ := h m r hm hr
  rw [levelParser_loop prefixes m hk]
  refine ⟨fun hc => ?_, fun hc es s hes => ?_⟩
  · obtain ⟨s, hrun, hs, hlen⟩ := hright hc
    exact ⟨s.length, s, le_rfl, hs, hlen, by rw [infixLevel, hrun]; rfl⟩
  · obtain ⟨⟨es', s'⟩, hes', hloop⟩ := Option.bind_eq_some_iff.1 hes
    rcases hwrong hc es' s' hes' with hap | ⟨hk4, hstuck⟩
    · exact Or.inl (hap.mono (infixLoop_extends hloop) List.prefix_rfl)
    · obtain ⟨op, t, hop, ht⟩ := hstuck.operator
      rw [infixLoop_ends (findInfix_other prefixes m hk.1 (by omega) ht)] at hloop
      cases hloop
      exact Or.inr ⟨by omega, hstuck⟩

theorem levelReads_of_comparisonReads (hlevel : e.level = 4) (h : ComparisonReads prefixes e) :
    LevelReads prefixes 4 e := by
  intro m r hm hr
  rw [parens_of_le hlevel.ge] at hm ⊢
  exact h m r hm (hr.mono (by omega))

theorem levelReads_relational (hlevel : e.level ≠ 4) (h : LevelReads prefixes 5 e) : LevelReads prefixes 4 e := by
  intro m r hm hr
  rw [← parens_succ hlevel] at hm ⊢
  obtain ⟨hright, hwrong⟩ := h m r hm (hr.mono (by omega))
  rw [levelParser_relational]
  refine ⟨fun hc => ?_, fun hc es s hes => ?_⟩
  · obtain ⟨s, hrun, hs, hlen⟩ := hright hc
    refine ⟨s, ?_, hs, hlen⟩
    rw [hrun, Option.bind_some, findInfix_behind prefixes m (by omega) le_rfl (hs ▸ hr.behind), Option.bind_some]
  · obtain ⟨⟨es', s'⟩, hes', hrest⟩ := Option.bind_eq_some_iff.1 hes
    obtain ⟨⟨o, t⟩, -, hrest⟩ := Option.bind_eq_some_iff.1 hrest
    rcases hwrong hc es' s' hes' with hap | ⟨hk, -⟩
    · left
      cases o with
      | none =>
        cases hrest
        exact hap
      | some o =>
        obtain ⟨v, -, heq⟩ := Option.map_eq_some_iff.1 hrest
        cases heq
        exact hap.mono (List.prefix_append es' _) List.prefix_rfl
    · omega

/-! ## Primary and unary expressions -/

theorem toLower_eq_sign {a c : UInt8} (hc : c = 0x28 ∨ c = 0x7e ∨ c = 0x21) : toLower a = toLower c ↔ a = c := by
  rcases hc with rfl | rfl | rfl <;> exact toLower_eq_iff rfl

theorem levelReads_leaf {l : Leaf} (hl : l.WellFormed prefixes) : LevelReads prefixes 8 (.leaf l) := by
  intro m r _ hr
  obtain ⟨y, z, hread, hplain, hother⟩ := operandToken_leaf hl hr.ends
  obtain ⟨a, t, ht, ha⟩ := Leaf.text_cons hl
  have hfront := Expr.front (show (Expr.leaf l).WellFormed prefixes from hl) 8 r
  rw [parens_of_le (show 8 ≤ (Expr.leaf l).level from le_rfl)] at hfront ⊢
  have hopening : stripLiteral (ascii "(") (skipWhite (l.text ++ r)) = none := by
    rw [show skipWhite (l.text ++ r) = l.text ++ r from hfront.1, ht]
    exact if_neg fun h => (startsLeaf_facts ha).2.2.2.1 ((toLower_eq_sign (by decide)).1 h.symm)
  have hrun : levelParser prefixes m 8 ((Expr.leaf l).text ++ r) = some ([y], z) := by
    show primaryExpression prefixes _ (l.text ++ r) = _
    unfold primaryExpression
    rw [matchAndEat_none (s := l.text ++ r) hfront.2 hopening, Option.bind_some]
    simp only [Bool.false_eq_true, if_false]
    rw [hread]
    rfl
  rw [hrun]
  refine ⟨fun hc => ?_, fun hc es s hes => ?_⟩
  · obtain ⟨rfl, rfl⟩ := hplain hc
    exact ⟨_, rfl, skipWhite_skipWhite r, length_skipWhite r⟩
  · cases hes
    exact Or.inl (apart_cons (hother hc) [] [])

theorem differ_closing_operator (op : Operator) : differ (ascii ")") (op.text ++ [0x20]) = true := by
  cases op <;> decide

theorem levelReads_parens (he : e.WellFormed prefixes) (hlevel : e.level < 8) (h : LevelReads prefixes 0 e) :
    LevelReads prefixes 8 e := by
  intro m r hm hr
  rw [parens_of_lt hlevel] at hm ⊢
  rw [List.length_cons, List.length_append, List.length_singleton] at hm
  obtain ⟨m, rfl⟩ : ∃ m', m = m' + 1 := ⟨m - 1, by omega⟩
  have hinner := h m (0x29 :: r) (by rw [parens_of_le (Nat.zero_le _)]; omega) (follows_closing 0 hr.oneLine)
  have hfront := (Expr.front he 0 (0x29 :: r)).1
  rw [parens_of_le (Nat.zero_le _)] at hinner hfront
  have hslash : (0x2f ∈ (0x29 : UInt8) :: r) = (0x2f ∈ r) := by simp
  rw [hslash] at hinner
  have hopening : matchAndEat (ascii "(") (0x28 :: (e.text ++ [0x29]) ++ r) = some (true, e.text ++ 0x29 :: r) := by
    have hs : NoComment (0x28 :: (e.text ++ [0x29]) ++ r) := by
      intro a t ht
      obtain ⟨rfl, -⟩ := List.cons.inj ht
      exact ⟨by decide, fun h0 => absurd h0.1 (by decide)⟩
    rw [matchAndEat_some hs (u := e.text ++ [0x29] ++ r) rfl, List.append_assoc]
    exact congrArg (fun t => some (true, t)) hfront
  have hrun : levelParser prefixes (m + 1) 8 (0x28 :: (e.text ++ [0x29]) ++ r) =
      (levelParser prefixes m 0 (e.text ++ 0x29 :: r)).bind fun u =>
        (matchAndEat (ascii ")") u.2).bind fun v => if v.1 then some (u.1, v.2) else none := by
    show primaryExpression prefixes _ _ = _
    unfold primaryExpression
    rw [hopening]
    rfl
  rw [hrun]
  refine ⟨fun hc => ?_, fun hc es s hes => ?_⟩
  · obtain ⟨s, hpost, hs, -⟩ := hinner.right hc
    have hclosing : matchAndEat (ascii ")") s = some (true, skipWhite r) := by
      have hbehind : Behind 0 (skipWhite s) := hs ▸ .closing r
      refine matchAndEat_some hbehind.noComment ?_
      rw [hs]
      rfl
    rw [hpost, Option.bind_some, hclosing]
    exact ⟨_, rfl, skipWhite_skipWhite r, length_skipWhite r⟩
  · obtain ⟨⟨es', s'⟩, hes', hclosing⟩ := Option.bind_eq_some_iff.1 hes
    obtain ⟨⟨b, z⟩, hb, heq⟩ := Option.bind_eq_some_iff.1 hclosing
    rcases hinner.wrong hc es' s' hes' with hap | ⟨-, hstuck⟩
    · cases b with
      | true =>
        cases heq
        exact Or.inl hap
      | false => cases heq
    · obtain ⟨op, t, -, ht⟩ := hstuck.operator
      have hno : matchAndEat (ascii ")") s' = some (false, s') := by
        refine matchAndEat_none (op.noComment ht) ?_
        rw [ht, append_space]
        exact stripLiteral_of_differ (differ_closing_operator op) t
      rw [hno] at hb
      cases hb
      cases heq

/-- In front of no operator it is a primary expression. -/
theorem unaryLoop_primary {inner : Bytes → Outcome} {n : ℕ} {s : Bytes} (hs : NoComment s)
    (hcomplement : stripLiteral (ascii "~") (skipWhite s) = none) (hnot : stripLiteral (ascii "!") (skipWhite s) = none) :
    unaryLoop prefixes inner n s = primaryExpression prefixes inner s := by
  unfold unaryLoop
  rw [matchAndEat_none hs hcomplement, Option.bind_some]
  simp only [Bool.false_eq_true, if_false]
  rw [matchAndEat_none hs hnot]
  rfl

theorem unaryExpression_operator {inner : Bytes → Outcome} (op : UnaryOperator) {t : Bytes} (ht : skipWhite t = t) :
    unaryExpression prefixes inner (op.text ++ t) =
      (unaryExpression prefixes inner t).map fun u => (u.1 ++ [op.text], u.2) := by
  cases op with
  | complement =>
    have hs : NoComment (0x7e :: t) := by
      intro a u hu
      obtain ⟨rfl, -⟩ := List.cons.inj hu
      exact ⟨by decide, fun h0 => absurd h0.1 (by decide)⟩
    show unaryLoop prefixes inner (t.length + 1) (0x7e :: t) = _
    rw [unaryLoop, matchAndEat_some hs (u := t) rfl, ht]
    rfl
  | not =>
    have hs : NoComment (0x21 :: t) := by
      intro a u hu
      obtain ⟨rfl, -⟩ := List.cons.inj hu
      exact ⟨by decide, fun h0 => absurd h0.1 (by decide)⟩
    show unaryLoop prefixes inner (t.length + 1) (0x21 :: t) = _
    rw [unaryLoop, matchAndEat_none hs (show stripLiteral (ascii "~") (skipWhite (0x21 :: t)) = none from rfl),
      Option.bind_some]
    simp only [Bool.false_eq_true, if_false]
    rw [matchAndEat_some hs (u := t) rfl, ht]
    rfl

theorem Operator.level_lt (op : Operator) : op.level < 7 := by
  cases op <;> decide

theorem Expr.level_le (e : Expr) : e.level ≤ 8 := by
  cases e with
  | leaf l => exact le_rfl
  | unary op e => exact (by decide : 7 ≤ 8)
  | binary op l r => exact (op.level_lt.trans (by decide : 7 < 8)).le
  | matching negated l p => exact (by decide : 2 ≤ 8)

/-- What is not unary begins like a leaf or with a parenthesis. -/
theorem Expr.operand_cons (he : e.WellFormed prefixes) (hlevel : e.level ≠ 7) :
    ∃ a t, parens e.level 8 e.text = a :: t ∧ a ≠ 0x7e ∧ a ≠ 0x21 := by
  by_cases hlt : e.level < 8
  · exact ⟨0x28, _, parens_of_lt hlt _, by decide, by decide⟩
  · cases e with
    | leaf l =>
      obtain ⟨a, t, ht, ha⟩ := Leaf.text_cons he
      obtain ⟨-, -, -, -, hcomplement, hnot, -⟩ := startsLeaf_facts ha
      exact ⟨a, t, (parens_of_le le_rfl _).trans ht, hcomplement, hnot⟩
    | unary op e => exact absurd rfl hlevel
    | binary op l r => exact absurd (op.level_lt.trans (by decide : 7 < 8)) hlt
    | matching negated l p => exact absurd (by decide : 2 < 8) hlt

theorem levelReads_primary (he : e.WellFormed prefixes) (hlevel : e.level ≠ 7) (h : LevelReads prefixes 8 e) :
    LevelReads prefixes 7 e := by
  intro m r hm hr
  rw [← parens_succ hlevel] at hm ⊢
  obtain ⟨hright, hwrong⟩ := h m r hm (hr.mono (by omega))
  obtain ⟨hskip, hs⟩ := Expr.front he 8 r
  obtain ⟨a, t, ht, hcomplement, hnot⟩ := Expr.operand_cons he hlevel
  have hrun : levelParser prefixes m 7 (parens e.level 8 e.text ++ r) =
      levelParser prefixes m 8 (parens e.level 8 e.text ++ r) := by
    refine unaryLoop_primary hs ?_ ?_
    · rw [hskip, ht]
      exact if_neg fun h => hcomplement ((toLower_eq_sign (by decide)).1 h.symm)
    · rw [hskip, ht]
      exact if_neg fun h => hnot ((toLower_eq_sign (by decide)).1 h.symm)
  rw [hrun]
  refine ⟨hright, fun hc es s hes => ?_⟩
  rcases hwrong hc es s hes with hap | ⟨hk, -⟩
  · exact Or.inl hap
  · omega

theorem levelReads_unary {op : UnaryOperator} (he : e.WellFormed prefixes) (h : LevelReads prefixes 7 e) :
    LevelReads prefixes 7 (.unary op e) := by
  intro m r hm hr
  rw [parens_of_le (show 7 ≤ (Expr.unary op e).level from le_rfl)] at hm ⊢
  have hlen : (parens e.level 7 e.text).length ≤ m := by
    unfold Expr.text at hm
    rw [List.length_append] at hm
    omega
  obtain ⟨hright, hwrong⟩ := h m r hlen hr
  have hrun : levelParser prefixes m 7 ((Expr.unary op e).text ++ r) =
      (levelParser prefixes m 7 (parens e.level 7 e.text ++ r)).map fun u => (u.1 ++ [op.text], u.2) := by
    rw [Expr.text, List.append_assoc]
    exact unaryExpression_operator op (Expr.front he 7 r).1
  rw [hrun]
  refine ⟨fun hc => ?_, fun hc es s hes => ?_⟩
  · obtain ⟨s, hpost, hs, hle⟩ := hright hc
    exact ⟨s, by rw [hpost]; rfl, hs, hle⟩
  · obtain ⟨⟨es', s'⟩, hes', heq⟩ := Option.map_eq_some_iff.1 hes
    cases heq
    rcases hwrong hc es' s' hes' with hap | ⟨hk, -⟩
    · exact Or.inl (hap.mono (List.prefix_append es' _) (List.prefix_append _ _))
    · omega

/-! ## Operators between operands -/

/-- What is behind the left operand. -/
def rightSide (op : Operator) (r : Expr) (s : Bytes) : Bytes :=
  0x20 :: (op.text ++ 0x20 :: (parens r.level (op.level + 1) r.text ++ s))

theorem text_binary (op : Operator) (l r : Expr) (s : Bytes) :
    (Expr.binary op l r).text ++ s = parens l.level op.level l.text ++ rightSide op r s := by
  rw [Expr.text, rightSide, List.append_assoc, List.cons_append, List.append_assoc, List.cons_append]

theorem follows_rightSide {k : ℕ} {op : Operator} (hop : op.level < k) {r : Expr} (hr : r.WellFormed prefixes) {s : Bytes}
    (hs : 0x0a ∉ s) : Follows k (rightSide op r s) := by
  refine follows_operator op hop ?_
  rw [List.mem_append, not_or]
  exact ⟨fun h => Expr.oneLine hr ((mem_parens (by decide) (by decide) _ _ _).1 h), hs⟩

theorem slash_rightSide (op : Operator) (r : Expr) (s : Bytes) :
    (0x2f ∈ rightSide op r s) = (0x2f ∈ op.text ∨ 0x2f ∈ r.text ∨ 0x2f ∈ s) := by
  have hparens := mem_parens (c := 0x2f) (by decide) (by decide) r.level (op.level + 1) r.text
  simp [rightSide, hparens]

/-- The loop reads the right operand. -/
theorem infixLoop_rightSide {op : Operator} {r : Expr} (hr : r.WellFormed prefixes) {m n : ℕ} {s t : Bytes}
    (hs : skipWhite s = skipWhite (rightSide op r t)) (hn : s.length ≤ n) (es : List Bytes) :
    ∃ n', (parens r.level (op.level + 1) r.text ++ t).length ≤ n' ∧
      infixLoop (infixesAt prefixes m op.level) n es s =
        (levelParser prefixes m (op.level + 1) (parens r.level (op.level + 1) r.text ++ t)).bind fun u =>
          infixLoop (infixesAt prefixes m op.level) n' (es ++ (u.1 ++ [op.text])) u.2 := by
  rw [rightSide, skipWhite_operator] at hs
  have hlen := length_skipWhite s
  rw [hs, List.length_append, List.length_cons] at hlen
  obtain ⟨n, rfl⟩ : ∃ n', n = n' + 1 := ⟨n - 1, by omega⟩
  have hne : op.text ≠ [] := by cases op <;> exact List.cons_ne_nil _ _
  have hpos := List.length_pos_iff.2 hne
  refine ⟨n, by omega, ?_⟩
  rw [infixLoop_goes (findInfix_operator prefixes m op hs), (Expr.front hr _ t).1]
  rfl

theorem length_text_binary (op : Operator) (l r : Expr) :
    (parens l.level op.level l.text).length + (parens r.level (op.level + 1) r.text).length ≤
      (Expr.binary op l r).text.length := by
  rw [Expr.text, List.length_append, List.length_cons, List.length_append, List.length_cons]
  omega

theorem loopReads_binary {op : Operator} {l r : Expr} (hop : IsLoop op.level) (hr : r.WellFormed prefixes)
    (ihl : LoopReads prefixes op.level l) (ihr : LevelReads prefixes (op.level + 1) r) :
    LoopReads prefixes op.level (.binary op l r) := by
  intro m s hm hs
  have hplace : parens (Expr.binary op l r).level op.level (Expr.binary op l r).text = (Expr.binary op l r).text :=
    parens_of_le le_rfl _
  rw [hplace] at hm ⊢
  have hlen := length_text_binary op l r
  obtain ⟨hleft, hleft'⟩ := ihl m (rightSide op r s) (by omega) (follows_rightSide (Nat.lt_succ_self _) hr hs.oneLine)
  obtain ⟨hright, hright'⟩ := ihr m s (by omega) hs
  rw [slash_rightSide] at hleft hleft'
  rw [text_binary]
  constructor
  · rintro ⟨-, hcl, hcr⟩
    obtain ⟨n, t, hn, ht, -, hrun⟩ := hleft hcl
    obtain ⟨z, hz, hskip, hle⟩ := hright hcr
    obtain ⟨n', hn', hloop⟩ := infixLoop_rightSide (m := m) hr ht hn (l.postOrder prefixes)
    rw [List.length_append] at hn'
    exact ⟨n', z, by omega, hskip, hle, by rw [hrun, hloop, hz]; rfl⟩
  · intro hc es z hes
    by_cases hcl : l.Compiles prefixes (0x2f ∈ op.text ∨ 0x2f ∈ r.text ∨ 0x2f ∈ s)
    · have hcr : ¬ r.Compiles prefixes (0x2f ∈ s) := fun hcr => hc ⟨fun h => absurd h hop.2, hcl, hcr⟩
      obtain ⟨n, t, hn, ht, -, hrun⟩ := hleft hcl
      obtain ⟨n', -, hloop⟩ := infixLoop_rightSide (m := m) hr ht hn (l.postOrder prefixes)
      rw [hrun, hloop] at hes
      obtain ⟨⟨es', z'⟩, hes', hrest⟩ := Option.bind_eq_some_iff.1 hes
      have hpre := infixLoop_extends hrest
      have hpost : l.postOrder prefixes ++ r.postOrder prefixes <+: (Expr.binary op l r).postOrder prefixes :=
        ⟨[op.text], List.append_assoc _ _ _⟩
      left
      rcases hright' hcr es' z' hes' with hap | ⟨-, hstuck⟩
      · refine (hap.append_left (l.postOrder prefixes)).mono (List.IsPrefix.trans ⟨[op.text], ?_⟩ hpre) hpost
        exact List.append_assoc _ _ _
      · exact ((hstuck.apart op).append_left (l.postOrder prefixes)).mono hpre hpost
    · exact (hleft' hcl).mono (List.prefix_append _ _) es z hes

theorem loopReads_matching (negated : Bool) {l : Expr} {p : Pattern} (hp : 0x0a ∉ p.inside)
    (ihl : LoopReads prefixes 2 l) : LoopReads prefixes 2 (.matching negated l p) := by
  intro m s hm hs
  have hplace : parens (Expr.matching negated l p).level 2 (Expr.matching negated l p).text =
      (Expr.matching negated l p).text := parens_of_le le_rfl _
  rw [hplace] at hm ⊢
  have htext : (Expr.matching negated l p).text ++ s =
      parens l.level 2 l.text ++ 0x20 :: (matchText negated ++ 0x20 :: (p.text ++ s)) := by
    rw [Expr.text, List.append_assoc, List.cons_append, List.append_assoc, List.cons_append]
  have hlen : (parens l.level 2 l.text).length ≤ m := by
    rw [Expr.text, List.length_append] at hm
    omega
  have hline : 0x0a ∉ p.text ++ s := by
    rw [List.mem_append, not_or]
    exact ⟨Pattern.oneLine hp, hs.oneLine⟩
  obtain ⟨hleft, hleft'⟩ := ihl m _ hlen (follows_match negated (by decide) hline)
  have hslash : (0x2f ∈ (0x20 : UInt8) :: (matchText negated ++ 0x20 :: (p.text ++ s))) = True := by
    simp [Pattern.text]
  rw [hslash] at hleft hleft'
  rw [htext]
  have hgoes : ∀ {n : ℕ} {t : Bytes}, skipWhite t = skipWhite (0x20 :: (matchText negated ++ 0x20 :: (p.text ++ s))) →
      t.length ≤ n → ∃ n', s.length ≤ n' ∧ infixLoop (infixesAt prefixes m 2) n (l.postOrder prefixes) t =
        (patternLiteral (p.text ++ s)).bind fun u =>
          infixLoop (infixesAt prefixes m 2) n' (l.postOrder prefixes ++ (u.1 ++ [matchText negated])) u.2 := by
    intro n t ht hn
    rw [skipWhite_match] at ht
    have hlen := length_skipWhite t
    rw [ht, List.length_append, List.length_cons, List.length_append] at hlen
    obtain ⟨n, rfl⟩ : ∃ n', n = n' + 1 := ⟨n - 1, by omega⟩
    refine ⟨n, by omega, ?_⟩
    have hskip : skipWhite (p.text ++ s) = p.text ++ s := by
      unfold Pattern.text
      cases p.withM <;> rfl
    rw [infixLoop_goes (findInfix_match prefixes m negated ht), hskip]
  constructor
  · rintro ⟨hno, hcl⟩
    obtain ⟨n, t, hn, ht, -, hrun⟩ := hleft hcl
    obtain ⟨n', hn', hloop⟩ := hgoes ht hn
    exact ⟨n', s, hn', rfl, le_rfl, by rw [hrun, hloop, patternLiteral_of_noSlash hp hs.ends hs.oneLine hno]; rfl⟩
  · intro hc es z hes
    by_cases hcl : l.Compiles prefixes True
    · have hslash : 0x2f ∈ s := by
        by_contra hno
        exact hc ⟨hno, hcl⟩
      obtain ⟨n, t, hn, ht, -, hrun⟩ := hleft hcl
      obtain ⟨n', -, hloop⟩ := hgoes ht hn
      obtain ⟨y, r, hpattern, hy⟩ := patternLiteral_of_slash hp hs.oneLine hslash
      rw [hrun, hloop, hpattern] at hes
      exact Or.inl (((apart_cons hy [matchText negated] [matchText negated]).append_left _).mono (infixLoop_extends hes)
        List.prefix_rfl)
    · exact (hleft' hcl).mono (List.prefix_append _ _) es z hes

/-! ## Comparisons by size -/

theorem levelParser_comparison {op : Operator} (hop : op.level = 4) {r : Expr} (hr : r.WellFormed prefixes) {m : ℕ}
    {x s t : Bytes} {es : List Bytes} (hx : levelParser prefixes m 5 x = some (es, s))
    (hs : skipWhite s = skipWhite (rightSide op r t)) : levelParser prefixes m 4 x =
      (levelParser prefixes m 5 (parens r.level 5 r.text ++ t)).map fun v => (es ++ (v.1 ++ [op.text]), v.2) := by
  rw [rightSide, skipWhite_operator] at hs
  have hfind := findInfix_operator prefixes m op hs
  rw [hop, (Expr.front hr 5 t).1] at hfind
  rw [levelParser_relational, hx, Option.bind_some, hfind]
  rfl

theorem comparisonReads_binary {op : Operator} {l r : Expr} (hop : op.level = 4) (hr : r.WellFormed prefixes)
    (ihl : l.level ≠ 4 → LevelReads prefixes 5 l) (ihl' : l.level = 4 → ComparisonReads prefixes l)
    (ihr : LevelReads prefixes 5 r) : ComparisonReads prefixes (.binary op l r) := by
  intro m s hm hs
  have hlen := length_text_binary op l r
  have hfollows : Follows 5 (rightSide op r s) := follows_rightSide (hop ▸ Nat.lt_succ_self 4) hr hs.oneLine
  have hpost : (Expr.binary op l r).postOrder prefixes =
      l.postOrder prefixes ++ (r.postOrder prefixes ++ [op.text]) := rfl
  rw [hop] at hlen
  rw [text_binary, hop]
  by_cases hlevel : l.level = 4
  · -- the left side is all that is read
    rw [parens_of_le hlevel.ge] at hlen ⊢
    obtain ⟨hleft, hleft'⟩ := ihl' hlevel m (rightSide op r s) (by omega) hfollows
    rw [slash_rightSide] at hleft hleft'
    refine ⟨fun hc => absurd hlevel (hc.1 hop), fun _ es z hes => ?_⟩
    by_cases hcl : l.Compiles prefixes (0x2f ∈ op.text ∨ 0x2f ∈ r.text ∨ 0x2f ∈ s)
    · obtain ⟨t, hrun, ht, -⟩ := hleft hcl
      obtain ⟨rfl, rfl⟩ := Prod.mk.inj (Option.some.inj (hrun.symm.trans hes))
      obtain ⟨y, ys, hy, hne⟩ := Expr.postOrder_cons hr
      refine Or.inr ⟨le_rfl, ⟨op, _, hop, ht.trans (skipWhite_operator op _)⟩, y, ys ++ [op.text], ?_, hne⟩
      rw [hpost, hy, List.cons_append]
    · exact (hleft' hcl).mono (List.prefix_append _ _) es z hes
  · rw [← parens_succ hlevel] at hlen ⊢
    have hlen' : (parens l.level 5 l.text).length + (parens r.level 5 r.text).length ≤ m := hlen.trans hm
    obtain ⟨hleft, hleft'⟩ := ihl hlevel m (rightSide op r s) (by omega) hfollows
    obtain ⟨hright, hright'⟩ := ihr m s (by omega) hs
    rw [slash_rightSide] at hleft hleft'
    refine ⟨?_, fun hc es z hes => ?_⟩
    · rintro ⟨-, hcl, hcr⟩
      obtain ⟨t, hrun, ht, -⟩ := hleft hcl
      obtain ⟨z, hz, hskip, hle⟩ := hright hcr
      exact ⟨z, by rw [levelParser_comparison hop hr hrun ht, hz]; rfl, hskip, hle⟩
    · left
      by_cases hcl : l.Compiles prefixes (0x2f ∈ op.text ∨ 0x2f ∈ r.text ∨ 0x2f ∈ s)
      · have hcr : ¬ r.Compiles prefixes (0x2f ∈ s) := fun hcr => hc ⟨fun _ => hlevel, hcl, hcr⟩
        obtain ⟨t, hrun, ht, -⟩ := hleft hcl
        rw [levelParser_comparison hop hr hrun ht] at hes
        obtain ⟨⟨es', z'⟩, hes', heq⟩ := Option.map_eq_some_iff.1 hes
        cases heq
        rcases hright' hcr es' z' hes' with hap | ⟨hk, -⟩
        · exact (hap.mono (List.prefix_append es' _) (List.prefix_append _ _)).append_left _
        · omega
      · rw [levelParser_relational] at hes
        obtain ⟨⟨es', z'⟩, hes', hrest⟩ := Option.bind_eq_some_iff.1 hes
        obtain ⟨⟨o, t⟩, -, hrest⟩ := Option.bind_eq_some_iff.1 hrest
        rcases hleft' hcl es' z' hes' with hap | ⟨hk, -⟩
        · refine hap.mono ?_ (List.prefix_append _ _)
          cases o with
          | none =>
            cases hrest
            exact List.prefix_rfl
          | some o =>
            obtain ⟨v, -, heq⟩ := Option.map_eq_some_iff.1 hrest
            cases heq
            exact List.prefix_append es' _
        · omega

/-! ## All levels -/

/-- From the function for the next level. -/
theorem levelReads_step (he : e.WellFormed prefixes) {k : ℕ} (hk : k < 8) (hlevel : e.level ≠ k)
    (h : LevelReads prefixes (k + 1) e) : LevelReads prefixes k e := by
  by_cases h4 : k = 4
  · subst h4
    exact levelReads_relational hlevel h
  · by_cases h7 : k = 7
    · subst h7
      exact levelReads_primary he hlevel h
    · have hloop : IsLoop k := ⟨by omega, h4⟩
      exact levelReads_of_loopReads hloop (loopReads_of_levelReads hloop hlevel h)

theorem levelReads_down (he : e.WellFormed prefixes) {j k : ℕ} (hjk : j ≤ k) (hk : k ≤ 8)
    (hlevel : e.level < j ∨ k ≤ e.level) (h : LevelReads prefixes k e) : LevelReads prefixes j e := by
  induction hjk using Nat.decreasingInduction with
  | self => exact h
  | of_succ j hj ih =>
    exact levelReads_step he (by omega) (by omega) (ih (by omega))

/-- An expression that the function for its own level reads is read in all places. -/
theorem levelReads_all (he : e.WellFormed prefixes) (h : LevelReads prefixes e.level e) {k : ℕ} (hk : k ≤ 8) :
    LevelReads prefixes k e := by
  by_cases hle : k ≤ e.level
  · exact levelReads_down he hle e.level_le (Or.inr le_rfl) h
  · have hzero := levelReads_down he (Nat.zero_le _) e.level_le (Or.inr le_rfl) h
    exact levelReads_down he hk le_rfl (Or.inl (by omega)) (levelReads_parens he (by omega) hzero)

/-- The expression is read in all places; where it is a left operand its level goes on. -/
structure IsRead (prefixes : Prefixes) (e : Expr) : Prop where
  levels : ∀ k ≤ 8, LevelReads prefixes k e
  loops : ∀ k, IsLoop k → LoopReads prefixes k e
  comparison : e.level = 4 → ComparisonReads prefixes e

theorem IsRead.of_levelReads (he : e.WellFormed prefixes) (h : LevelReads prefixes e.level e)
    (hloop : IsLoop e.level → LoopReads prefixes e.level e) (hcomparison : e.level = 4 → ComparisonReads prefixes e) :
    IsRead prefixes e where
  levels := fun k hk => levelReads_all he h hk
  loops := fun k hk => by
    by_cases hlevel : e.level = k
    · subst hlevel
      exact hloop hk
    · exact loopReads_of_levelReads hk hlevel (levelReads_all he h (hk.1.trans (by decide)))
  comparison := hcomparison

theorem Expr.isRead (he : e.WellFormed prefixes) : IsRead prefixes e := by
  induction e with
  | leaf l =>
    exact .of_levelReads he (levelReads_leaf he) (fun h => absurd h.1 (by decide : ¬ 8 < 7))
      fun h => absurd h (by decide : ¬ 8 = 4)
  | unary op e ih =>
    exact .of_levelReads he (levelReads_unary he ((ih he).levels 7 (by decide)))
      (fun h => absurd h.1 (by decide : ¬ 7 < 7)) fun h => absurd h (by decide : ¬ 7 = 4)
  | binary op l r ihl ihr =>
    have hl := ihl he.1
    have hr := ihr he.2
    have hlt := op.level_lt
    by_cases hop : op.level = 4
    · have hreads := comparisonReads_binary hop he.2 (fun _ => hl.levels 5 (by decide)) hl.comparison
        (hr.levels 5 (by decide))
      refine .of_levelReads he ?_ (fun h => absurd hop h.2) fun _ => hreads
      show LevelReads prefixes op.level _
      rw [hop]
      exact levelReads_of_comparisonReads hop hreads
    · have hloop : IsLoop op.level := ⟨hlt, hop⟩
      have hreads := loopReads_binary hloop he.2 (hl.loops _ hloop) (hr.levels _ (by omega))
      exact .of_levelReads he (levelReads_of_loopReads hloop hreads) (fun _ => hreads) fun h => absurd h hop
  | matching negated l p ihl =>
    have hloop : IsLoop 2 := ⟨by decide, by decide⟩
    have hreads := loopReads_matching negated he.2 ((ihl he.1).loops 2 hloop)
    exact .of_levelReads he (levelReads_of_loopReads hloop hreads) (fun _ => hreads)
      fun h => absurd h (by decide : ¬ 2 = 4)

/-! ## Constraints -/

theorem constraintLoop_extends {n : ℕ} {es es' : List Bytes} {s s' : Bytes}
    (h : constraintLoop prefixes n es s = some (es', s')) : es <+: es' := by
  induction n generalizing es s with
  | zero =>
    cases h
    exact List.prefix_rfl
  | succ n ih =>
    obtain ⟨t, -, h⟩ := Option.bind_eq_some_iff.1 h
    obtain ⟨u, -, h⟩ := Option.bind_eq_some_iff.1 h
    split at h
    · obtain ⟨v, -, h⟩ := Option.bind_eq_some_iff.1 h
      exact (List.prefix_append es _).trans (ih h)
    · cases h
      exact List.prefix_rfl

theorem constraintLoop_ends {n : ℕ} {es : List Bytes} {s : Bytes} (hs : NoComment s)
    (hcomma : stripLiteral (ascii ",") (skipWhite s) = none) (hand : stripLiteral (ascii "and") (skipWhite s) = none) :
    constraintLoop prefixes n es s = some (es, s) := by
  cases n with
  | zero => rfl
  | succ n =>
    rw [constraintLoop, matchAndEat_none hs hcomma, Option.bind_some]
    simp only [Bool.false_eq_true, if_false]
    rw [matchAndEat_none hs hand]
    rfl

theorem differ_and (op : Operator) :
    differ (ascii ",") (op.text ++ [0x20]) = true ∧ differ (ascii "and") (op.text ++ [0x20]) = true := by
  cases op <;> decide

theorem expression_follows (prefixes : Prefixes) (he : e.WellFormed prefixes) {r : Bytes} (hr : Follows 0 r) :
    Settles (e.Compiles prefixes (0x2f ∈ r)) 0 (e.postOrder prefixes) r (expression prefixes (e.text ++ r)) := by
  have hplace : parens e.level 0 e.text = e.text := parens_of_le (Nat.zero_le _) _
  have h := (Expr.isRead he).levels 0 (by decide) (e.text ++ r).length r (by rw [hplace, List.length_append]; omega) hr
  rw [hplace] at h
  exact h

theorem expression_text (prefixes : Prefixes) (he : e.WellFormed prefixes) :
    Settles (e.Compiles prefixes False) 0 (e.postOrder prefixes) [] (expression prefixes e.text) := by
  have hslash : ((0x2f : UInt8) ∈ ([] : Bytes)) = False := by simp
  have h := expression_follows prefixes he (follows_nil 0)
  rw [List.append_nil, hslash] at h
  exact h

/-- Nothing is left but white space. -/
theorem constraint_of_compiles (he : e.WellFormed prefixes) (hc : e.Compiles prefixes False) :
    ∃ s, skipWhite s = [] ∧ constraint prefixes e.text = some (e.postOrder prefixes, s) := by
  obtain ⟨s, hrun, hs, -⟩ := (expression_text prefixes he).right hc
  have hends : Behind 0 (skipWhite s) := hs ▸ .nil
  refine ⟨s, hs, ?_⟩
  unfold constraint
  rw [hrun, Option.bind_some]
  exact constraintLoop_ends hends.noComment (by rw [hs]; rfl) (by rw [hs]; rfl)

theorem constraint_of_not_compiles (he : e.WellFormed prefixes) (hc : ¬ e.Compiles prefixes False) (s : Bytes) :
    constraint prefixes e.text ≠ some (e.postOrder prefixes, s) := by
  intro hrun
  obtain ⟨⟨es, t⟩, ht, hloop⟩ := Option.bind_eq_some_iff.1 hrun
  rcases (expression_text prefixes he).wrong hc es t ht with hap | ⟨-, hstuck⟩
  · exact (hap.mono (constraintLoop_extends hloop) List.prefix_rfl).ne rfl
  · obtain ⟨op, u, -, hu⟩ := hstuck.operator
    obtain ⟨hcomma, hand⟩ := differ_and op
    have hends : constraintLoop prefixes (t.length + 1) es t = some (es, t) := constraintLoop_ends (op.noComment hu)
      (by rw [hu, append_space]; exact stripLiteral_of_differ hcomma u)
      (by rw [hu, append_space]; exact stripLiteral_of_differ hand u)
    obtain ⟨rfl, -⟩ := Prod.mk.inj (Option.some.inj (hends.symm.trans hloop))
    exact hstuck.ne rfl

end

theorem Leaf.wellFormed_letter {prefixes : Prefixes} {c : UInt8} (hc : isVarChar c = true) :
    (Leaf.var false [c]).WellFormed prefixes :=
  ⟨List.cons_ne_nil c [], fun _ ha => List.mem_singleton.1 ha ▸ hc⟩

/-- `?a + 1 < ?b && ?c =~ /x/i` -/
def sumBelow : Expr :=
  .binary .and
    (.binary .less (.binary .plus (.leaf (.var false (ascii "a"))) (.leaf (.number ⟨ascii "1", none, none, none⟩)))
      (.leaf (.var false (ascii "b"))))
    (.matching false (.leaf (.var false (ascii "c"))) ⟨false, ascii "x", true, false, false, false⟩)

/-- `?x =~ /a/ && ?y =~ /b/` -/
def twoPatterns : Expr :=
  .binary .and (.matching false (.leaf (.var false (ascii "x"))) ⟨false, ascii "a", false, false, false, false⟩)
    (.matching false (.leaf (.var false (ascii "y"))) ⟨false, ascii "b", false, false, false, false⟩)

end RdfStore.Rdql
