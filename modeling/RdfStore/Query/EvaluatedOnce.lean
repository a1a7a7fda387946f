import RdfStore.Query.Evaluation
import RdfStore.Rdql.Leaves

/-!
# Constraints, each item read once

`eval` on any list, with the functions that are called in it: what is read once
more makes no difference as long as it is pushed as it is.

    `eval` is true ↔ the constraints are met               (eval_isTrue)
    a written expression has its operands                  (complete_postOrder)
-/

namespace RdfStore.Query

open ByteMem

variable {P : Perl}

/-! ## Each item once -/

/-- What becomes of the items; behind `&` is the name of a function. -/
def readings (binding : Binding P) : Bool → List Bytes → List (Reading P)
  | _, [] => []
  | true, s :: ss => readText binding true s :: readings binding false ss
  | false, s :: ss =>
    if s = ascii "&" then readings binding true ss else readText binding false s :: readings binding false ss

/-- The work stack behind the items, when an operator leaves there what it does not pop; nothing for an error. -/
def once : List (Reading P) → List (Value P) → Option (List (Value P))
  | [], work => some work
  | .push v :: rs, work => once rs (work ++ [v])
  | .apply o :: rs, work => (o.apply work).bind fun t => once rs (t.2 ++ [t.1])
  | .fail _ :: _, _ => none

/-- What is on the work stack behind an operator, and is read once more, is pushed as it is. -/
def ReadAlike : List (Reading P) → List (Value P) → Prop
  | [], _ => True
  | .push v :: rs, work => ReadAlike rs (work ++ [v])
  | .apply o :: rs, work => ∀ t ∈ o.apply work, (∀ u ∈ t.2 ++ [t.1], u.Inert) ∧ ReadAlike rs (t.2 ++ [t.1])
  | .fail _ :: _, _ => True

/-- Behind each `&` is the name of a function. -/
def Called : Bool → List Bytes → Prop
  | isFunction, [] => isFunction = false
  | true, s :: ss => isTrueText s = true ∧ Called false ss
  | false, s :: ss => Called (s = ascii "&") ss

def Operator.arity : Operator P → ℕ
  | .unary _ => 1
  | .binary _ => 2

/-- The operators find their operands, of which there are `d` in front, and something is left. -/
def HasOperands : List (Reading P) → ℕ → Prop
  | [], d => 0 < d
  | .push _ :: rs, d => HasOperands rs (d + 1)
  | .apply o :: rs, d => o.arity ≤ d ∧ HasOperands rs (d - o.arity + 1)
  | .fail _ :: _, _ => True

/-- An expression on its own. -/
structure Complete (binding : Binding P) (p : List Bytes) : Prop where
  called : Called false p
  operands : HasOperands (readings binding false p) 0

/-- One value is left, and its content is true. -/
def isMet (binding : Binding P) (p : List Bytes) : Bool :=
  match once (readings binding false p) [] with
  | some [v] => (getContent v).isTrue
  | _ => false

/-! ## The loop reads each item once -/

section

variable (binding : Binding P)

/-- The items, with the `&` that is in front. -/
def itemsOf (isFunction : Bool) (p : List Bytes) : List Bytes := if isFunction then ascii "&" :: p else p

theorem nextItem_function {s : Bytes} (h : isTrueText s = true) (stack : List (Value P)) :
    nextItem binding (.text (ascii "&") :: .text s :: stack) = .read (readText binding true s) stack := by
  simp [nextItem, Value.isTrue, h, readItem]

theorem Operator.length_apply {o : Operator P} {work : List (Value P)} {t : Value P × List (Value P)}
    (h : o.apply work = some t) : (t.2 ++ [t.1]).length = work.length - o.arity + 1 := by
  cases o with
  | unary run =>
    obtain ⟨v, -, rfl⟩ := Option.map_eq_some_iff.1 h
    rw [List.length_append, List.length_dropLast]
    rfl
  | binary run =>
    obtain ⟨v, -, rfl⟩ := Option.map_eq_some_iff.1 h
    rw [List.length_append, List.length_dropLast, List.length_dropLast, Nat.sub_sub]
    rfl

/-- The loop goes on with the work stack, or has ended with an error. -/
def GoesOn (n : ℕ) (rest : List (Value P)) : Option (List (Value P)) → Option (Ended P) → Prop
  | some work, e => e = evalLoop binding n rest work
  | none, e => ∃ f, e = some (.failed f)

/-- In the rounds that `l` items may take, the work stack becomes what is there behind them. -/
def Reaches (l : ℕ) (items rest work : List (Value P)) (behind : Option (List (Value P))) : Prop :=
  ∃ k ≤ l * (work.length + l + 2), ∀ n, GoesOn binding n rest behind (evalLoop binding (k + n) items work)

variable {binding}

/-- One item more. -/
theorem Reaches.cons {r : Reading P} {rs : List (Reading P)} {l : ℕ} {items items' rest work : List (Value P)}
    (hnext : nextItem binding items = .read r items') (hread : ReadAlike (r :: rs) work)
    (h : ∀ work', ReadAlike rs work' → Reaches binding l items' rest work' (once rs work')) :
    Reaches binding (l + 1) items rest work (once (r :: rs) work) := by
  cases r with
  | push v =>
    obtain ⟨k, hk, hrun⟩ := h (work ++ [v]) hread
    refine ⟨k + 1, ?_, fun n => ?_⟩
    · rw [List.length_append, List.length_singleton] at hk
      nlinarith
    · rw [Nat.add_right_comm, evalLoop_push binding hnext]
      exact hrun n
  | fail e =>
    refine ⟨1, by nlinarith, fun n => ⟨e, ?_⟩⟩
    rw [Nat.add_comm, evalLoop]
    simp only [hnext]
  | apply o =>
    cases happly : o.apply work with
    | none =>
      refine ⟨1, by nlinarith, fun n => ?_⟩
      rw [once, happly]
      refine ⟨.died, ?_⟩
      rw [Nat.add_comm, evalLoop]
      simp only [hnext, happly]
    | some t =>
      obtain ⟨v, work'⟩ := t
      obtain ⟨hinert, hread⟩ := hread (v, work') happly
      obtain ⟨k, hk, hrun⟩ := h (work' ++ [v]) hread
      have hlen : (work' ++ [v]).length = work.length - o.arity + 1 := Operator.length_apply happly
      refine ⟨work'.length + 2 + k, ?_, fun n => ?_⟩
      · rw [List.length_append, List.length_singleton] at hk hlen
        have hle : work'.length ≤ work.length := by omega
        nlinarith
      · rw [once, happly, Option.bind_some, Nat.add_assoc _ k n, evalLoop_apply binding hnext happly hinert]
        exact hrun n

theorem Reaches.mono {l l' : ℕ} (hl : l ≤ l') {items rest work : List (Value P)} {behind : Option (List (Value P))}
    (h : Reaches binding l items rest work behind) : Reaches binding l' items rest work behind := by
  obtain ⟨k, hk, hrun⟩ := h
  exact ⟨k, hk.trans (Nat.mul_le_mul hl (by omega)), hrun⟩

/-- The loop reads a list item by item. -/
theorem reaches_readings (isFunction : Bool) (p : List Bytes) (hcalled : Called isFunction p) (stack work : List (Value P))
    (hread : ReadAlike (readings binding isFunction p) work) :
    Reaches binding (itemsOf isFunction p).length ((itemsOf isFunction p).map .text ++ stack) stack work
      (once (readings binding isFunction p) work) := by
  induction p generalizing isFunction work with
  | nil =>
    cases isFunction with
    | true => cases hcalled
    | false => exact ⟨0, Nat.zero_le _, fun n => by rw [Nat.zero_add]; rfl⟩
  | cons s p ih =>
    cases isFunction with
    | true =>
      -- the name of a function, with `&` in front
      refine Reaches.mono (Nat.le_succ _) (Reaches.cons (nextItem_function binding hcalled.1 _) hread fun work' hwork => ?_)
      exact ih false hcalled.2 work' hwork
    | false =>
      by_cases hs : s = ascii "&"
      · rw [Called, decide_eq_true hs] at hcalled
        rw [readings, if_pos hs] at hread ⊢
        rw [show itemsOf false (s :: p) = itemsOf true p by rw [hs]; rfl]
        exact ih true hcalled work hread
      · rw [Called, decide_eq_false hs] at hcalled
        rw [readings, if_neg hs] at hread ⊢
        exact Reaches.cons (nextItem_text binding hs _) hread fun work' hwork => ih false hcalled work' hwork

/-- The loop ends with what is on the work stack behind the items, or with an error. -/
theorem evalEnded_once {p : List Bytes} (hcalled : Called false p) (hread : ReadAlike (readings binding false p) []) :
    match once (readings binding false p) [] with
    | some work => evalEnded binding p = some (.left work)
    | none => ∃ e, evalEnded binding p = some (.failed e) := by
  obtain ⟨k, hk, hrun⟩ := reaches_readings false p hcalled [] [] hread
  have hrun := hrun 1
  have hround : k + 1 ≤ rounds p.length := by
    rw [List.length_nil, Nat.zero_add] at hk
    change k ≤ p.length * (p.length + 2) at hk
    unfold rounds
    nlinarith
  rw [List.append_nil] at hrun
  cases honce : once (readings binding false p) [] with
  | some work =>
    rw [honce] at hrun
    refine evalLoop_le binding hround (hrun.trans ?_)
    simp [evalLoop, nextItem]
  | none =>
    rw [honce] at hrun
    obtain ⟨e, he⟩ := hrun
    exact ⟨e, evalLoop_le binding hround he⟩

/-- **`eval` answers a true value for the constraints that are met**, if nothing that is read once more is
taken for something else. -/
theorem eval_isTrue (hzero : P.equal (P.ofNat 0) (P.ofNat 0) = true) {p : List Bytes} (hcalled : Called false p)
    (hread : ReadAlike (readings binding false p) []) : (eval binding p).isTrue = isMet binding p := by
  have hfalse : (getContent (Value.ofBool (P := P) false)).isTrue = false := by
    simp [Value.ofBool, getContent, Value.isTrue, hzero]
  have hended := evalEnded_once hcalled hread
  unfold eval isMet
  cases honce : once (readings binding false p) [] with
  | none =>
    rw [honce] at hended
    obtain ⟨e, he⟩ := hended
    rw [he]
    exact hfalse
  | some work =>
    rw [honce] at hended
    rw [hended]
    match work with
    | [] => rfl
    | [v] => rfl
    | u :: v :: work => exact hfalse

end

/-! ## Written expressions -/

/-- No name of a function is an operand. -/
def NamesNoFunction (prefixes : Rdql.Prefixes) : Rdql.Expr → Prop
  | .leaf (.qname name localName) => Rdql.namespaceOf prefixes name ++ localName ∉ keys
  | .leaf _ => True
  | .unary _ e => NamesNoFunction prefixes e
  | .binary _ l r => NamesNoFunction prefixes l ∧ NamesNoFunction prefixes r
  | .matching _ l _ => NamesNoFunction prefixes l

/-- What is no operator. -/
def IsOperand (binding : Binding P) (s : Bytes) : Prop := s ≠ ascii "&" ∧ ∀ o, readText binding false s ≠ .apply o

section

variable {prefixes : Rdql.Prefixes} {binding : Binding P}

/-- The names in the dictionary begin with no full stop and no quotation mark, and end with no `>`. -/
theorem keys_signs : ∀ key ∈ keys, ∀ a ∈ key.head?,
    a ≠ 0x2e ∧ Rdql.isQuote a = false ∧ (a = 0x25 → key = [0x25]) ∧ (a = 0x3c → key.getLast? ≠ some 0x3e) := by
  have hall : ∀ key ∈ keys, (key.head?.all fun a => a ≠ 0x2e ∧ Rdql.isQuote a = false ∧ (a = 0x25 → key = [0x25]) ∧
      (a = 0x3c → key.getLast? ≠ some 0x3e)) = true := by decide +kernel
  intro key hkey a ha
  exact of_decide_eq_true ((Option.all_eq_true _ _).1 (hall key hkey) a ha)

theorem keys_words : ∀ key ∈ keys, key ≠ ascii "true" ∧ key ≠ ascii "false" ∧ key ≠ ascii "null" := by
  decide +kernel

theorem isOperand_of_not_mem {s : Bytes} (hamp : s ≠ ascii "&") (hkey : stripQuotes s = none → (stripAngles s).getD s ∉ keys) :
    IsOperand binding s := by
  refine ⟨hamp, fun o h => ?_⟩
  have hlookup : (if (stripQuotes s).isNone then lookup P ((stripQuotes s).getD ((stripAngles s).getD s)) else none) =
      none := by
    cases hquotes : stripQuotes s with
    | none => exact lookup_eq_none_iff.2 (hkey hquotes)
    | some t => rfl
  unfold readText at h
  simp only [hlookup, Bool.false_eq_true, if_false] at h
  split at h
  · split at h <;> cases h
  · cases h

/-- A text that begins like no operator. -/
theorem isOperand_of_head {s : Bytes} (hamp : s ≠ ascii "&") (hangle : ∀ a ∈ s.head?, a ≠ 0x3c) (hkey : s ∉ keys) :
    IsOperand binding s := by
  refine isOperand_of_not_mem hamp fun _ => ?_
  have hangles : stripAngles s = none := stripMarks_eq_none fun a ha => decide_eq_false (hangle a ha)
  rwa [hangles]

theorem stripAngles_name (u : Bytes) : stripAngles (0x3c :: (u ++ [0x3e])) = if 0x0a ∈ u then none else some u := by
  by_cases hline : 0x0a ∈ u <;> simp [stripAngles, stripMarks, List.getLast?_cons, hline]

theorem isOperand_entry {l : Rdql.Leaf} (hl : l.WellFormed prefixes) (hn : NamesNoFunction prefixes (.leaf l)) :
    IsOperand binding (l.entry prefixes) := by
  have hhead : ∀ {s : Bytes} {a : UInt8}, a ∈ s.head? → a ≠ 0x26 → s ≠ ascii "&" := by
    rintro s a ha hne rfl
    exact hne (Option.some.inj ha).symm
  cases l with
  | var dollar name =>
    refine isOperand_of_head (hhead rfl (by decide)) (fun a ha => ?_) fun hkey => (keys_head _ hkey 0x3f rfl).2.1 rfl
    rw [← Option.some.inj ha]
    decide
  | qname name localName =>
    refine isOperand_of_not_mem (hhead rfl (by decide)) fun _ => ?_
    rw [Rdql.Leaf.entry, stripAngles_name]
    split
    · intro hkey
      refine (keys_signs _ hkey 0x3c rfl).2.2.2 rfl ?_
      rw [Option.getD_none, ← List.cons_append]
      exact List.getLast?_concat
    · exact hn
  | number x =>
    obtain ⟨a, t, ht⟩ := List.exists_cons_of_ne_nil (Rdql.Number.text_ne_nil hl)
    have ha : a ∈ x.text.head? := by rw [ht]; rfl
    have hdigit := Rdql.Number.head hl a ha
    refine isOperand_of_head (hhead ha ?_) (fun b hb => ?_) fun hkey => ?_
    · rintro rfl
      revert hdigit
      decide
    · rintro rfl
      have hdigit := Rdql.Number.head hl _ hb
      revert hdigit
      decide
    · rcases hdigit with hdigit | rfl
      · rw [(keys_head _ hkey a ha).1] at hdigit
        cases hdigit
      · exact (keys_signs _ hkey 0x2e ha).1 rfl
  | hex capital digits =>
    refine isOperand_of_head (hhead rfl (by decide)) (fun a ha => ?_) fun hkey => ?_
    · rw [← Option.some.inj ha]
      decide
    · exact absurd (keys_head _ hkey 0x30 rfl).1 (by decide)
  | string x =>
    obtain ⟨a, t, ht⟩ := List.exists_cons_of_ne_nil x.text_ne_nil
    have ha : a ∈ x.text.head? := by rw [ht]; rfl
    have hmark := Rdql.QuotedString.head hl a ha
    refine isOperand_of_head (hhead ha ?_) (fun b hb => ?_) fun hkey => ?_
    · rintro rfl
      revert hmark
      decide
    · rintro rfl
      have hmark := Rdql.QuotedString.head hl _ hb
      revert hmark
      decide
    · rcases hmark with hmark | rfl
      · rw [(keys_signs _ hkey a ha).2.1] at hmark
        cases hmark
      · have hlen := congrArg List.length ((keys_signs _ hkey 0x25 ha).2.2.1 rfl)
        simp [Rdql.Leaf.entry, Rdql.Leaf.text, Rdql.QuotedString.text] at hlen
        omega
  | yes =>
    refine isOperand_of_head (hhead rfl (by decide)) (fun a ha => ?_) fun hkey => (keys_words _ hkey).1 rfl
    rw [← Option.some.inj ha]
    decide
  | no =>
    refine isOperand_of_head (hhead rfl (by decide)) (fun a ha => ?_) fun hkey => (keys_words _ hkey).2.1 rfl
    rw [← Option.some.inj ha]
    decide
  | null =>
    refine isOperand_of_head (hhead rfl (by decide)) (fun a ha => ?_) fun hkey => (keys_words _ hkey).2.2 rfl
    rw [← Option.some.inj ha]
    decide

theorem isOperand_pattern (p : Rdql.Pattern) : IsOperand binding p.text := by
  obtain ⟨hne, hslash, hhead⟩ := pattern_text_ne (p := p)
  obtain ⟨a, t, ht⟩ := List.exists_cons_of_ne_nil hne
  have ha : a ∈ p.text.head? := by rw [ht]; rfl
  refine isOperand_of_head ?_ (fun b hb => ?_) fun hkey => ?_
  · intro hamp
    rw [hamp] at hhead
    exact absurd (hhead 0x26 rfl) (by decide)
  · rcases hhead b hb with rfl | rfl <;> decide
  · rcases hhead a ha with rfl | rfl
    · exact hslash ((keys_head _ hkey 0x2f ha).2.2.2 rfl)
    · exact (keys_head _ hkey 0x6d ha).2.2.1 rfl

/-- The operators between operands are all in the dictionary. -/
theorem readText_operator (binding : Binding P) (op : Rdql.Operator) :
    op.text ≠ ascii "&" ∧ ∃ run, readText binding false op.text = .apply (.binary run) := by
  cases op <;> exact ⟨by decide, _, rfl⟩

theorem readText_match (binding : Binding P) (negated : Bool) :
    Rdql.matchText negated ≠ ascii "&" ∧ ∃ run, readText binding false (Rdql.matchText negated) = .apply (.binary run) := by
  cases negated <;> exact ⟨by decide, _, rfl⟩

/-- `~` and `!` are in no dictionary. -/
theorem isOperand_unary (op : Rdql.UnaryOperator) : IsOperand binding op.text := by
  cases op with
  | complement => exact ⟨by decide, fun o h => by cases h⟩
  | not => exact ⟨by decide, fun o h => by cases h⟩

theorem hasOperands_operand {s : Bytes} (hs : IsOperand binding s) {q : List Bytes} {d : ℕ}
    (h : HasOperands (readings binding false q) (d + 1)) : HasOperands (readings binding false (s :: q)) d := by
  rw [readings, if_neg hs.1]
  cases hread : readText binding false s with
  | push v => exact h
  | apply o => exact absurd hread (hs.2 o)
  | fail e => trivial

theorem hasOperands_binary {s : Bytes} (hs : s ≠ ascii "&") {run : Value P → Value P → Option (Value P)}
    (hread : readText binding false s = .apply (.binary run)) {q : List Bytes} {d : ℕ}
    (h : HasOperands (readings binding false q) (d + 1)) : HasOperands (readings binding false (s :: q)) (d + 2) := by
  rw [readings, if_neg hs, hread]
  exact ⟨Nat.le_add_left 2 d, h⟩

/-- An expression leaves a value at least. -/
theorem hasOperands_postOrder {e : Rdql.Expr} (he : e.WellFormed prefixes) (hn : NamesNoFunction prefixes e)
    {q : List Bytes} {d : ℕ} (h : ∀ k, HasOperands (readings binding false q) (d + k + 1)) :
    HasOperands (readings binding false (e.postOrder prefixes ++ q)) d := by
  induction e generalizing q d with
  | leaf l => exact hasOperands_operand (isOperand_entry he hn) (h 0)
  | unary op e ih =>
    rw [Rdql.Expr.postOrder, List.append_assoc]
    refine ih he hn fun k => ?_
    exact hasOperands_operand (isOperand_unary op) (by rw [Nat.add_assoc d k 1]; exact h (k + 1))
  | binary op l r ihl ihr =>
    obtain ⟨hamp, run, hread⟩ := readText_operator binding op
    rw [Rdql.Expr.postOrder, List.append_assoc, List.append_assoc]
    refine ihl he.1 hn.1 fun k => ihr he.2 hn.2 fun j => ?_
    rw [show d + k + 1 + j + 1 = d + k + j + 2 by omega]
    exact hasOperands_binary hamp hread (by rw [Nat.add_assoc d k j]; exact h (k + j))
  | matching negated l p ihl =>
    obtain ⟨hamp, run, hread⟩ := readText_match binding negated
    rw [Rdql.Expr.postOrder, List.append_assoc]
    refine ihl he.1 hn fun k => hasOperands_operand (isOperand_pattern p) ?_
    exact hasOperands_binary hamp hread (h k)

theorem called_postOrder {e : Rdql.Expr} (he : e.WellFormed prefixes) (hn : NamesNoFunction prefixes e) {q : List Bytes}
    (hq : Called false q) : Called false (e.postOrder prefixes ++ q) := by
  have hcons : ∀ {s : Bytes} {q : List Bytes}, s ≠ ascii "&" → Called false q → Called false (s :: q) := by
    intro s q hs hq
    rw [Called, decide_eq_false hs]
    exact hq
  induction e generalizing q with
  | leaf l =>
    have hentry : IsOperand (P := wholePerl) (fun _ => none) (l.entry prefixes) := isOperand_entry he hn
    exact hcons hentry.1 hq
  | unary op e ih =>
    rw [Rdql.Expr.postOrder, List.append_assoc]
    exact ih he hn (hcons (by cases op <;> decide) hq)
  | binary op l r ihl ihr =>
    rw [Rdql.Expr.postOrder, List.append_assoc, List.append_assoc]
    exact ihl he.1 hn.1 (ihr he.2 hn.2 (hcons (by cases op <;> decide) hq))
  | matching negated l p ihl =>
    rw [Rdql.Expr.postOrder, List.append_assoc]
    have hpattern : IsOperand (P := wholePerl) (fun _ => none) p.text := isOperand_pattern p
    exact ihl he.1 hn (hcons hpattern.1 (hcons (by cases negated <;> decide) hq))

/-- Written expressions are complete. -/
theorem complete_postOrder {e : Rdql.Expr} (he : e.WellFormed prefixes) (hn : NamesNoFunction prefixes e) :
    Complete binding (e.postOrder prefixes) where
  called := by
    have h := called_postOrder (q := []) he hn rfl
    rwa [List.append_nil] at h
  operands := by
    have h : HasOperands (readings binding false (e.postOrder prefixes ++ [])) 0 :=
      hasOperands_postOrder he hn fun k => Nat.succ_pos _
    rwa [List.append_nil] at h

end

end RdfStore.Query
