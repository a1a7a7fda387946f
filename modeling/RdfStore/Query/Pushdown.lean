import RdfStore.Query.Comparisons
import RdfStore.Query.Constrained
import RdfStore.Query.JoinRows

/-!
# Comparisons pushed down and evaluated

A comparison of a variable with a whole number is written as a pattern, which
goes into the search as a range, or as a constraint, which `eval` is asked about
each result.

    the same rows, or not          (rows_same_iff)

The search for a range is exact, as far as a bound is handed over to it.
-/

namespace RdfStore.Query

open ByteMem Streams

/-! ## Comparisons of numbers -/

/-- How a comparison is written in a constraint. -/
def Comparator.sign : Comparator → Bytes
  | .less => ascii "<"
  | .lessEqual => ascii "<="
  | .equal => ascii "=="
  | .notEqual => ascii "!="
  | .greaterEqual => ascii ">="
  | .greater => ascii ">"

/-- On Perl's numbers, as in the dictionary. -/
def Comparator.on (P : Perl) : Comparator → P.Number → P.Number → Bool
  | .less => P.less
  | .lessEqual => fun b a => P.less b a || P.equal b a
  | .equal => P.equal
  | .notEqual => fun b a => !P.equal b a
  | .greaterEqual => greaterOrEqual
  | .greater => fun b a => P.less a b

/-- On whole numbers. -/
def Comparator.holds : Comparator → ℤ → ℤ → Bool
  | .less => fun b a => b < a
  | .lessEqual => fun b a => b ≤ a
  | .equal => fun b a => b = a
  | .notEqual => fun b a => b ≠ a
  | .greaterEqual => fun b a => a ≤ b
  | .greater => fun b a => a < b

theorem Comparator.lookup_sign (P : Perl) (c : Comparator) : lookup P c.sign = some (comparison (c.on P)) := by
  cases c <;> rfl

theorem Comparator.holds_flip (c : Comparator) (b a : ℤ) : c.flip.holds a b = c.holds b a := by
  cases c <;> simp [Comparator.flip, Comparator.holds, eq_comm]

/-- The first operand is the variable, or, on the other side, the constant. -/
def onSide {α β : Type} (mirrored : Bool) (f : α → α → β) (x k : α) : β := if mirrored then f k x else f x k

/-! ## Whole numbers in queries -/

/-- Digits, with a sign or without. -/
def IsInteger (s : Bytes) : Prop :=
  ∃ sign digits, (sign = [] ∨ sign = [0x2b] ∨ sign = [0x2d]) ∧ digits ≠ [] ∧
    (∀ a ∈ digits, NTriples.isDigit a = true) ∧ s = sign ++ digits

/-- A literal with the datatype of whole numbers. -/
def IsIntegerLiteral (n : Node) : Prop :=
  ∃ l, n = .literal l ∧ l.dtBytes = ascii "http://www.w3.org/2001/XMLSchema#integer" ∧ IsInteger (Node.toString n)

/-- A whole number in a query: digits, or in quotation marks. -/
inductive Constant
  | number (digits : Bytes)
  | string (mark : UInt8) (content : Bytes)

def Constant.content : Constant → Bytes
  | .number digits => digits
  | .string _ content => content

def Constant.leaf : Constant → Leaf
  | .number digits => .integer digits
  | .string mark content => .string mark content

/-- Zero has no sign. -/
def Constant.WellFormed : Constant → Prop
  | .number digits => digits ≠ [] ∧ ∀ a ∈ digits, NTriples.isDigit a = true
  | .string mark content => Rdql.isQuote mark = true ∧ IsInteger content ∧
    (wholeNumber content = 0 → ∀ a ∈ content.head?, NTriples.isDigit a = true)

def Constant.value (k : Constant) : ℤ := wholeNumber k.content

/-- What Perl makes of 0 and 1, and of a whole number that is not 0. -/
structure Perl.Counts (P : Perl) : Prop where
  one : P.equal (P.ofNat 1) (P.ofNat 0) = false
  zero : P.equal (P.ofNat 0) (P.ofNat 0) = true
  int : ∀ s, IsInteger s → wholeNumber s ≠ 0 → P.equal (P.int (P.number s)) (P.ofNat 0) = false

/-! ## The two ways to write a comparison -/

/-- `?x op:numeric-… k`, or the other way round. -/
def comparisonPattern (ops : Bytes) (c : Comparator) (mirrored : Bool) (x : Bytes) (k : Constant) : Comparison :=
  onSide mirrored (fun left right => ⟨left, 0x3c :: (ops ++ ascii "numeric-" ++ c.name ++ [0x3e]), right⟩) x k.leaf.entry

/-- `?x < k`, or the other way round. -/
def comparisonTree (c : Comparator) (mirrored : Bool) (name : Bytes) (k : Constant) : Tree :=
  onSide mirrored (Tree.binary c.sign) (.leaf (.var name)) (.leaf k.leaf)

/-- A store with a search for ranges that finds exactly what is in the range. -/
structure RangeStore extends Store where
  reading : RangeReading
  findRange : SearchQuery → RangesQuery → List Fact
  findRange_nodup : ∀ q r, (findRange q r).Nodup
  mem_findRange : ∀ q r m, r.meaning reading = some m →
    ∀ f, f ∈ findRange q r ↔ f ∈ facts ∧ q.fits hasWords f = true ∧ m f.object

/-- Whole numbers are read as such, and compared as such. -/
structure RangeReading.Exact (R : RangeReading) : Prop where
  reads : ∀ s, IsInteger s → R.reads 0 s = true
  test : ∀ c s n, IsInteger s → IsIntegerLiteral n →
    (R.test c s n ↔ c.holds (wholeNumber (Node.toString n)) (wholeNumber s) = true)

/-- The search for a triple pattern, with the comparisons about its variables. -/
def RangeStore.searchRange (store : RangeStore) (prefixes : Bytes → Option Bytes) (ops : Bytes)
    (comparisons : List Comparison) (parts : List Bytes) : List Fact :=
  match combineRanges ⟨[], none⟩ (collectRanges ops parts comparisons) with
  | some r => store.findRange (prepareTriplepattern prefixes parts) r
  | none => []

/-! ## The evaluated comparison -/

theorem IsInteger.ne_nil {s : Bytes} (h : IsInteger s) : s ≠ [] := by
  obtain ⟨sign, digits, -, hne, -, rfl⟩ := h
  simp [hne]

theorem Constant.WellFormed.isInteger {k : Constant} (h : k.WellFormed) : IsInteger k.content := by
  cases k with
  | number digits => exact ⟨[], digits, Or.inl rfl, h.1, h.2, rfl⟩
  | string mark content => exact h.2.1

theorem isWhite_of_isDigit {a : UInt8} (h : NTriples.isDigit a = true) : NTriples.isWhite a = false := by
  simp only [NTriples.isDigit, Bool.and_eq_true, decide_eq_true_eq, UInt8.le_iff_toNat_le, UInt8.reduceToNat] at h
  simp only [NTriples.isWhite, Bool.or_eq_false_iff, decide_eq_false_iff_not, ← UInt8.toNat_inj, UInt8.reduceToNat]
  omega

theorem beginsWithNumber_of_head {s : Bytes} (hne : s ≠ []) (h : ∀ a ∈ s.head?, NTriples.isDigit a = true) :
    beginsWithNumber s = true := by
  obtain ⟨a, t, rfl⟩ := List.exists_cons_of_ne_nil hne
  have ha : NTriples.isDigit a = true := h a rfl
  rw [beginsWithNumber, List.dropWhile_cons_of_neg (by simp [isWhite_of_isDigit ha])]
  simp [ha]

/-- The constant is a number unless it is the text `0`. -/
theorem isNumeric_constant {P : Perl} (hP : P.Counts) {k : Constant} (hk : k.WellFormed) :
    isNumeric (P := P) (.text k.content) = some (decide (k.content ≠ ascii "0")) := by
  have hne : k.content ≠ [] := hk.isInteger.ne_nil
  by_cases hzero : k.content = ascii "0"
  · simp [isNumeric, Value.isTrue, isTrueText, hzero]
  · have hlooks : looksNumeric (P := P) (.text k.content) = true := by
      by_cases hvalue : wholeNumber k.content = 0
      · have hhead : ∀ a ∈ k.content.head?, NTriples.isDigit a = true := by
          cases k with
          | number digits => exact fun a ha => hk.2 a (List.mem_of_head? ha)
          | string mark content => exact hk.2.2 hvalue
        simp [looksNumeric, Value.string, beginsWithNumber_of_head hne hhead]
      · simp [looksNumeric, Value.numeric, Value.string, hP.int _ hk.isInteger hvalue]
    simp [isNumeric, Value.isTrue, isTrueText, hne, hzero, hlooks]

theorem isNumeric_literal {P : Perl} {n : Node} (h : IsIntegerLiteral n) : isNumeric (P := P) (.node n) = some true := by
  obtain ⟨l, rfl, htype, -⟩ := h
  have htrue : isTrueText l.dtBytes = true := by
    rw [htype]
    decide
  have hknown : l.dtBytes ∈ numericTypes := by
    rw [htype]
    exact List.mem_cons_self
  simp [isNumeric, htrue, hknown]

theorem Value.isTrue_ofBool {P : Perl} (hP : P.Counts) (b : Bool) : (getContent (Value.ofBool b : Value P)).isTrue = b := by
  cases b <;> simp [Value.ofBool, getContent, Value.isTrue, hP.one, hP.zero]

/-- Nothing in a whole number looks like a variable, or is a line feed. -/
theorem IsInteger.plain {s : Bytes} (h : IsInteger s) : 0x0a ∉ s ∧ namesVariable s = false := by
  obtain ⟨sign, digits, hsign, -, hdigits, rfl⟩ := h
  have hall : ∀ a ∈ sign ++ digits, a ≠ 0x0a ∧ a ≠ 0x3f ∧ a ≠ 0x24 := by
    intro a ha
    rcases List.mem_append.1 ha with ha | ha
    · rcases hsign with rfl | rfl | rfl
      · cases ha
      · cases List.mem_singleton.1 ha
        decide
      · cases List.mem_singleton.1 ha
        decide
    · have hdigit := hdigits a ha
      simp only [NTriples.isDigit, Bool.and_eq_true, decide_eq_true_eq, UInt8.le_iff_toNat_le, UInt8.reduceToNat] at hdigit
      simp only [ne_eq, ← UInt8.toNat_inj, UInt8.reduceToNat]
      omega
  exact ⟨fun hlf => (hall _ hlf).1 rfl, namesVariable_eq_false fun a ha => (hall a ha).2⟩

theorem Constant.leaf_value {P : Perl} (binding : Binding P) (k : Constant) :
    k.leaf.value binding = .text k.content := by
  cases k <;> rfl

theorem Constant.leaf_wellFormed {P : Perl} (binding : Binding P) {k : Constant} (hk : k.WellFormed) :
    k.leaf.WellFormed binding ∧ k.leaf.Readable := by
  cases k with
  | number digits => exact ⟨hk, trivial⟩
  | string mark content => exact ⟨hk.1, hk.2.1.plain⟩

/-- What `eval` computes of the comparison. -/
theorem comparisonTree_value {P : Perl} (hP : P.Counts) {binding : Binding P} {name : Bytes} {n : Node}
    (hn : binding (0x3f :: name) = some (.node n)) (hliteral : IsIntegerLiteral n) (c : Comparator) (mirrored : Bool)
    {k : Constant} (hk : k.WellFormed) :
    (comparisonTree c mirrored name k).value binding = some (.ofBool (decide (k.content ≠ ascii "0") &&
      onSide mirrored (c.on P) (P.number (Node.toString n)) (P.number k.content))) := by
  have hvar : Leaf.value binding (.var name) = .node n := by simp [Leaf.value, hn]
  cases mirrored with
  | false =>
    simp only [comparisonTree, onSide, Bool.false_eq_true, if_false, Tree.value, c.lookup_sign, comparison, hvar,
      k.leaf_value, Option.bind_some, isNumeric_constant hP hk, isNumeric_literal hliteral, Option.map_some]
    by_cases hzero : k.content = ascii "0" <;> simp [hzero, Value.numeric, Value.string]
  | true =>
    simp only [comparisonTree, onSide, if_true, Tree.value, c.lookup_sign, comparison, hvar, k.leaf_value,
      Option.bind_some, isNumeric_constant hP hk, isNumeric_literal hliteral, Option.map_some]
    simp [Value.numeric, Value.string]

/-- A result passes the constraint when the constant is not `0` and the numbers compare. -/
theorem passes_comparison {P : Perl} (hP : P.Counts) {r : Result} {name : Bytes}
    (hname : name ≠ [] ∧ ∀ a ∈ name, Rdql.isVarChar a = true) {n : Node} (hn : r.lookup (0x3f :: name) = some (some n))
    (hliteral : IsIntegerLiteral n) (c : Comparator) (mirrored : Bool) {k : Constant} (hk : k.WellFormed) :
    passes P (comparisonTree c mirrored name k).postOrder r = (decide (k.content ≠ ascii "0") &&
      onSide mirrored (c.on P) (P.number (Node.toString n)) (P.number k.content)) := by
  have hbinding : (r.binding : Binding P) (0x3f :: name) = some (.node n) := by simp [Result.binding, hn]
  have hvalue := comparisonTree_value hP hbinding hliteral c mirrored hk
  obtain ⟨hleaf, hreadable⟩ := Constant.leaf_wellFormed (P := P) r.binding hk
  have hw : (comparisonTree c mirrored name k).WellFormed (r.binding : Binding P) := by
    have hvar : Leaf.WellFormed (r.binding : Binding P) (.var name) := ⟨hname.1, hname.2, n, hbinding⟩
    have hkey : ∃ run, lookup P c.sign = some (.binary run) := ⟨_, c.lookup_sign P⟩
    cases mirrored with
    | false => exact ⟨hvar, hleaf, hkey⟩
    | true => exact ⟨hleaf, hvar, hkey⟩
  have hr : (comparisonTree c mirrored name k).Readable (r.binding : Binding P) := by
    cases mirrored with
    | false =>
      refine ⟨trivial, hreadable, fun hleaf => (by cases hleaf), fun v hv => ?_⟩
      rw [show Tree.binary c.sign (.leaf (.var name)) (.leaf k.leaf) = comparisonTree c false name k from rfl, hvalue,
        Option.mem_some_iff] at hv
      exact hv ▸ trivial
    | true =>
      refine ⟨hreadable, trivial, fun hleaf => (by cases hleaf), fun v hv => ?_⟩
      rw [show Tree.binary c.sign (.leaf k.leaf) (.leaf (.var name)) = comparisonTree c true name k from rfl, hvalue,
        Option.mem_some_iff] at hv
      exact hv ▸ trivial
  rw [passes, eval, evalEnded_postOrder _ _ hw hr, hvalue]
  exact Value.isTrue_ofBool hP _

/-! ## The pushed comparison -/

theorem isVariable_name {name : Bytes} (h : name ≠ []) : isVariable (0x3f :: name) = true := by
  simp [isVariable, h]

theorem Constant.entry_ne_variable {k : Constant} (hk : k.WellFormed) : isVariable k.leaf.entry = false := by
  have hhead : ∀ a ∈ k.leaf.entry.head?, a ≠ 0x3f ∧ a ≠ 0x24 := by
    cases k with
    | number digits =>
      intro a ha
      have hdigit := hk.2 a (List.mem_of_head? ha)
      simp only [NTriples.isDigit, Bool.and_eq_true, decide_eq_true_eq, UInt8.le_iff_toNat_le, UInt8.reduceToNat] at hdigit
      simp only [ne_eq, ← UInt8.toNat_inj, UInt8.reduceToNat]
      omega
    | string mark content =>
      intro a ha
      cases Option.some.inj ha
      have hmark := hk.1
      simp only [Rdql.isQuote, Bool.or_eq_true, decide_eq_true_eq] at hmark
      rcases hmark with rfl | rfl <;> decide
  cases hentry : k.leaf.entry with
  | nil => rfl
  | cons a t =>
    rw [hentry] at hhead
    simp [isVariable, hhead a rfl]

/-- A whole number without its quotation marks. -/
theorem Constant.constantText_entry {k : Constant} (hk : k.WellFormed) : constantText k.leaf.entry = k.content := by
  have hnone : ∀ s : Bytes, (∀ a ∈ s.head?, NTriples.isWhite a = false ∧ Rdql.isQuote a = false) → stripOpening s = none := by
    intro s hs
    cases s with
    | nil => rfl
    | cons a t =>
      obtain ⟨hwhite, hquote⟩ := hs a rfl
      rw [stripOpening, List.dropWhile_cons_of_neg (by simp [hwhite])]
      simp [hquote]
  have hquoted : ∀ (mark : UInt8) (t : Bytes), Rdql.isQuote mark = true → stripOpening (mark :: t) = some t := by
    intro mark t hmark
    have hwhite : NTriples.isWhite mark = false := by
      simp only [Rdql.isQuote, Bool.or_eq_true, decide_eq_true_eq] at hmark
      rcases hmark with rfl | rfl <;> decide
    rw [stripOpening, List.dropWhile_cons_of_neg (by simp [hwhite])]
    simp [hmark]
  cases k with
  | number digits =>
    have hdigit : ∀ a ∈ digits, NTriples.isWhite a = false ∧ Rdql.isQuote a = false := by
      intro a ha
      refine ⟨isWhite_of_isDigit (hk.2 a ha), ?_⟩
      have hdigit := hk.2 a ha
      simp only [NTriples.isDigit, Bool.and_eq_true, decide_eq_true_eq, UInt8.le_iff_toNat_le, UInt8.reduceToNat] at hdigit
      simp only [Rdql.isQuote, Bool.or_eq_false_iff, decide_eq_false_iff_not, ← UInt8.toNat_inj, UInt8.reduceToNat]
      omega
    have hclosing : stripClosing digits = none := by
      rw [stripClosing, hnone _ fun a ha => hdigit a (List.mem_reverse.1 (List.mem_of_head? ha)), Option.map_none]
    simp only [constantText, Constant.leaf, Leaf.entry, Constant.content,
      hnone _ fun a ha => hdigit a (List.mem_of_head? ha), Option.getD_none, hclosing]
  | string mark content =>
    have hclosing : stripClosing (content ++ [mark]) = some content := by
      rw [stripClosing, List.reverse_append, List.reverse_singleton, List.singleton_append, hquoted _ _ hk.1,
        Option.map_some, List.reverse_reverse]
    simp only [constantText, Constant.leaf, Leaf.entry, Constant.content, hquoted _ _ hk.1, Option.getD_some, hclosing]

/-- The operators of one kind are told apart by their names. -/
theorem lookup_operators (ops : Bytes) (c : Comparator) :
    (operators ops).lookup (0x3c :: (ops ++ ascii "numeric-" ++ c.name ++ [0x3e])) = some c := by
  have hkey : ∀ s t : Bytes, ((0x3c :: (ops ++ s)) == (0x3c :: (ops ++ t))) = (s == t) := by
    intro s t
    by_cases hst : s = t
    · rw [hst, beq_self_eq_true, beq_self_eq_true]
    · rw [beq_false_of_ne hst, beq_false_of_ne]
      simpa using hst
  simp only [List.append_assoc, operators, List.flatMap_cons, List.flatMap_nil, List.map_cons, List.map_nil,
    List.cons_append, List.nil_append, List.lookup_cons, hkey]
  cases c <;> rfl

/-- The comparison, as seen from the variable. -/
theorem sided_comparison (ops : Bytes) {parts : List Bytes} {name : Bytes} (hname : name ≠ [])
    (hx : (0x3f :: name : Bytes) ∈ parts) (c : Comparator) (mirrored : Bool) {k : Constant} (hk : k.WellFormed) :
    sided ops parts (comparisonPattern ops c mirrored (0x3f :: name) k) =
      some (0x3f :: name, some (if mirrored then c.flip else c, k.content)) := by
  have hvar : (0x3f :: name : Bytes) ∈ variablesOf parts := List.mem_filter.2 ⟨hx, isVariable_name hname⟩
  have hconstant : k.leaf.entry ∉ variablesOf parts := by
    intro hmem
    have := (List.mem_filter.1 hmem).2
    rw [Constant.entry_ne_variable hk] at this
    cases this
  cases mirrored with
  | false =>
    simp only [comparisonPattern, onSide, Bool.false_eq_true, if_false, sided, if_pos hvar, lookup_operators,
      Option.map_some, Constant.constantText_entry hk]
  | true =>
    simp only [comparisonPattern, onSide, if_true, sided, if_neg hconstant, if_pos hvar, lookup_operators,
      Option.map_some, Constant.constantText_entry hk]

/-- What is asked of the object: nothing when the constant is the text `0`. -/
def pushedTest (R : RangeReading) (c : Comparator) (mirrored : Bool) (k : Constant) (n : Node) : Prop :=
  k.content ≠ ascii "0" → R.test (if mirrored then c.flip else c) k.content n

variable {store : RangeStore} {prefixes : Bytes → Option Bytes} {ops : Bytes} {name : Bytes} {c : Comparator}
  {mirrored : Bool} {k : Constant}

/-- The search finds the statements with an object that passes the comparison. -/
theorem mem_searchRange (hexact : store.reading.Exact) (hname : name ≠ []) {parts : List Bytes}
    (hx : (0x3f :: name : Bytes) ∈ parts) (hk : k.WellFormed) (f : Fact) :
    f ∈ store.searchRange prefixes ops [comparisonPattern ops c mirrored (0x3f :: name) k] parts ↔
      f ∈ store.facts ∧ (prepareTriplepattern prefixes parts).fits store.hasWords f = true ∧
        pushedTest store.reading c mirrored k f.object := by
  have hsided := sided_comparison ops hname hx c mirrored hk
  have hcollected : collectRanges ops parts [comparisonPattern ops c mirrored (0x3f :: name) k] =
      [(0x3f :: name, [(if mirrored then c.flip else c, k.content)])] := by
    simp [collectRanges, hsided, pushRange]
  have hcombined : combineRanges ⟨[], none⟩ [((0x3f :: name : Bytes), [(if mirrored then c.flip else c, k.content)])] =
      some ⟨[k.content], some (.one (if mirrored then c.flip else c))⟩ := rfl
  have hne : k.content ≠ [] := hk.isInteger.ne_nil
  unfold RangeStore.searchRange
  rw [hcollected, hcombined]
  refine store.mem_findRange _ _ _ ?_ f
  by_cases hzero : k.content = ascii "0"
  · have hfalse : isTrueText k.content = false := by simp [isTrueText, hzero]
    have hfilter : [k.content].filter isTrueText = [] := by simp [hfalse]
    have htest : pushedTest store.reading c mirrored k = fun _ => True := by
      funext n
      simp [pushedTest, hzero]
    simp only [RangesQuery.meaning, hfilter, htest]
  · have htrue : isTrueText k.content = true := by simp [isTrueText, hne, hzero]
    have hkind : store.reading.kind k.content = some 0 := by
      simp [RangeReading.kind, hexact.reads _ hk.isInteger]
    have hfilter : [k.content].filter isTrueText = [k.content] := by simp [htrue]
    have htest : pushedTest store.reading c mirrored k =
        store.reading.test (if mirrored then c.flip else c) k.content := by
      funext n
      simp [pushedTest, hzero]
    simp only [RangesQuery.meaning, hfilter, hkind, Option.bind_some, htest]

theorem searchRange_nodup (comparisons : List Comparison) (parts : List Bytes) :
    (store.searchRange prefixes ops comparisons parts).Nodup := by
  unfold RangeStore.searchRange
  split
  · exact store.findRange_nodup _ _
  · exact List.nodup_nil

/-! ## The bindings of one triple pattern -/

/-- Without bindings a triple pattern stays as it is, and a variable has its last position. -/
theorem substitute_nil (j : ℕ) (parts : List Bytes) :
    ∃ vars, substitute [] j parts = some (parts, vars) ∧ ∀ v, isVariable v = true →
      vars.lookup v = ((parts.zipIdx j).reverse.find? fun e => e.1 = v).map (·.2) := by
  induction parts generalizing j with
  | nil => exact ⟨[], rfl, fun _ _ => rfl⟩
  | cons s parts ih =>
    obtain ⟨vars, hvars, hlookup⟩ := ih (j + 1)
    have hcons : ∀ v, (((s :: parts).zipIdx j).reverse.find? fun e => e.1 = v).map (·.2) =
        (((parts.zipIdx (j + 1)).reverse.find? fun e => e.1 = v).map (·.2)).or (if s = v then some j else none) := by
      intro v
      rw [List.zipIdx_cons, List.reverse_cons, List.find?_append]
      cases (parts.zipIdx (j + 1)).reverse.find? fun e => decide (e.1 = v) <;> by_cases hs : s = v <;> simp [hs]
    by_cases hs : isVariable s = true
    · refine ⟨if s ∈ vars.map (·.1) then vars else (s, j) :: vars, ?_, fun v hv => ?_⟩
      · rw [substitute, hvars, Option.bind_some, if_pos hs]
        rfl
      · rw [hcons v, ← hlookup v hv]
        split
        · rename_i hmem
          by_cases hsv : s = v
          · subst hsv
            cases hnone : vars.lookup s with
            | none =>
              obtain ⟨p, hp, heq⟩ := List.mem_map.1 hmem
              exact absurd (List.lookup_eq_none_iff.1 hnone p hp) (by simp [heq])
            | some i => rfl
          · simp [hsv]
        · rename_i hmem
          by_cases hsv : s = v
          · subst hsv
            have hnone : vars.lookup s = none := by
              rw [List.lookup_eq_none_iff]
              intro p hp
              rw [bne_iff_ne]
              rintro rfl
              exact hmem (List.mem_map_of_mem hp)
            simp [hnone]
          · simp [hsv, List.lookup_cons, beq_false_of_ne (Ne.symm hsv)]
    · refine ⟨vars, ?_, fun v hv => ?_⟩
      · rw [substitute, hvars, Option.bind_some, if_neg hs]
      · rw [hcons v, ← hlookup v hv]
        have hsv : s ≠ v := by
          rintro rfl
          exact hs hv
        simp [hsv]

theorem onObject_mem {parts : List Bytes} {v : Bytes} (h : OnObject parts v) : v ∈ parts := by
  obtain ⟨e, he, -⟩ := Option.map_eq_some_iff.1 h
  have hmem := List.mem_reverse.1 (List.mem_of_find?_eq_some he)
  have htext := List.find?_some he
  rw [decide_eq_true_eq] at htext
  exact htext ▸ List.fst_mem_of_mem_zipIdx hmem

/-! ## The rows -/

/-- The query with the pattern and the one with the constraint have the same rows, whatever is selected. -/
def SameRows (P : Perl) (digest : Node → Digest) (store : RangeStore) (prefixes : Bytes → Option Bytes) (ops : Bytes)
    (t : TriplePattern) (name : Bytes) (c : Comparator) (mirrored : Bool) (k : Constant) : Prop :=
  ∀ q : Select, q.Plain → ∃ rows rows', rows.Perm rows' ∧
    Fetches P digest (eachOther (store.searchRange prefixes ops [comparisonPattern ops c mirrored (0x3f :: name) k])
      (optimizeLevel0 [t])) q (execute q .start) rows ∧
    ∃ n, ∀ loops ≥ n, Fetches P digest (eachConstrained P (store.search prefixes) (optimizeLevel0 [t])
      (comparisonTree c mirrored name k).postOrder loops) q (execute q .start) rows'

/-- The statements that fit the triple pattern. -/
def FitsPattern (store : Store) (prefixes : Bytes → Option Bytes) (t : TriplePattern) (f : Fact) : Prop :=
  f ∈ store.facts ∧ (prepareTriplepattern prefixes t.parts).fits store.hasWords f = true

/-- Whether the number of an object passes the evaluated comparison. -/
def evaluatedTest (P : Perl) (c : Comparator) (mirrored : Bool) (k : Constant) (n : Node) : Bool :=
  decide (k.content ≠ ascii "0") && onSide mirrored (c.on P) (P.number (Node.toString n)) (P.number k.content)

/-- What the two queries find: statements, by the two tests, and rows that are made of them alike. -/
theorem rows_found (ops : Bytes) (c : Comparator) (mirrored : Bool) {P : Perl} (hP : P.Counts) (digest : Node → Digest) (hexact : store.reading.Exact)
    {t : TriplePattern} (ht : t.optional = false) (hname : name ≠ [] ∧ ∀ a ∈ name, Rdql.isVarChar a = true)
    (hobject : OnObject t.parts (0x3f :: name))
    (hliterals : ∀ f, FitsPattern store.toStore prefixes t f → IsIntegerLiteral f.object) (hk : k.WellFormed) :
    ∃ (bind : Fact → Result) (pushed evaluated : List Fact),
      (∀ f, (bind f).lookup (0x3f :: name) = some (some f.object)) ∧ pushed.Nodup ∧ evaluated.Nodup ∧
      (∀ f, f ∈ pushed ↔ FitsPattern store.toStore prefixes t f ∧ pushedTest store.reading c mirrored k f.object) ∧
      (∀ f, f ∈ evaluated ↔ FitsPattern store.toStore prefixes t f ∧ evaluatedTest P c mirrored k f.object = true) ∧
      ∀ q : Select, q.Plain →
        Fetches P digest (eachOther (store.searchRange prefixes ops [comparisonPattern ops c mirrored (0x3f :: name) k])
          (optimizeLevel0 [t])) q (execute q .start) (pushed.map fun f => (bind f).row q.columns) ∧
        ∀ loops ≥ (store.search prefixes t.parts).length,
          Fetches P digest (eachConstrained P (store.search prefixes) (optimizeLevel0 [t])
            (comparisonTree c mirrored name k).postOrder loops) q (execute q .start)
            (evaluated.map fun f => (bind f).row q.columns) := by
  have hx : (0x3f :: name : Bytes) ∈ t.parts := onObject_mem hobject
  have horder : optimizeLevel0 [t] = [t] := optimizeLevel0_required (by simp [ht])
  have hstarts : Starts [t] [] := Or.inr ⟨t, rfl, _, hx, isVariable_name hname.1⟩
  obtain ⟨vars, hvars, hlookup⟩ := substitute_nil 0 t.parts
  have hanswers : ∀ search : List Bytes → List Fact,
      answers search [t] [] = (search t.parts).map fun f => bindFact vars f [] := by
    intro search
    rw [answers, hvars]
    simp only [ht, Bool.false_eq_true, false_and, if_false]
    rw [← List.flatMap_pure_eq_map]
    rfl
  have hbind : ∀ f, (bindFact vars f []).lookup (0x3f :: name) = some (some f.object) := by
    intro f
    rw [lookup_bindFact (substitute_fresh hvars), hlookup _ (isVariable_name hname.1), hobject]
    rfl
  have hfits : ∀ f, f ∈ store.search prefixes t.parts ↔ FitsPattern store.toStore prefixes t f := fun f => by
    rw [Store.search, (store.find_perm _).mem_iff, List.mem_filter, FitsPattern]
  have hnodup : (store.search prefixes t.parts).Nodup := by
    rw [Store.search, (store.find_perm _).nodup_iff]
    exact store.nodup.filter _
  refine ⟨fun f => bindFact vars f [], store.searchRange prefixes ops [comparisonPattern ops c mirrored (0x3f :: name) k] t.parts,
    (store.search prefixes t.parts).filter fun f => evaluatedTest P c mirrored k f.object, hbind,
    searchRange_nodup _ _, hnodup.filter _, fun f => ?_, fun f => ?_, fun q hq => ⟨?_, fun loops hloops => ?_⟩⟩
  · rw [mem_searchRange hexact hname.1 hx hk, FitsPattern, and_assoc]
  · rw [List.mem_filter, hfits]
  · rw [horder, ← Function.comp_def (Result.row q.columns), ← List.map_map, ← hanswers]
    exact fetches_plain P digest hq (matches_answers hstarts)
  · have hpasses : (answers (store.search prefixes) [t] []).filter (passes P (comparisonTree c mirrored name k).postOrder) =
        ((store.search prefixes t.parts).filter fun f => evaluatedTest P c mirrored k f.object).map
          fun f => bindFact vars f [] := by
      rw [hanswers, List.filter_map]
      congr 1
      refine List.filter_congr fun f hf => ?_
      exact passes_comparison hP hname (hbind f) (hliterals f ((hfits f).1 hf)) c mirrored hk
    have hne : (comparisonTree c mirrored name k).postOrder ≠ [] := by
      cases mirrored <;> simp [comparisonTree, onSide, Tree.postOrder]
    rw [horder, ← Function.comp_def (Result.row q.columns), ← List.map_map, ← hpasses]
    refine fetches_plain P digest hq (matches_constrained hstarts hne ?_)
    rw [hanswers, List.length_map]
    exact hloops

/-- The rows are the same only when the two tests agree on the objects, since the objects can be selected. -/
theorem SameRows.tests {P : Perl} (hP : P.Counts) {digest : Node → Digest} (hexact : store.reading.Exact)
    {t : TriplePattern} (ht : t.optional = false) (hname : name ≠ [] ∧ ∀ a ∈ name, Rdql.isVarChar a = true)
    (hobject : OnObject t.parts (0x3f :: name))
    (hliterals : ∀ f, FitsPattern store.toStore prefixes t f → IsIntegerLiteral f.object) (hk : k.WellFormed)
    (h : SameRows P digest store prefixes ops t name c mirrored k) {f : Fact} (hf : FitsPattern store.toStore prefixes t f) :
    pushedTest store.reading c mirrored k f.object ↔ evaluatedTest P c mirrored k f.object = true := by
  obtain ⟨bind, pushed, evaluated, hbind, -, -, hpushed, hevaluated, hfetches⟩ :=
    rows_found ops c mirrored hP digest hexact ht hname hobject hliterals hk
  have hplain : Select.Plain ⟨false, none, none, [], [0x3f :: name], by simp⟩ := ⟨rfl, rfl, rfl, rfl⟩
  obtain ⟨rows, rows', hperm, hrows, n, hrows'⟩ := h _ hplain
  obtain ⟨hfirst, hsecond⟩ := hfetches _ hplain
  have hbound := Nat.le_max_left n (store.search prefixes t.parts).length
  have hbound' := Nat.le_max_right n (store.search prefixes t.parts).length
  rw [hrows.unique hfirst, (hrows' _ hbound).unique (hsecond _ hbound')] at hperm
  have hrow : ∀ g, (bind g).row [0x3f :: name] = [some g.object] := fun g => by simp [Result.row, hbind]
  have hmem := hperm.mem_iff (a := [some f.object])
  simp only [hrow, List.mem_map, List.cons.injEq, and_true, Option.some.injEq, hpushed, hevaluated] at hmem
  constructor
  · intro htest
    obtain ⟨g, ⟨-, hg⟩, heq⟩ := hmem.1 ⟨f, ⟨hf, htest⟩, rfl⟩
    exact heq ▸ hg
  · intro htest
    obtain ⟨g, ⟨-, hg⟩, heq⟩ := hmem.2 ⟨f, ⟨hf, htest⟩, rfl⟩
    exact heq ▸ hg

theorem pushedTest_iff (hexact : store.reading.Exact) (hk : k.WellFormed) {n : Node} (hn : IsIntegerLiteral n) :
    pushedTest store.reading c mirrored k n ↔
      (k.content ≠ ascii "0" → onSide mirrored c.holds (wholeNumber (Node.toString n)) k.value = true) := by
  unfold pushedTest
  rw [hexact.test _ _ _ hk.isInteger hn]
  cases mirrored with
  | false => rfl
  | true =>
    rw [if_pos rfl, c.holds_flip]
    rfl

/-- **The rows are the same, pushed down or evaluated,** when the constant is not written `0` and Perl's numbers compare
with it as the whole numbers do, or when no statement fits the triple pattern. -/
theorem rows_same_iff {P : Perl} (hP : P.Counts) (digest : Node → Digest) (store : RangeStore)
    (hexact : store.reading.Exact) (prefixes : Bytes → Option Bytes) (ops : Bytes) {t : TriplePattern}
    (ht : t.optional = false) {name : Bytes} (hname : name ≠ [] ∧ ∀ a ∈ name, Rdql.isVarChar a = true)
    (hobject : OnObject t.parts (0x3f :: name))
    (hliterals : ∀ f, FitsPattern store.toStore prefixes t f → IsIntegerLiteral f.object) (c : Comparator)
    (mirrored : Bool) {k : Constant} (hk : k.WellFormed) :
    SameRows P digest store prefixes ops t name c mirrored k ↔
      ∀ f, FitsPattern store.toStore prefixes t f → k.content ≠ ascii "0" ∧
        onSide mirrored (c.on P) (P.number (Node.toString f.object)) (P.number k.content) =
          onSide mirrored c.holds (wholeNumber (Node.toString f.object)) k.value := by
  constructor
  · intro h f hf
    have htests := h.tests hP hexact ht hname hobject hliterals hk hf
    rw [pushedTest_iff hexact hk (hliterals f hf), evaluatedTest, Bool.and_eq_true, decide_eq_true_eq] at htests
    have hzero : k.content ≠ ascii "0" := by
      intro hzero
      exact (htests.1 fun hne => absurd hzero hne).1 hzero
    refine ⟨hzero, Bool.eq_iff_iff.2 ⟨fun hon => htests.2 ⟨hzero, hon⟩ hzero, fun hholds => ?_⟩⟩
    exact (htests.1 fun _ => hholds).2
  · intro h q hq
    obtain ⟨bind, pushed, evaluated, -, hpnodup, henodup, hpushed, hevaluated, hfetches⟩ :=
      rows_found ops c mirrored hP digest hexact ht hname hobject hliterals hk
    have hperm : pushed.Perm evaluated := by
      refine (List.perm_ext_iff_of_nodup hpnodup henodup).2 fun f => ?_
      rw [hpushed, hevaluated]
      refine and_congr_right fun hf => ?_
      obtain ⟨hzero, heq⟩ := h f hf
      rw [pushedTest_iff hexact hk (hliterals f hf), evaluatedTest, heq]
      simp [hzero]
    obtain ⟨hfirst, hsecond⟩ := hfetches q hq
    exact ⟨_, _, hperm.map _, hfirst, _, hsecond⟩

/-! ## A small store -/

theorem wholePerl_counts : wholePerl.Counts where
  one := rfl
  zero := rfl
  int := by
    intro s _ h
    show decide (wholeNumber s = 0) = false
    exact decide_eq_false h

open Classical in
/-- The statements of a list, with the search for ranges that the reading of single comparisons stands for. -/
noncomputable def listRangeStore (facts : List Fact) (h : facts.Nodup) (R : RangeReading) : RangeStore where
  toStore := listStore facts h
  reading := R
  findRange := fun q r => facts.filter fun f =>
    decide (q.fits (fun _ _ => false) f = true ∧ ∀ m, r.meaning R = some m → m f.object)
  findRange_nodup := fun _ _ => h.filter _
  mem_findRange := by
    intro q r m hm f
    rw [List.mem_filter, decide_eq_true_eq, hm]
    simp [listStore]

/-- Whole numbers, compared as they are. -/
def integerReading : RangeReading :=
  ⟨fun _ _ => true, fun c s n => c.holds (wholeNumber (Node.toString n)) (wholeNumber s) = true⟩

/-- `<u:a> <u:p> "5"^^xsd:integer` -/
def fiveFact : Fact where
  subject := urn 0x61
  predicate := urn 0x70
  object := .literal ⟨some ⟨ascii "5", by decide⟩, .normal, CString.empty,
    some ⟨ascii "http://www.w3.org/2001/XMLSchema#integer", by decide, by decide⟩, 0⟩
  context := none

noncomputable def fiveStore : RangeStore := listRangeStore [fiveFact] (by simp) integerReading

/-- `?s <u:p> ?x` -/
def fivePattern : TriplePattern := ⟨false, [ascii "?s", urnText 0x70, ascii "?x"]⟩

theorem fiveFact_integer : IsIntegerLiteral fiveFact.object :=
  ⟨_, rfl, by decide +kernel, [], ascii "5", Or.inl rfl, by decide +kernel, by decide +kernel, by decide +kernel⟩

theorem fiveStore_literals : ∀ f, FitsPattern fiveStore.toStore (fun _ => none) fivePattern f → IsIntegerLiteral f.object := by
  rintro f ⟨hf, -⟩
  rw [List.mem_singleton.1 hf]
  exact fiveFact_integer

theorem integerReading_exact : integerReading.Exact := ⟨fun _ _ => rfl, fun _ _ _ _ _ => Iff.rfl⟩

/-- `?x < 7` -/
theorem rows_same_five :
    SameRows wholePerl firstDigest fiveStore (fun _ => none) (ascii "op:") fivePattern (ascii "x") .less false
      (.number (ascii "7")) :=
  (rows_same_iff wholePerl_counts firstDigest fiveStore integerReading_exact (fun _ => none) (ascii "op:") rfl
    ⟨by decide +kernel, by decide +kernel⟩ (by unfold OnObject; decide +kernel) fiveStore_literals .less false (k := .number (ascii "7"))
    ⟨by decide +kernel, by decide +kernel⟩).2 fun f hf => by
      rw [List.mem_singleton.1 hf.1]
      exact ⟨by decide, by decide⟩

/-- `?x > 0` finds 5 as a pattern, and nothing as a constraint. -/
theorem rows_same_not :
    ¬ SameRows wholePerl firstDigest fiveStore (fun _ => none) (ascii "op:") fivePattern (ascii "x") .greater false
      (.number (ascii "0")) := by
  intro h
  have hk : Constant.WellFormed (.number (ascii "0")) := ⟨by decide +kernel, by decide +kernel⟩
  have hfits : FitsPattern fiveStore.toStore (fun _ => none) fivePattern fiveFact :=
    ⟨List.mem_singleton_self _, by decide⟩
  have htests := h.tests wholePerl_counts integerReading_exact rfl ⟨by decide +kernel, by decide +kernel⟩ (by unfold OnObject; decide +kernel)
    fiveStore_literals hk hfits
  have hzero : (Constant.number (ascii "0")).content = ascii "0" := rfl
  have := htests.1 fun hne => absurd hzero hne
  rw [evaluatedTest, Bool.and_eq_true, decide_eq_true_eq] at this
  exact this.1 hzero

end RdfStore.Query
