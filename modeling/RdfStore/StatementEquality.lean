import RdfStore.NodeEquality

/-!
# Equality of statements (`rdfstore_statement_equals`)

Two statements are compared by their labels, one `memcmp` over the longer length
for each component.  The contexts are compared only if both statements have one,
and of an object only the label counts.  The lengths are set by the calls that
ask for the labels, in the same argument list that reads them: evaluated from
the right, no byte is compared.

    equal ↔ the same labels, and contexts that agree               (equal_leftToRight_iff)
    reflexive, symmetric, transitive but for a missing context     (statementEquals_labels)
-/

namespace RdfStore

open ByteMem

/-! ## The function -/

/-- The order in which the arguments of a call are evaluated. -/
inductive ArgumentOrder
  | leftToRight
  | rightToLeft
  deriving DecidableEq

/-- `MAX(l1, l2)` behind two arguments that set the lengths, which are 0 before. -/
def ArgumentOrder.longer : ArgumentOrder → Nat → Nat → Nat
  | .leftToRight, l1, l2 => max l1 l2
  | .rightToLeft, _, _ => 0

@[simp] theorem longer_leftToRight (l1 l2 : Nat) : ArgumentOrder.leftToRight.longer l1 l2 = max l1 l2 := rfl

@[simp] theorem longer_rightToLeft (l1 l2 : Nat) : ArgumentOrder.rightToLeft.longer l1 l2 = 0 := rfl

/-- `rdfstore_node_get_label` -/
def rdfstoreNodeGetLabel : Option Node → Option CBuf
  | none => none
  | some (.resource r) => r.identifier
  | some (.literal l) => l.string

/-- `rdfstore_resource_get_label` -/
def rdfstoreResourceGetLabel (node : Option Resource) : Option CBuf :=
  rdfstoreNodeGetLabel (node.map Node.resource)

/-- The `*len` bytes of a label. -/
def labelBytes (label : Option CBuf) : Bytes := (label.map (·.bytes)).getD []

/-- `a && b && ..`: the first operand that is not true is the value. -/
def conjunction : List (Option Bool) → Option Bool
  | [] => some true
  | some true :: rest => conjunction rest
  | other :: _ => other

section

variable (order : ArgumentOrder)

/-- `memcmp(get_label(a, &l1), get_label(b, &l2), MAX(l1, l2)) == 0` -/
def sameLabel (label1 label2 : Option CBuf) : Option Bool :=
  memcmpEq (readable label1) (readable label2)
    (order.longer (labelBytes label1).length (labelBytes label2).length)

/-- The comparison of two labels that have to have a byte. -/
def sameSomeLabel (label1 label2 : Option CBuf) : List (Option Bool) :=
  [sameLabel order label1 label2, some (0 < (labelBytes label1).length), some (0 < (labelBytes label2).length)]

/-- `rdfstore_statement_equals`; without an answer when a `memcmp` reads past the end. -/
def rdfstoreStatementEquals (st1 st2 : Option Statement) : Option Int :=
  match st1, st2 with
  | some s1, some s2 =>
    let triple :=
      sameSomeLabel order (rdfstoreResourceGetLabel s1.subject) (rdfstoreResourceGetLabel s2.subject) ++
      sameSomeLabel order (rdfstoreResourceGetLabel s1.predicate) (rdfstoreResourceGetLabel s2.predicate) ++
      [sameLabel order (rdfstoreNodeGetLabel s1.object) (rdfstoreNodeGetLabel s2.object)]
    if s1.context.isSome ∧ s2.context.isSome then
      (conjunction (triple ++
        sameSomeLabel order (rdfstoreResourceGetLabel s1.context) (rdfstoreResourceGetLabel s2.context))).map answerOf
    else (conjunction triple).map answerOf
  | _, _ => some 0

/-- The call answers 1. -/
def StatementsEqual (a b : Statement) : Prop := rdfstoreStatementEquals order (some a) (some b) = some 1

instance (a b : Statement) : Decidable (StatementsEqual order a b) :=
  inferInstanceAs (Decidable (_ = _))

end

/-! ## What equality is about -/

/-- Non-empty subject and predicate labels. -/
structure Statement.Labelled (s : Statement) : Prop where
  subject : labelBytes (rdfstoreResourceGetLabel s.subject) ≠ []
  predicate : labelBytes (rdfstoreResourceGetLabel s.predicate) ≠ []

/-- A context, if there is one, has a label too. -/
def Statement.ContextLabelled (s : Statement) : Prop :=
  s.context ≠ none → labelBytes (rdfstoreResourceGetLabel s.context) ≠ []

/-- No label that has to be there is empty, and no label holds a NUL. -/
structure Statement.Comparable (s : Statement) : Prop extends s.Labelled where
  context : s.ContextLabelled
  subject_noNul : 0 ∉ labelBytes (rdfstoreResourceGetLabel s.subject)
  predicate_noNul : 0 ∉ labelBytes (rdfstoreResourceGetLabel s.predicate)
  object_noNul : 0 ∉ labelBytes (rdfstoreNodeGetLabel s.object)
  context_noNul : 0 ∉ labelBytes (rdfstoreResourceGetLabel s.context)

structure SameLabels (a b : Statement) : Prop where
  subject : labelBytes (rdfstoreResourceGetLabel a.subject) = labelBytes (rdfstoreResourceGetLabel b.subject)
  predicate : labelBytes (rdfstoreResourceGetLabel a.predicate) = labelBytes (rdfstoreResourceGetLabel b.predicate)
  object : labelBytes (rdfstoreNodeGetLabel a.object) = labelBytes (rdfstoreNodeGetLabel b.object)

/-- Not two contexts of different labels. -/
def ContextsAgree (a b : Statement) : Prop :=
  a.context ≠ none → b.context ≠ none →
    labelBytes (rdfstoreResourceGetLabel a.context) = labelBytes (rdfstoreResourceGetLabel b.context)

/-- The language of a literal. -/
def Node.language : Node → Option Bytes
  | .resource _ => none
  | .literal l => some l.lang.bytes

/-- The datatype of a literal. -/
def Node.datatype : Node → Option (Option Bytes)
  | .resource _ => none
  | .literal l => some (l.dataType.map (·.bytes))

/-- An equivalence of the statements with non-empty labels under which the kind, the language and the
datatype of the object are the same. -/
structure EqualityRespectsContent (order : ArgumentOrder) : Prop where
  refl : ∀ a, a.Labelled → StatementsEqual order a a
  symm : ∀ a b, a.Labelled → b.Labelled → StatementsEqual order a b → StatementsEqual order b a
  trans : ∀ a b c, a.Labelled → b.Labelled → c.Labelled → StatementsEqual order a b → StatementsEqual order b c →
    StatementsEqual order a c
  kind : ∀ a b, a.Labelled → b.Labelled → StatementsEqual order a b → a.object.map Node.type = b.object.map Node.type
  language : ∀ a b, a.Labelled → b.Labelled → StatementsEqual order a b →
    a.object.bind Node.language = b.object.bind Node.language
  datatype : ∀ a b, a.Labelled → b.Labelled → StatementsEqual order a b →
    a.object.bind Node.datatype = b.object.bind Node.datatype

/-- What equality is instead: a comparison of labels, which is transitive as long as two different contexts
are not met through a statement without one. -/
structure EqualityOfLabels (order : ArgumentOrder) : Prop where
  refl : ∀ a, a.Labelled → a.ContextLabelled → StatementsEqual order a a
  symm : ∀ a b, StatementsEqual order a b → StatementsEqual order b a
  trans : ∀ a b c, a.Comparable → b.Comparable → c.Comparable → b.context ≠ none ∨ ContextsAgree a c →
    StatementsEqual order a b → StatementsEqual order b c → StatementsEqual order a c
  labels : ∀ a b, a.Comparable → b.Comparable → order = .leftToRight →
    (StatementsEqual order a b ↔ SameLabels a b ∧ ContextsAgree a b)

/-! ## One label -/

theorem conjunction_eq_true_iff (l : List (Option Bool)) : conjunction l = some true ↔ ∀ x ∈ l, x = some true := by
  induction l with
  | nil => simp [conjunction]
  | cons x rest ih =>
    rw [List.forall_mem_cons]
    rcases x with - | - | -
    · simp [conjunction]
    · simp [conjunction]
    · simp [conjunction, ih]

theorem memcmpEq_eq_true_iff (p q : Bytes) (n : Nat) :
    memcmpEq p q n = some true ↔ n ≤ p.length ∧ n ≤ q.length ∧ p.take n = q.take n := by
  unfold memcmpEq
  split
  · next h => simp [h.1, h.2]
  · next h =>
    constructor
    · intro h0
      cases h0
    · rintro ⟨h1, h2, -⟩
      exact absurd ⟨h1, h2⟩ h

theorem readable_none : readable none = [] := rfl

theorem readable_some (b : CBuf) : readable (some b) = b.bytes ++ [0] := rfl

theorem labelBytes_some (b : CBuf) : labelBytes (some b) = b.bytes := rfl

/-- A label that is compared with one as long or shorter, over its own length. -/
theorem eq_of_sameLabel_le {b b' : CBuf} (h : b.bytes.length ≤ b'.bytes.length) (hnul : 0 ∉ b'.bytes)
    (hle : b'.bytes.length ≤ (b.bytes ++ [0]).length)
    (htake : (b.bytes ++ [0]).take b'.bytes.length = (b'.bytes ++ [0]).take b'.bytes.length) : b.bytes = b'.bytes := by
  rw [List.take_left' rfl] at htake
  rw [List.length_append, List.length_singleton] at hle
  rcases Nat.eq_or_lt_of_le h with heq | hlt
  · rwa [← heq, List.take_left' rfl] at htake
  · have hwhole : (b.bytes ++ [0]).take b'.bytes.length = b.bytes ++ [0] :=
      List.take_of_length_le (by rw [List.length_append, List.length_singleton]; omega)
    rw [hwhole] at htake
    exact absurd (htake ▸ List.mem_append_right b.bytes (List.mem_singleton_self 0)) hnul

/-- A label can be read over its length. -/
theorem take_readable (label : Option CBuf) : (labelBytes label).length ≤ (readable label).length ∧
    (readable label).take (labelBytes label).length = labelBytes label := by
  cases label with
  | none => exact ⟨le_rfl, rfl⟩
  | some b => exact ⟨by simp [labelBytes_some, readable_some], by simp [labelBytes_some, readable_some]⟩

/-- Labels without a NUL are found to be the same when they are. -/
theorem sameLabel_leftToRight_iff {label1 label2 : Option CBuf} (h1 : 0 ∉ labelBytes label1)
    (h2 : 0 ∉ labelBytes label2) :
    sameLabel .leftToRight label1 label2 = some true ↔ labelBytes label1 = labelBytes label2 := by
  rw [sameLabel, longer_leftToRight, memcmpEq_eq_true_iff]
  constructor
  · rintro ⟨hle1, hle2, htake⟩
    cases label1 with
    | none =>
      rw [readable_none, List.length_nil, Nat.le_zero] at hle1
      exact (List.eq_nil_of_length_eq_zero (Nat.le_zero.1 ((Nat.le_max_right _ _).trans hle1.le))).symm
    | some b =>
      cases label2 with
      | none =>
        rw [readable_none, List.length_nil, Nat.le_zero] at hle2
        exact List.eq_nil_of_length_eq_zero (Nat.le_zero.1 ((Nat.le_max_left _ _).trans hle2.le))
      | some b' =>
        rw [labelBytes_some] at h1
        rw [labelBytes_some] at h2
        rw [labelBytes_some, labelBytes_some, readable_some, readable_some] at *
        rcases Nat.le_total b.bytes.length b'.bytes.length with hle | hle
        · rw [Nat.max_eq_right hle] at *
          exact eq_of_sameLabel_le hle h2 hle1 htake
        · rw [Nat.max_eq_left hle] at *
          exact (eq_of_sameLabel_le hle h1 hle2 htake.symm).symm
  · intro h
    rw [h, Nat.max_self]
    refine ⟨?_, (take_readable label2).1, ?_⟩
    · rw [← h]
      exact (take_readable label1).1
    · rw [(take_readable label2).2, ← h]
      exact (take_readable label1).2

theorem sameLabel_rightToLeft (label1 label2 : Option CBuf) : sameLabel .rightToLeft label1 label2 = some true := by
  rw [sameLabel, longer_rightToLeft, memcmpEq_eq_true_iff]
  exact ⟨Nat.zero_le _, Nat.zero_le _, rfl⟩

theorem sameLabel_self (order : ArgumentOrder) (label : Option CBuf) : sameLabel order label label = some true := by
  cases order with
  | rightToLeft => exact sameLabel_rightToLeft label label
  | leftToRight =>
    rw [sameLabel, longer_leftToRight, memcmpEq_eq_true_iff, Nat.max_self]
    exact ⟨(take_readable label).1, (take_readable label).1, rfl⟩

theorem sameLabel_comm {order : ArgumentOrder} {label1 label2 : Option CBuf}
    (h : sameLabel order label1 label2 = some true) : sameLabel order label2 label1 = some true := by
  have hlonger : ∀ l1 l2, order.longer l1 l2 = order.longer l2 l1 := by
    intro l1 l2
    cases order with
    | leftToRight => exact Nat.max_comm l1 l2
    | rightToLeft => rfl
  rw [sameLabel, memcmpEq_eq_true_iff] at h ⊢
  rw [hlonger]
  exact ⟨h.2.1, h.1, h.2.2.symm⟩

/-! ## All labels -/

theorem sameSomeLabel_iff (order : ArgumentOrder) (label1 label2 : Option CBuf) :
    (∀ x ∈ sameSomeLabel order label1 label2, x = some true) ↔
      sameLabel order label1 label2 = some true ∧ labelBytes label1 ≠ [] ∧ labelBytes label2 ≠ [] := by
  simp [sameSomeLabel, List.length_pos_iff]

theorem map_answerOf_eq_one_iff (x : Option Bool) : x.map answerOf = some 1 ↔ x = some true := by
  rcases x with - | - | -
  · simp
  · simp [answerOf]
  · simp [answerOf]

/-- What the call compares. -/
theorem statementsEqual_iff (order : ArgumentOrder) (a b : Statement) :
    StatementsEqual order a b ↔ a.Labelled ∧ b.Labelled ∧
      sameLabel order (rdfstoreResourceGetLabel a.subject) (rdfstoreResourceGetLabel b.subject) = some true ∧
      sameLabel order (rdfstoreResourceGetLabel a.predicate) (rdfstoreResourceGetLabel b.predicate) = some true ∧
      sameLabel order (rdfstoreNodeGetLabel a.object) (rdfstoreNodeGetLabel b.object) = some true ∧
      (a.context ≠ none → b.context ≠ none →
        sameLabel order (rdfstoreResourceGetLabel a.context) (rdfstoreResourceGetLabel b.context) = some true ∧
        labelBytes (rdfstoreResourceGetLabel a.context) ≠ [] ∧
        labelBytes (rdfstoreResourceGetLabel b.context) ≠ []) := by
  unfold StatementsEqual rdfstoreStatementEquals
  simp only [Option.isSome_iff_ne_none]
  split
  · next h =>
    simp only [map_answerOf_eq_one_iff, conjunction_eq_true_iff, List.forall_mem_append, sameSomeLabel_iff,
      List.forall_mem_singleton]
    constructor
    · rintro ⟨⟨⟨⟨hs, hs1, hs2⟩, hp, hp1, hp2⟩, ho⟩, hc⟩
      exact ⟨⟨hs1, hp1⟩, ⟨hs2, hp2⟩, hs, hp, ho, fun _ _ => hc⟩
    · rintro ⟨ha, hb, hs, hp, ho, hc⟩
      exact ⟨⟨⟨⟨hs, ha.subject, hb.subject⟩, hp, ha.predicate, hb.predicate⟩, ho⟩, hc h.1 h.2⟩
  · next h =>
    simp only [map_answerOf_eq_one_iff, conjunction_eq_true_iff, List.forall_mem_append, sameSomeLabel_iff,
      List.forall_mem_singleton]
    constructor
    · rintro ⟨⟨⟨hs, hs1, hs2⟩, hp, hp1, hp2⟩, ho⟩
      exact ⟨⟨hs1, hp1⟩, ⟨hs2, hp2⟩, hs, hp, ho, fun h1 h2 => absurd ⟨h1, h2⟩ h⟩
    · rintro ⟨ha, hb, hs, hp, ho, -⟩
      exact ⟨⟨⟨hs, ha.subject, hb.subject⟩, hp, ha.predicate, hb.predicate⟩, ho⟩

theorem StatementsEqual.symm {order : ArgumentOrder} {a b : Statement} (h : StatementsEqual order a b) :
    StatementsEqual order b a := by
  rw [statementsEqual_iff] at h ⊢
  obtain ⟨ha, hb, hs, hp, ho, hc⟩ := h
  refine ⟨hb, ha, sameLabel_comm hs, sameLabel_comm hp, sameLabel_comm ho, fun h1 h2 => ?_⟩
  obtain ⟨hsame, hc1, hc2⟩ := hc h2 h1
  exact ⟨sameLabel_comm hsame, hc2, hc1⟩

/-- Evaluated from the left, statements are equal by their labels. -/
theorem equal_leftToRight_iff {a b : Statement} (ha : a.Comparable) (hb : b.Comparable) :
    StatementsEqual .leftToRight a b ↔ SameLabels a b ∧ ContextsAgree a b := by
  rw [statementsEqual_iff, sameLabel_leftToRight_iff ha.subject_noNul hb.subject_noNul,
    sameLabel_leftToRight_iff ha.predicate_noNul hb.predicate_noNul,
    sameLabel_leftToRight_iff ha.object_noNul hb.object_noNul,
    sameLabel_leftToRight_iff ha.context_noNul hb.context_noNul]
  constructor
  · rintro ⟨-, -, hs, hp, ho, hc⟩
    exact ⟨⟨hs, hp, ho⟩, fun h1 h2 => (hc h1 h2).1⟩
  · rintro ⟨hsame, hagree⟩
    exact ⟨ha.toLabelled, hb.toLabelled, hsame.subject, hsame.predicate, hsame.object,
      fun h1 h2 => ⟨hagree h1 h2, ha.context h1, hb.context h2⟩⟩

/-- Evaluated from the right, all statements are equal. -/
theorem equal_rightToLeft {a b : Statement} (ha : a.Comparable) (hb : b.Comparable) :
    StatementsEqual .rightToLeft a b := by
  rw [statementsEqual_iff]
  exact ⟨ha.toLabelled, hb.toLabelled, sameLabel_rightToLeft _ _, sameLabel_rightToLeft _ _, sameLabel_rightToLeft _ _,
    fun h1 h2 => ⟨sameLabel_rightToLeft _ _, ha.context h1, hb.context h2⟩⟩

/-! ## The laws -/

theorem SameLabels.trans {a b c : Statement} (hab : SameLabels a b) (hbc : SameLabels b c) : SameLabels a c :=
  ⟨hab.subject.trans hbc.subject, hab.predicate.trans hbc.predicate, hab.object.trans hbc.object⟩

theorem statementsEqual_self (order : ArgumentOrder) {a : Statement} (ha : a.Labelled) (hcontext : a.ContextLabelled) :
    StatementsEqual order a a := by
  rw [statementsEqual_iff]
  exact ⟨ha, ha, sameLabel_self order _, sameLabel_self order _, sameLabel_self order _,
    fun h1 _ => ⟨sameLabel_self order _, hcontext h1, hcontext h1⟩⟩

/-- Contexts agree through a statement that has one. -/
theorem ContextsAgree.trans {a b c : Statement} (hab : ContextsAgree a b) (hbc : ContextsAgree b c)
    (hb : b.context ≠ none) : ContextsAgree a c :=
  fun ha hc => (hab ha hb).trans (hbc hb hc)

theorem StatementsEqual.trans {order : ArgumentOrder} {a b c : Statement} (ha : a.Comparable) (hb : b.Comparable)
    (hc : c.Comparable) (hab : StatementsEqual order a b) (hbc : StatementsEqual order b c)
    (hcontext : b.context ≠ none ∨ ContextsAgree a c) : StatementsEqual order a c := by
  cases order with
  | rightToLeft => exact equal_rightToLeft ha hc
  | leftToRight =>
    obtain ⟨hsame, hagree⟩ := (equal_leftToRight_iff ha hb).1 hab
    obtain ⟨hsame', hagree'⟩ := (equal_leftToRight_iff hb hc).1 hbc
    refine (equal_leftToRight_iff ha hc).2 ⟨hsame.trans hsame', ?_⟩
    rcases hcontext with hmiddle | houter
    · exact hagree.trans hagree' hmiddle
    · exact houter

/-- The laws of the comparison. -/
theorem statementEquals_labels (order : ArgumentOrder) : EqualityOfLabels order where
  refl _ ha hcontext := statementsEqual_self order ha hcontext
  symm _ _ h := h.symm
  trans _ _ _ ha hb hc hcontext hab hbc := hab.trans ha hb hc hbc hcontext
  labels a b ha hb horder := by
    subst horder
    exact equal_leftToRight_iff ha hb

/-! ## Statements of one byte labels -/

/-- A statement with a context. -/
def statementIn (context : Option Resource) : Statement :=
  { triple (uri 115) (uri 112) (.resource (uri 111)) with context }

/-- A statement about a subject. -/
def statementAbout (subject : CBuf) : Statement := triple ⟨some subject, false, 0⟩ (uri 112) (.resource (uri 111))

/-- A literal of one byte with a language or a datatype. -/
def taggedLiteral (lang : CString) (dataType : Option CString) : Node :=
  .literal ⟨some ⟨[111], by decide⟩, .normal, lang, dataType, 0⟩

/-- A statement with an object. -/
def statementOf (object : Node) : Statement := triple (uri 115) (uri 112) object

theorem statementIn_comparable {context : Option Resource} (h : (statementIn context).ContextLabelled)
    (hnul : 0 ∉ labelBytes (rdfstoreResourceGetLabel context)) : (statementIn context).Comparable where
  subject := List.cons_ne_nil 115 []
  predicate := List.cons_ne_nil 112 []
  context := h
  subject_noNul := (by decide : (0 : UInt8) ∉ [115])
  predicate_noNul := (by decide : (0 : UInt8) ∉ [112])
  object_noNul := (by decide : (0 : UInt8) ∉ [111])
  context_noNul := hnul

/-- One statement in a context and in none. -/
theorem statementEquals_labels_context :
    StatementsEqual .leftToRight (statementIn (some (uri 97))) (statementIn none) ↔
      SameLabels (statementIn (some (uri 97))) (statementIn none) ∧
        ContextsAgree (statementIn (some (uri 97))) (statementIn none) :=
  (statementEquals_labels .leftToRight).labels _ _
    (statementIn_comparable (fun _ => by decide) (by decide))
    (statementIn_comparable (fun h => absurd rfl h) (by decide)) rfl

/-- Two contexts are met through a statement without one; a context with an empty label is not equal to
itself; literals of two languages or datatypes, and a URI and a literal, are equal; NULs at the end of a
label are lost one at a time. -/
theorem not_equalityRespectsContent :
    (StatementsEqual .leftToRight (statementIn (some (uri 97))) (statementIn none) ∧
      StatementsEqual .leftToRight (statementIn none) (statementIn (some (uri 98))) ∧
      ¬ StatementsEqual .leftToRight (statementIn (some (uri 97))) (statementIn (some (uri 98)))) ∧
    (¬ StatementsEqual .leftToRight (statementIn (some ⟨none, false, 0⟩)) (statementIn (some ⟨none, false, 0⟩)) ∧
      ¬ StatementsEqual .rightToLeft (statementIn (some ⟨none, false, 0⟩)) (statementIn (some ⟨none, false, 0⟩))) ∧
    (StatementsEqual .leftToRight (statementOf (taggedLiteral tagEn none)) (statementOf (taggedLiteral .empty none)) ∧
      StatementsEqual .leftToRight (statementOf (taggedLiteral .empty (some tagEn)))
        (statementOf (taggedLiteral .empty none)) ∧
      StatementsEqual .leftToRight (statementOf (.resource (uri 111))) (statementOf (taggedLiteral .empty none))) ∧
    (StatementsEqual .leftToRight (statementAbout ⟨[115], by decide⟩) (statementAbout ⟨[115, 0], by decide⟩) ∧
      StatementsEqual .leftToRight (statementAbout ⟨[115, 0], by decide⟩) (statementAbout ⟨[115, 0, 0], by decide⟩) ∧
      ¬ StatementsEqual .leftToRight (statementAbout ⟨[115], by decide⟩) (statementAbout ⟨[115, 0, 0], by decide⟩)) ∧
    ¬ EqualityRespectsContent .leftToRight ∧ ¬ EqualityRespectsContent .rightToLeft := by
  refine ⟨by decide, by decide, by decide, by decide, fun h => ?_, fun h => ?_⟩
  · exact absurd (h.kind (statementOf (.resource (uri 111))) (statementOf (taggedLiteral .empty none))
      ⟨by decide, by decide⟩ ⟨by decide, by decide⟩ (by decide)) (by decide)
  · exact absurd (h.kind (statementOf (.resource (uri 111))) (statementOf (taggedLiteral .empty none))
      ⟨by decide, by decide⟩ ⟨by decide, by decide⟩ (by decide)) (by decide)

end RdfStore
