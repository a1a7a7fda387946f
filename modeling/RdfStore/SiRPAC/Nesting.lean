import RdfStore.SiRPAC.StartTags

/-!
# The open elements (`elementStack`, `parseElementStack` and the scopes)

Where no start tag leaves the stacks behind, they hold the elements that are open, and
the base, the language and the context in force are those of the innermost open element
that carries the attribute.

    Reached c Plain d → Nested c d    (nesting_reached)
-/

namespace RdfStore.SiRPAC

open ByteMem Emission SavedValues

/-! ## Documents -/

/-- The names of the elements around, the outermost first: `$expat->context`. -/
def namesOf (opened : List Opened) : List Bytes := opened.reverse.map (·.tag.name)

/-- A document as far as it was read. The elements that are open, the innermost first, each with the number of the
element that its start tag makes. -/
structure Document where
  state : State
  opened : List Opened

/-- The events of a document, none of which dies; every start tag satisfies `P` among the elements that are open. -/
inductive Reached (c : Setup) (P : List Opened → StartTag → Prop) : Document → Prop
  | start : Reached c P ⟨c.initial, []⟩
  | startTag {d : Document} {t : StartTag} {p : State} : Reached c P d → P d.opened t →
      rdfxmlStartElementHandler c (namesOf d.opened) t d.state = .ok p →
      Reached c P ⟨p, ⟨t, d.state.elements.length⟩ :: d.opened⟩
  | endTag {o : Opened} {opened : List Opened} {p p' : State} : Reached c P ⟨p, o :: opened⟩ →
      rdfxmlEndElementHandler c (namesOf opened) o.tag.name p = .ok p' → Reached c P ⟨p', opened⟩
  | text {d : Document} (text : Bytes) : Reached c P d →
      Reached c P ⟨rdfxmlCharacterDataHandler c text d.state, d.opened⟩

/-! ## What is asked for -/

/-- What each open element carries, given the elements around it. -/
def carried {α : Type} (f : StartTag → List Opened → Option α) : List Opened → List (Option α)
  | [] => []
  | o :: around => f o.tag around :: carried f around

/-- The base of the innermost open element with `xml:base`, or else that of the parser. -/
def baseInForce (c : Setup) (opened : List Opened) : Bytes := inForce c.sSource (carried (fun t _ => t.base) opened)

/-- The language of the innermost open element with `xml:lang`, or else none. -/
def langInForce (opened : List Opened) : Bytes := inForce [] (carried (fun t _ => t.lang) opened)

/-- The context of the innermost open element with one, or else none. -/
def contextInForce (c : Setup) (opened : List Opened) : Option Resource :=
  inForce none (carried (fun t around => t.context c.uri (baseInForce c around)) opened)

/-- The stacks hold the open elements, and the scopes in force are theirs. -/
structure Nested (c : Setup) (d : Document) : Prop where
  elements : ∀ o ∈ d.opened, o.tag.heads <+: d.state.heads.drop o.ref
  elementStack : d.state.elementStack = d.opened.flatMap Opened.refs
  parseElementStack : d.state.parseElementStack = (d.opened.filter Opened.isParsed).map (·.ref)
  base : d.state.base.current = baseInForce c d.opened
  lang : d.state.lang.current = langInForce d.opened
  context : d.state.context.current = contextInForce c d.opened
  ended : d.opened = [] →
    d.state.elementStack = [] ∧ d.state.parseElementStack = [] ∧ d.state.scanMode = .skipping

/-! ## When it holds -/

def inLiteral (opened : List Opened) : Bool := opened.any (·.tag.isLiteral)

def StartTag.isRdf (t : StartTag) : Bool := t.fullName = rdfms "RDF"

/-- An outermost node element: the document itself, or an element inside `rdf:RDF`. -/
def isOutermost (opened : List Opened) (t : StartTag) : Bool :=
  match opened with
  | [] => !t.isRdf
  | [o] => o.tag.isRdf
  | _ => false

/-- A start tag that the handlers follow: only inside a literal there are elements without a name space, a description is
implied neither there nor for an outermost node element, and no scope is set twice. -/
structure Plain (opened : List Opened) (t : StartTag) : Prop where
  named : t.ns = none → (splitName t.name).1 ≠ xmlPrefix → inLiteral opened = true
  resource : t.isResource = true → inLiteral opened = false ∧ isOutermost opened t = false
  once : OnceEach t.attlist

/-! ## Keys -/

/-- The key of the innermost open element. -/
def keyOf (opened : List Opened) : Bytes := (namesOf opened).flatten

theorem keyOf_cons (o : Opened) (opened : List Opened) :
    keyOf (o :: opened) = (namesOf opened).flatten ++ o.tag.name := by
  unfold keyOf namesOf
  rw [List.reverse_cons, List.map_append, List.flatten_append]
  simp

/-- The scopes of the open elements with their keys. -/
def scopesOf {α : Type} (f : StartTag → List Opened → Option α) : List Opened → List (Bytes × Option α)
  | [] => []
  | o :: around => (keyOf (o :: around), f o.tag around) :: scopesOf f around

theorem scopesOf_values {α : Type} (f : StartTag → List Opened → Option α) (opened : List Opened) :
    (scopesOf f opened).map (·.2) = carried f opened := by
  induction opened with
  | nil => rfl
  | cons o opened ih => rw [scopesOf, List.map_cons, ih, carried]

theorem length_keyOf_cons (o : Opened) (opened : List Opened) :
    (keyOf opened).length < (keyOf (o :: opened)).length := by
  rw [keyOf_cons, List.length_append]
  exact Nat.lt_add_of_pos_right (List.length_pos_iff.mpr o.tag.name_ne)

/-- The keys of open elements are shorter the further out they are. -/
theorem length_key_le {α : Type} {f : StartTag → List Opened → Option α} {opened : List Opened} {k : Bytes}
    (h : k ∈ (scopesOf f opened).map (·.1)) : k.length ≤ (keyOf opened).length := by
  induction opened with
  | nil => exact absurd h List.not_mem_nil
  | cons o opened ih =>
    rw [scopesOf, List.map_cons, List.mem_cons] at h
    rcases h with rfl | h
    · exact Nat.le_refl _
    · exact (ih h).trans (length_keyOf_cons o opened).le

theorem key_not_mem {α : Type} (f : StartTag → List Opened → Option α) (o : Opened) (opened : List Opened) :
    keyOf (o :: opened) ∉ (scopesOf f opened).map (·.1) := by
  intro h
  exact absurd (length_key_le h) (Nat.not_le_of_lt (length_keyOf_cons o opened))

/-! ## Modes -/

/-- The mode of the open elements, and the outermost node element. -/
def InMode (mode : ScanMode) (expectElement : Option ℕ) (opened : List Opened) : Prop :=
  match opened.reverse with
  | [] => mode = .skipping
  | r :: inner =>
    if r.tag.isRdf then
      match inner with
      | [] => mode = .rdf
      | n :: _ => mode = .description ∧ expectElement = some n.ref
    else mode = .topDescription ∧ expectElement = some r.ref

theorem InMode.start {p : State} {opened : List Opened} (h : InMode p.scanMode p.expectElement opened) (t : StartTag)
    (ref : ℕ) : InMode (p.enterMode t.fullName).1.scanMode
      (if (p.enterMode t.fullName).2 then some ref else p.expectElement) (⟨t, ref⟩ :: opened) := by
  unfold InMode at h ⊢
  rw [List.reverse_cons]
  unfold State.enterMode
  cases hrev : opened.reverse with
  | nil =>
    rw [hrev] at h
    rw [h]
    show if t.isRdf then _ else _
    cases ht : t.isRdf with
    | true => exact if_pos (of_decide_eq_true ht)
    | false => exact ⟨if_neg (of_decide_eq_false ht), rfl⟩
  | cons r inner =>
    rw [hrev] at h
    rw [List.cons_append]
    dsimp only at h ⊢
    cases hr : r.tag.isRdf with
    | false =>
      rw [hr, if_neg Bool.false_ne_true] at h
      rw [h.1, if_neg Bool.false_ne_true]
      exact h
    | true =>
      rw [hr, if_pos rfl] at h
      rw [if_pos rfl]
      cases inner with
      | nil =>
        replace h : p.scanMode = .rdf := h
        rw [h]
        exact ⟨rfl, rfl⟩
      | cons n inner =>
        replace h : p.scanMode = .description ∧ p.expectElement = some n.ref := h
        rw [h.1]
        exact h

/-- What ends with an end tag: `rdf:RDF`, an outermost node element, or an element inside one. -/
theorem InMode.stop {mode : ScanMode} {expectElement : Option ℕ} {o : Opened} {opened : List Opened}
    (h : InMode mode expectElement (o :: opened)) :
    (mode = .rdf ∧ opened = []) ∨
    (isOutermost opened o.tag = true ∧ expectElement = some o.ref ∧
      (mode = .topDescription ∧ InMode .skipping expectElement opened ∨
        mode = .description ∧ InMode .rdf expectElement opened)) ∨
    ((∃ n ∈ opened, expectElement = some n.ref) ∧ (mode = .topDescription ∨ mode = .description) ∧
      InMode mode expectElement opened) := by
  unfold InMode at h ⊢
  rw [List.reverse_cons] at h
  cases hrev : opened.reverse with
  | nil =>
    obtain rfl := List.reverse_eq_nil_iff.mp hrev
    cases ho : o.tag.isRdf with
    | true => exact .inl ⟨(if_pos ho).mp h, rfl⟩
    | false =>
      replace h : mode = .topDescription ∧ expectElement = some o.ref := by
        rw [hrev, List.nil_append] at h
        dsimp only at h
        rwa [ho, if_neg Bool.false_ne_true] at h
      refine .inr (.inl ⟨?_, h.2, .inl ⟨h.1, rfl⟩⟩)
      show (!o.tag.isRdf) = true
      rw [ho]
      rfl
  | cons r inner =>
    have hr_mem : r ∈ opened := List.mem_reverse.mp (hrev ▸ List.mem_cons_self)
    rw [hrev, List.cons_append] at h
    dsimp only at h ⊢
    cases hr : r.tag.isRdf with
    | false =>
      rw [hr, if_neg Bool.false_ne_true] at h
      rw [if_neg Bool.false_ne_true, if_neg Bool.false_ne_true, if_neg Bool.false_ne_true]
      exact .inr (.inr ⟨⟨r, hr_mem, h.2⟩, .inl h.1, h⟩)
    | true =>
      rw [hr, if_pos rfl] at h
      rw [if_pos rfl, if_pos rfl, if_pos rfl]
      cases inner with
      | nil =>
        replace h : mode = .description ∧ expectElement = some o.ref := h
        obtain rfl : opened = [r] := by rw [← List.reverse_reverse opened, hrev]; rfl
        exact .inr (.inl ⟨hr, h.2, .inr ⟨h.1, rfl⟩⟩)
      | cons n inner =>
        replace h : mode = .description ∧ expectElement = some n.ref := h
        have hn_mem : n ∈ opened := List.mem_reverse.mp (hrev ▸ List.mem_cons_of_mem r List.mem_cons_self)
        exact .inr (.inr ⟨⟨n, hn_mem, h.2⟩, .inr h.1, h⟩)

theorem InMode.eq_nil {mode : ScanMode} {expectElement : Option ℕ} {opened : List Opened}
    (h : InMode mode expectElement opened) (hskip : mode = .skipping) : opened = [] := by
  cases opened with
  | nil => rfl
  | cons o opened =>
    rcases h.stop with ⟨hmode, -⟩ | ⟨-, -, ⟨hmode, -⟩ | ⟨hmode, -⟩⟩ | ⟨-, hmode | hmode, -⟩
    all_goals
      rw [hskip] at hmode
      exact absurd hmode (by rintro ⟨⟩)

/-! ## The stacks -/

section Stacks

variable {p : State} {opened : List Opened} {o : Opened}

theorem parseTypeOf_heads (p : State) (ref : ℕ) :
    p.parseTypeOf ref = (p.heads[ref]?).bind fun h => getAttributeValue h.2.2 (rdfms "parseType") := by
  unfold State.parseTypeOf State.heads
  rw [List.getElem?_map]
  cases p.elements[ref]? with
  | none => rfl
  | some n => rfl

/-- The elements of an open element have its `rdf:parseType`. -/
theorem parseTypeOf_ref (h : o.tag.heads <+: p.heads.drop o.ref) {ref : ℕ} (hr : ref ∈ o.refs) :
    p.parseTypeOf ref = o.tag.parseType := by
  obtain ⟨later, hlater⟩ := h
  have hget : ∀ i, p.heads[o.ref + i]? = (o.tag.heads ++ later)[i]? := by
    intro i
    rw [hlater, List.getElem?_drop]
  rw [parseTypeOf_heads]
  unfold Opened.refs at hr
  unfold StartTag.heads at hget
  cases hres : o.tag.isResource with
  | false =>
    rw [hres, if_neg Bool.false_ne_true, List.mem_singleton] at hr
    rw [hr, ← Nat.add_zero o.ref, hget 0]
    rfl
  | true =>
    rw [hres, if_pos rfl] at hr hget
    rcases List.mem_cons.mp hr with rfl | hr
    · rw [hget 1]
      rfl
    · rw [List.mem_singleton.mp hr, ← Nat.add_zero o.ref, hget 0]
      rfl

theorem exists_ref (o : Opened) : o.ref ∈ o.refs := by
  unfold Opened.refs
  split_ifs
  · exact List.mem_cons_of_mem _ List.mem_cons_self
  · exact List.mem_cons_self

/-- What is found on the stack is found among the open elements. -/
theorem any_refs (helements : ∀ o ∈ opened, o.tag.heads <+: p.heads.drop o.ref) (f : Option Bytes → Bool) :
    ((opened.flatMap Opened.refs).any fun ref => f (p.parseTypeOf ref)) = opened.any fun o => f o.tag.parseType := by
  refine Bool.eq_iff_iff.mpr ?_
  rw [List.any_eq_true, List.any_eq_true]
  constructor
  · rintro ⟨ref, href, hf⟩
    obtain ⟨o, ho, hr⟩ := List.mem_flatMap.mp href
    rw [parseTypeOf_ref (helements o ho) hr] at hf
    exact ⟨o, ho, hf⟩
  · rintro ⟨o, ho, hf⟩
    refine ⟨o.ref, List.mem_flatMap.mpr ⟨o, ho, exists_ref o⟩, ?_⟩
    rw [parseTypeOf_ref (helements o ho) (exists_ref o)]
    exact hf

/-- The elements on the stack, and how they are numbered. -/
structure Stacked (p : State) (opened : List Opened) : Prop where
  elements : ∀ o ∈ opened, o.tag.heads <+: p.heads.drop o.ref
  below : ∀ o ∈ opened, o.ref < p.heads.length
  ordered : opened.Pairwise fun a b => b.ref < a.ref
  elementStack : p.elementStack = opened.flatMap Opened.refs
  parseElementStack : p.parseElementStack = opened.flatMap Opened.parsed

theorem Stacked.parseLiteral (h : Stacked p opened) : p.parseLiteral = inLiteral opened := by
  unfold State.parseLiteral
  rw [h.elementStack]
  exact any_refs h.elements isLiteralType

theorem flatMap_parsed (opened : List Opened) :
    opened.flatMap Opened.parsed = (opened.filter Opened.isParsed).map (·.ref) := by
  induction opened with
  | nil => rfl
  | cons o opened ih =>
    rw [List.flatMap_cons, ih, List.filter_cons, Opened.parsed]
    split_ifs
    · rfl
    · rfl

/-- The elements that are parsed are among the open ones. -/
theorem mem_parsed {ref : ℕ} (h : (opened.flatMap Opened.parsed).head? = some ref) : ∃ b ∈ opened, b.ref = ref := by
  rw [flatMap_parsed] at h
  obtain ⟨b, hb, rfl⟩ := List.mem_map.mp (List.mem_of_mem_head? h)
  exact ⟨b, (List.mem_filter.mp hb).1, rfl⟩

/-- Without the innermost element. -/
theorem Stacked.outer (h : Stacked p (o :: opened)) {q : State} (hheads : q.heads = p.heads)
    (hstack : q.elementStack = opened.flatMap Opened.refs)
    (hparse : q.parseElementStack = opened.flatMap Opened.parsed) : Stacked q opened where
  elements b hb := by
    rw [hheads]
    exact h.elements b (List.mem_cons_of_mem o hb)
  below b hb := by
    rw [hheads]
    exact h.below b (List.mem_cons_of_mem o hb)
  ordered := (List.pairwise_cons.mp h.ordered).2
  elementStack := hstack
  parseElementStack := hparse

/-- Outside literals the top of the stack is no element that is parsed: over one with a description stands that. -/
theorem top_not_parsed (hordered : opened.Pairwise fun a b => b.ref < a.ref) (hlit : inLiteral opened = false) {e : ℕ}
    {rest : List ℕ} (htop : opened.flatMap Opened.refs = e :: rest) :
    (opened.flatMap Opened.parsed).head? ≠ some e := by
  cases opened with
  | nil => exact absurd htop (by rintro ⟨⟩)
  | cons b opened =>
    obtain ⟨hb, -⟩ := Bool.or_eq_false_iff.mp hlit
    rw [List.flatMap_cons] at htop ⊢
    cases hres : b.tag.isResource with
    | true =>
      have he : e = b.ref + 1 := by
        rw [Opened.refs, hres] at htop
        exact (List.cons.inj htop).1.symm
      rw [Opened.parsed, Opened.isParsed, hres, he]
      intro h
      exact absurd (Option.some.inj h) (Nat.succ_ne_self b.ref).symm
    | false =>
      have he : e = b.ref := by
        rw [Opened.refs, hres] at htop
        exact (List.cons.inj htop).1.symm
      replace hb : b.tag.isLiteral = false := hb
      rw [Opened.parsed, Opened.isParsed, hres, hb, he]
      intro h
      obtain ⟨b', hb', href⟩ := mem_parsed h
      exact absurd href (Nat.ne_of_lt ((List.pairwise_cons.mp hordered).1 b' hb'))

theorem closeParseType_frame (c : Setup) (parseLiteral : Bool) (tag : Bytes) (p : State) :
    (p.closeParseType c parseLiteral tag).heads = p.heads ∧ SameSettings p (p.closeParseType c parseLiteral tag) ∧
      (p.closeParseType c parseLiteral tag).root = p.root := by
  unfold State.closeParseType
  dsimp only
  split_ifs
  · exact ⟨rfl, ⟨rfl, rfl, rfl, rfl, rfl⟩, rfl⟩
  · split
    · exact ⟨heads_hang _ _ _, ⟨rfl, rfl, rfl, rfl, rfl⟩, rfl⟩
    · exact ⟨rfl, ⟨rfl, rfl, rfl, rfl, rfl⟩, rfl⟩
  · split
    · split_ifs
      all_goals exact ⟨rfl, ⟨rfl, rfl, rfl, rfl, rfl⟩, rfl⟩
    · exact ⟨rfl, ⟨rfl, rfl, rfl, rfl, rfl⟩, rfl⟩
  · exact ⟨rfl, ⟨rfl, rfl, rfl, rfl, rfl⟩, rfl⟩

/-- The end of a literal, or of an element inside one. -/
theorem close_literal (c : Setup) (tag : Bytes) (h : Stacked p (o :: opened)) (hres : o.tag.isResource = false) :
    (p.pop.closeParseType c true tag).elementStack = opened.flatMap Opened.refs ∧
      (p.pop.closeParseType c true tag).parseElementStack = opened.flatMap Opened.parsed := by
  have hstack := h.elementStack
  have hparse := h.parseElementStack
  rw [List.flatMap_cons, Opened.refs, hres] at hstack
  rw [List.flatMap_cons] at hparse
  have hpop : p.pop.root = some o.ref ∧ p.pop.elementStack = opened.flatMap Opened.refs := by
    unfold State.pop
    rw [hstack]
    exact ⟨rfl, rfl⟩
  unfold State.closeParseType
  rw [if_pos rfl]
  cases hlit : o.tag.isLiteral with
  | true =>
    have hparsed : p.pop.parseElementStack = o.ref :: opened.flatMap Opened.parsed := by
      show p.parseElementStack = _
      rw [hparse, Opened.parsed, Opened.isParsed, hlit, Bool.or_true]
      rfl
    rw [if_neg fun hne => hne (by rw [hparsed, hpop.1]; rfl)]
    dsimp only
    rw [hpop.1]
    refine ⟨hpop.2, ?_⟩
    show p.pop.parseElementStack.tail = _
    rw [hparsed]
    rfl
  | false =>
    have hparsed : p.pop.parseElementStack = opened.flatMap Opened.parsed := by
      show p.parseElementStack = _
      rw [hparse, Opened.parsed, Opened.isParsed, hlit, hres]
      rfl
    have hne : p.pop.parseElementStack.head? ≠ p.pop.root := by
      rw [hparsed, hpop.1]
      intro heq
      obtain ⟨b, hb, href⟩ := mem_parsed heq
      exact absurd href (Nat.ne_of_lt ((List.pairwise_cons.mp h.ordered).1 b hb))
    rw [if_pos hne]
    exact ⟨hpop.2, hparsed⟩

/-- The end of an element outside literals; one with a description takes that along. -/
theorem close_outside (c : Setup) (tag : Bytes) (h : Stacked p (o :: opened)) (hlit : inLiteral (o :: opened) = false) :
    (p.pop.closeParseType c false tag).elementStack = opened.flatMap Opened.refs ∧
      (p.pop.closeParseType c false tag).parseElementStack = opened.flatMap Opened.parsed := by
  obtain ⟨ho, hopened⟩ := Bool.or_eq_false_iff.mp hlit
  replace ho : o.tag.isLiteral = false := ho
  have hstack := h.elementStack
  have hparse := h.parseElementStack
  rw [List.flatMap_cons] at hstack hparse
  unfold State.closeParseType
  rw [if_neg Bool.false_ne_true]
  cases hres : o.tag.isResource with
  | true =>
    have hpop : p.pop.elementStack = o.ref :: opened.flatMap Opened.refs := by
      unfold State.pop
      rw [hstack, Opened.refs, hres]
      rfl
    have hparsed : p.pop.parseElementStack = o.ref :: opened.flatMap Opened.parsed := by
      show p.parseElementStack = _
      rw [hparse, Opened.parsed, Opened.isParsed, hres]
      rfl
    have hfound : p.pop.parseResource = true := by
      unfold State.parseResource
      rw [hpop]
      refine List.any_eq_true.mpr ⟨o.ref, List.mem_cons_self, ?_⟩
      rw [show p.pop.parseTypeOf o.ref = p.parseTypeOf o.ref from rfl,
        parseTypeOf_ref (h.elements o List.mem_cons_self) (exists_ref o)]
      exact hres
    rw [if_pos hfound, hpop]
    dsimp only
    rw [hparsed, if_pos (show (o.ref :: opened.flatMap Opened.parsed).head? = some o.ref from rfl)]
    exact ⟨rfl, rfl⟩
  | false =>
    have hpop : p.pop.elementStack = opened.flatMap Opened.refs := by
      unfold State.pop
      rw [hstack, Opened.refs, hres]
      rfl
    have hparsed : p.pop.parseElementStack = opened.flatMap Opened.parsed := by
      show p.parseElementStack = _
      rw [hparse, Opened.parsed, Opened.isParsed, hres, ho]
      rfl
    split_ifs
    · split
      · rename_i e rest htop
        have hne : p.pop.parseElementStack.head? ≠ some e := by
          rw [hparsed]
          exact top_not_parsed (List.pairwise_cons.mp h.ordered).2 hopened (hpop.symm.trans htop)
        rw [if_neg hne]
        exact ⟨hpop, hparsed⟩
      · exact ⟨hpop, hparsed⟩
    · exact ⟨hpop, hparsed⟩

/-- With the innermost element what was put on the stacks for it is taken away. -/
theorem Stacked.close (h : Stacked p (o :: opened)) (hres : o.tag.isResource = true → inLiteral opened = false)
    (c : Setup) (tag : Bytes) : Stacked (p.pop.closeParseType c p.parseLiteral tag) opened := by
  have hheads := (closeParseType_frame c p.parseLiteral tag p.pop).1
  rw [h.parseLiteral] at hheads ⊢
  cases hlit : inLiteral (o :: opened) with
  | false =>
    rw [hlit] at hheads
    obtain ⟨hstack, hparse⟩ := close_outside c tag h hlit
    exact h.outer hheads hstack hparse
  | true =>
    rw [hlit] at hheads
    have hplain : o.tag.isResource = false := by
      refine Bool.eq_false_iff.mpr fun hr => ?_
      have ho : o.tag.isLiteral = true := (Bool.or_eq_true_iff.mp hlit).resolve_right
        fun hopened => Bool.false_ne_true ((hres hr).symm.trans hopened)
      exact Bool.false_ne_true ((not_resource_of_literal ho).symm.trans hr)
    obtain ⟨hstack, hparse⟩ := close_literal c tag h hplain
    exact h.outer hheads hstack hparse

end Stacks

/-! ## The invariant -/

/-- Descriptions are implied neither inside literals nor for outermost node elements. -/
def Resources : List Opened → Prop
  | [] => True
  | o :: around =>
    (o.tag.isResource = true → inLiteral around = false ∧ isOutermost around o.tag = false) ∧ Resources around

/-- The base around the elements is known to the scopes of the context. -/
def carriedContext (c : Setup) (t : StartTag) (around : List Opened) : Option (Option Resource) :=
  t.context c.uri (baseInForce c around)

/-- What holds between two events. -/
structure Invariant (c : Setup) (p : State) (opened : List Opened) : Prop where
  stacked : Stacked p opened
  base : Scoped c.sSource p.base (scopesOf (fun t _ => t.base) opened)
  lang : Scoped [] p.lang (scopesOf (fun t _ => t.lang) opened)
  context : Scoped none p.context (scopesOf (carriedContext c) opened)
  mode : InMode p.scanMode p.expectElement opened
  resources : Resources opened

section Invariant

variable {c : Setup} {p p' : State} {opened : List Opened} {o : Opened} {t : StartTag}

theorem Invariant.nested (h : Invariant c p opened) : Nested c ⟨p, opened⟩ where
  elements := h.stacked.elements
  elementStack := h.stacked.elementStack
  parseElementStack := h.stacked.parseElementStack.trans (flatMap_parsed opened)
  base := by
    rw [h.base.current, scopesOf_values]
    rfl
  lang := by
    rw [h.lang.current, scopesOf_values]
    rfl
  context := by
    rw [h.context.current, scopesOf_values]
    rfl
  ended hnil := by
    obtain rfl : opened = [] := hnil
    exact ⟨h.stacked.elementStack, h.stacked.parseElementStack, h.mode⟩

theorem invariant_initial (c : Setup) : Invariant c c.initial [] where
  stacked := ⟨fun _ h => absurd h List.not_mem_nil, fun _ h => absurd h List.not_mem_nil, .nil, rfl, rfl⟩
  base := scoped_init
  lang := scoped_init
  context := scoped_init
  mode := rfl
  resources := trivial

/-- The new element is numbered behind the others. -/
theorem Stacked.start {key : Bytes} (h : Stacked p opened) (hs : Started c key t p p') :
    Stacked p' (⟨t, p.elements.length⟩ :: opened) where
  elements b hb := by
    rw [hs.heads]
    rcases List.mem_cons.mp hb with rfl | hb
    · rw [← length_heads, List.drop_left]
    · rw [List.drop_append_of_le_length (h.below b hb).le]
      exact (h.elements b hb).trans (List.prefix_append _ _)
  below b hb := by
    rw [hs.heads, List.length_append]
    rcases List.mem_cons.mp hb with rfl | hb
    · rw [length_heads]
      exact Nat.lt_add_of_pos_right (Nat.succ_pos _)
    · exact (h.below b hb).trans_le (Nat.le_add_right _ _)
  ordered := by
    refine List.pairwise_cons.mpr ⟨fun b hb => ?_, h.ordered⟩
    rw [← length_heads]
    exact h.below b hb
  elementStack := by rw [hs.elementStack, h.elementStack, List.flatMap_cons]
  parseElementStack := by rw [hs.parseElementStack, h.parseElementStack, List.flatMap_cons]

theorem Invariant.startTag (h : Invariant c p opened) (ht : Plain opened t)
    (hs : rdfxmlStartElementHandler c (namesOf opened) t p = .ok p') :
    Invariant c p' (⟨t, p.elements.length⟩ :: opened) := by
  have hlit : (decide (p.scanMode ≠ .skipping) && p.parseLiteral) = inLiteral opened := by
    rw [h.stacked.parseLiteral]
    by_cases hskip : p.scanMode = .skipping
    · rw [show opened = [] from h.mode.eq_nil hskip]
      exact Bool.and_false _
    · rw [decide_eq_true hskip, Bool.true_and]
  unfold rdfxmlStartElementHandler at hs
  dsimp only at hs
  rw [hlit] at hs
  split_ifs at hs with hu hn
  · have hin := ht.named hn.1 hn.2.1
    rw [hin] at hn
    exact absurd hn.2.2 Bool.false_ne_true
  have hkey : (namesOf opened).flatten ++ t.name = keyOf (⟨t, p.elements.length⟩ :: opened) :=
    (keyOf_cons ⟨t, p.elements.length⟩ opened).symm
  rw [hkey] at hs
  have hst := startElement_ok ht.once (fun hr => (ht.resource hr).1) hs
  have hcontext := hst.context
  rw [h.nested.base] at hcontext
  refine ⟨h.stacked.start hst, ?_, ?_, ?_, ?_, ?_⟩
  · rw [hst.base]
    exact h.base.enter (key_not_mem _ ⟨t, p.elements.length⟩ opened)
  · rw [hst.lang]
    exact h.lang.enter (key_not_mem _ ⟨t, p.elements.length⟩ opened)
  · rw [hcontext]
    exact h.context.enter (key_not_mem (carriedContext c) ⟨t, p.elements.length⟩ opened)
  · rw [hst.scanMode, hst.expectElement]
    exact h.mode.start t p.elements.length
  · exact ⟨ht.resource, h.resources⟩

/-- Behind an end tag: the stacks and the mode are those of the elements around, and the scopes are set back. -/
theorem Invariant.outer (h : Invariant c p (o :: opened)) {q : State} (hstacked : Stacked q opened)
    (hbase : q.base = p.base) (hlang : q.lang = p.lang) (hcontext : q.context = p.context) {mode : ScanMode}
    (hmode : InMode mode q.expectElement opened) :
    Invariant c ({ q with scanMode := mode }.setBack ((namesOf opened).flatten ++ o.tag.name)) opened := by
  rw [← keyOf_cons]
  refine ⟨⟨hstacked.elements, hstacked.below, hstacked.ordered, hstacked.elementStack, hstacked.parseElementStack⟩,
    ?_, ?_, ?_, hmode, h.resources.2⟩
  · show Scoped c.sSource (q.base.leave _) _
    rw [hbase]
    exact h.base.leave (key_not_mem _ o opened)
  · show Scoped [] (q.lang.leave _) _
    rw [hlang]
    exact h.lang.leave (key_not_mem _ o opened)
  · show Scoped none (q.context.leave _) _
    rw [hcontext]
    exact h.context.leave (key_not_mem (carriedContext c) o opened)

/-- Walking the tree leaves the stacks and the scopes alone. -/
theorem processExpected_frame (h : p.processExpected c = .ok p') :
    p' = { p with iReificationCounter := p'.iReificationCounter, asserted := p'.asserted } := by
  unfold State.processExpected at h
  split at h
  · split at h
    · obtain rfl := Except.ok.inj h
      rfl
    · exact absurd h (by rintro ⟨⟩)
  · exact absurd h (by rintro ⟨⟩)

/-- Behind an end tag at which a tree is walked. -/
theorem Invariant.walked (h : Invariant c p (o :: opened)) {q : State} (hstacked : Stacked q opened)
    (hbase : q.base = p.base) (hlang : q.lang = p.lang) (hcontext : q.context = p.context) {mode : ScanMode}
    (hmode : InMode mode q.expectElement opened)
    (hs : (do
      let p ← q.processExpected c
      pure ({ p with scanMode := mode }.setBack ((namesOf opened).flatten ++ o.tag.name))) = Except.ok p') :
    Invariant c p' opened := by
  cases hwalk : q.processExpected c with
  | error message =>
    rw [hwalk] at hs
    exact absurd hs (by rintro ⟨⟩)
  | ok q' =>
    rw [hwalk] at hs
    obtain rfl := Except.ok.inj hs
    have hframe := processExpected_frame hwalk
    refine h.outer ?_ ?_ ?_ ?_ ?_
    · rw [hframe]
      exact ⟨hstacked.elements, hstacked.below, hstacked.ordered, hstacked.elementStack, hstacked.parseElementStack⟩
    · rw [hframe]
      exact hbase
    · rw [hframe]
      exact hlang
    · rw [hframe]
      exact hcontext
    · rw [hframe]
      exact hmode

theorem Invariant.endTag (h : Invariant c p (o :: opened))
    (hs : rdfxmlEndElementHandler c (namesOf opened) o.tag.name p = .ok p') : Invariant c p' opened := by
  have hclosed := h.stacked.close (fun hr => (h.resources.1 hr).1) c o.tag.name
  obtain ⟨-, hsame, hroot⟩ := closeParseType_frame c p.parseLiteral o.tag.name p.pop
  have hskip : p.pop.scanMode ≠ .skipping := fun hskip => absurd (h.mode.eq_nil hskip) (by rintro ⟨⟩)
  unfold rdfxmlEndElementHandler at hs
  dsimp only at hs
  rw [if_neg hskip] at hs
  generalize p.pop.closeParseType c p.parseLiteral o.tag.name = q at hs hclosed hsame hroot
  obtain ⟨hbase, hlang, hcontext, hmode, hexpect⟩ := hsame
  replace hmode : q.scanMode = p.scanMode := hmode
  replace hexpect : q.expectElement = p.expectElement := hexpect
  replace hroot : q.root = o.refs.head? := by
    rw [hroot]
    show p.elementStack.head? = _
    rw [h.stacked.elementStack, List.flatMap_cons, List.head?_append]
    unfold Opened.refs
    split_ifs
    all_goals rfl
  have hstop := h.mode.stop
  rw [← hmode, ← hexpect] at hstop
  unfold State.finish at hs
  rcases hstop with ⟨hrdf, hnil⟩ | ⟨hout, hexp, hmodes⟩ | ⟨⟨n, hn, hexp⟩, hmodes, hin⟩
  · -- the end of `rdf:RDF`
    rw [if_pos hrdf] at hs
    obtain rfl := Except.ok.inj hs
    refine h.outer hclosed hbase hlang hcontext ?_
    rw [hnil]
    rfl
  · -- the end of an outermost node element, which implies no description
    have hplain : o.tag.isResource = false := by
      refine Bool.eq_false_iff.mpr fun hr => ?_
      exact Bool.false_ne_true ((h.resources.1 hr).2.symm.trans hout)
    have hsame : q.expectElement = q.root := by
      rw [hexp, hroot, Opened.refs, hplain]
      rfl
    rcases hmodes with ⟨hm, hin⟩ | ⟨hm, hin⟩
    all_goals
      rw [if_neg (by rw [hm]; rintro ⟨⟩), if_neg (not_not.mpr hsame), hm] at hs
      exact h.walked hclosed hbase hlang hcontext hin hs
  · -- the end of an element inside one
    have hne : q.expectElement ≠ q.root := by
      have hlt : n.ref < o.ref := (List.pairwise_cons.mp h.stacked.ordered).1 n hn
      rw [hexp, hroot]
      unfold Opened.refs
      split_ifs
      · exact fun h => absurd (Option.some.inj h) (Nat.ne_of_lt (hlt.trans (Nat.lt_succ_self _)))
      · exact fun h => absurd (Option.some.inj h) (Nat.ne_of_lt hlt)
    rw [if_neg (by rcases hmodes with hm | hm <;> rw [hm] <;> rintro ⟨⟩), if_pos hne] at hs
    obtain rfl := Except.ok.inj hs
    exact h.outer hclosed hbase hlang hcontext hin

theorem heads_addText (l : List TreeElement) (i : ℕ) (text : Bytes) (d : DataElement) :
    (l.modify i fun n => { n with children := addText text d n.children }).map TreeElement.head =
      l.map TreeElement.head :=
  heads_modify (f := fun n => { n with children := addText text d n.children }) (fun _ => rfl) l i

/-- A text changes neither the stacks nor the scopes. -/
theorem Invariant.text (h : Invariant c p opened) (text : Bytes) :
    Invariant c (rdfxmlCharacterDataHandler c text p) opened := by
  have hframe : (rdfxmlCharacterDataHandler c text p).heads = p.heads ∧
      (rdfxmlCharacterDataHandler c text p).elementStack = p.elementStack ∧
      (rdfxmlCharacterDataHandler c text p).parseElementStack = p.parseElementStack ∧
      SameSettings p (rdfxmlCharacterDataHandler c text p) := by
    unfold rdfxmlCharacterDataHandler
    split_ifs
    · exact ⟨rfl, rfl, rfl, ⟨rfl, rfl, rfl, rfl, rfl⟩⟩
    · split
      · exact ⟨heads_addText _ _ _ _, rfl, rfl, ⟨rfl, rfl, rfl, rfl, rfl⟩⟩
      · exact ⟨rfl, rfl, rfl, ⟨rfl, rfl, rfl, rfl, rfl⟩⟩
  obtain ⟨hheads, hstack, hparse, hsame⟩ := hframe
  refine ⟨⟨?_, ?_, h.stacked.ordered, hstack.trans h.stacked.elementStack, hparse.trans h.stacked.parseElementStack⟩,
    ?_, ?_, ?_, ?_, h.resources⟩
  · rw [hheads]
    exact h.stacked.elements
  · rw [hheads]
    exact h.stacked.below
  · rw [hsame.base]
    exact h.base
  · rw [hsame.lang]
    exact h.lang
  · rw [hsame.context]
    exact h.context
  · rw [hsame.scanMode, hsame.expectElement]
    exact h.mode

/-- The invariant holds in every document, as far as it was read. -/
theorem invariant_reached {d : Document} (h : Reached c Plain d) : Invariant c d.state d.opened := by
  induction h with
  | start => exact invariant_initial c
  | startTag _ ht hs ih => exact ih.startTag ht hs
  | endTag _ hs ih => exact ih.endTag hs
  | text text _ ih => exact ih.text text

end Invariant

/-! ## What holds -/

/-- Where the handlers follow every start tag, the stacks hold the open elements after every event, the scopes in force
are those of the innermost open element that carries the attribute, and behind the document nothing is left. -/
theorem nesting_reached {c : Setup} {d : Document} (h : Reached c Plain d) : Nested c d :=
  (invariant_reached h).nested

/-- A parser of texts from `u:`, without handlers for literals. -/
def plainSetup : Setup where
  uri := ⟨fun _ => none, id, fun s _ => s⟩
  sSource := ascii "u:"
  bCreateBags := false
  randSeed := []
  pid := 0
  timestamp := 0
  genidNumber := 0
  startXmlLiteral := none
  stopXmlLiteral := none
  charLiteral := none

/-- `<rdf:RDF>` -/
def rdfTag : StartTag := ⟨some rdfSyntaxNs, ascii "RDF", [], by decide⟩

/-- `<rdf:Description xml:lang="en">` -/
def englishTag : StartTag :=
  ⟨some rdfSyntaxNs, ascii "Description", [⟨some xmlSchema, ascii "lang", ascii "en"⟩], by decide⟩

/-- `<item>` -/
def itemTag : StartTag := ⟨none, ascii "item", [], by decide⟩

theorem plain_rdfTag : Plain [] rdfTag where
  named h := absurd h (by decide)
  resource h := absurd h (by decide)
  once := ⟨by decide, fun a ha => absurd ha List.not_mem_nil, by decide, by decide⟩

theorem plain_englishTag : Plain [⟨rdfTag, 0⟩] englishTag where
  named h := absurd h (by decide)
  resource h := absurd h (by decide)
  once := ⟨by decide, fun a ha hb => by rw [List.mem_singleton.mp ha]; decide, by decide, by decide⟩

/-- In `<rdf:RDF><rdf:Description xml:lang="en">` both elements are open, and the language is English. -/
theorem nesting_english : ∃ d : Document, Reached plainSetup Plain d ∧ Nested plainSetup d ∧
    d.opened = [⟨englishTag, 1⟩, ⟨rdfTag, 0⟩] ∧ langInForce d.opened = ascii "en" := by
  have hrdf : Reached plainSetup Plain ⟨_, [⟨rdfTag, 0⟩]⟩ := .startTag .start plain_rdfTag rfl
  have henglish : Reached plainSetup Plain ⟨_, [⟨englishTag, 1⟩, ⟨rdfTag, 0⟩]⟩ := .startTag hrdf plain_englishTag rfl
  exact ⟨_, henglish, nesting_reached henglish, rfl, by decide⟩

/-- In `<rdf:RDF><item>` the element without a name space is open, and not on the stack. -/
theorem nesting_item : ¬ ∀ (c : Setup) (d : Document), Reached c (fun _ _ => True) d → Nested c d := by
  intro hall
  have hrdf : Reached plainSetup (fun _ _ => True) ⟨_, [⟨rdfTag, 0⟩]⟩ := .startTag .start trivial rfl
  have hitem : Reached plainSetup (fun _ _ => True) ⟨_, [⟨itemTag, 1⟩, ⟨rdfTag, 0⟩]⟩ := .startTag hrdf trivial rfl
  have hstack := (hall plainSetup _ hitem).elementStack
  exact absurd hstack (by decide)

end RdfStore.SiRPAC
