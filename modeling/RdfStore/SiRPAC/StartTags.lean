import RdfStore.SiRPAC.Handlers

/-!
# What a start tag sets

The loop over the attributes enters the scopes of the element, and leaves its
attributes; the element is then put on the stacks.

    attlist.foldlM (readAttribute c key parseLiteral) st = .ok st' → ReadAll c key attlist st st'    (readAttributes_ok)
-/

namespace RdfStore.SiRPAC

open ByteMem Emission SavedValues

/-! ## What the attributes say -/

/-- The base that the element carries. -/
def StartTag.base (t : StartTag) : Option Bytes := (t.attlist.find? (·.isBase)).map (·.value)

/-- The language that the element carries. -/
def StartTag.lang (t : StartTag) : Option Bytes := (t.attlist.find? (·.isLang)).map (·.value)

/-- The context that an attribute sets against a base. -/
def Attribute.contextValue (u : UriModule) (base : Bytes) (a : Attribute) : Option (Option Resource) :=
  if a.isContext then some (contextResource u base a.value)
  else if a.isContextnodeID then some (contextNode a.value)
  else none

/-- The context that the attributes set, against the base where the attribute stands. -/
def contextIn (u : UriModule) : Bytes → Attlist → Option (Option Resource)
  | _, [] => none
  | base, a :: attlist =>
    (a.contextValue u base).or (contextIn u (if a.isBase then a.value else base) attlist)

/-- The context that the element carries, if the base around it is `base`. -/
def StartTag.context (u : UriModule) (base : Bytes) (t : StartTag) : Option (Option Resource) := contextIn u base t.attlist

/-- The attribute that the loop keeps. -/
def Attribute.kept (a : Attribute) : Option Attribute :=
  if (a.value ≠ [] ∧ a.isBase) ∨ a.isLang ∨ a.isReserved ∨ a.isDatatype then none
  else
    match given a.ns, splitName a.name with
    | some ns, _ => some ⟨some ns, a.name, a.value⟩
    | none, (_, some suffix) => some ⟨some xmlSchema, suffix, a.value⟩
    | none, (_, none) => some ⟨if a.name ∈ unqualified then some rdfSyntaxNs else a.ns, a.name, a.value⟩

/-- The attributes of the element. -/
def StartTag.rdfAttlist (t : StartTag) : Attlist := t.attlist.filterMap Attribute.kept

/-- `rdf:parseType` of the element -/
def StartTag.parseType (t : StartTag) : Option Bytes := getAttributeValue t.rdfAttlist (rdfms "parseType")

/-- An element sets each scope once at most, and the base to something. -/
structure OnceEach (attlist : Attlist) : Prop where
  base : attlist.countP (·.isBase) ≤ 1
  given : ∀ a ∈ attlist, a.isBase = true → a.value ≠ []
  lang : attlist.countP (·.isLang) ≤ 1
  context : attlist.countP (fun a => a.isContext || a.isContextnodeID) ≤ 1

/-! ## One attribute -/

theorem belongs_name {pre schema ln : Bytes} {a : Attribute} (h : a.belongs pre schema ln = true) :
    a.name = pre ++ ascii ":" ++ ln ∨ a.name = schema ++ ln ∨ a.name = ln := by
  unfold Attribute.belongs at h
  simp only [Bool.or_eq_true, Bool.and_eq_true, decide_eq_true_eq] at h
  rcases h with (h | h) | ⟨-, h⟩
  · exact .inl h
  · exact .inr (.inl h)
  · exact .inr (.inr h)

/-- One name does not belong to two schemas. -/
theorem not_belongs {pre schema ln pre' schema' ln' : Bytes} {a : Attribute} (h : a.belongs pre schema ln = true)
    (hne : ∀ n ∈ [pre ++ ascii ":" ++ ln, schema ++ ln, ln], n ∉ [pre' ++ ascii ":" ++ ln', schema' ++ ln', ln']) :
    a.belongs pre' schema' ln' = false := by
  refine Bool.eq_false_iff.mpr fun h' => ?_
  refine hne a.name ?_ ?_
  · simpa only [List.mem_cons, List.not_mem_nil, or_false] using belongs_name h
  · simpa only [List.mem_cons, List.not_mem_nil, or_false] using belongs_name h'

theorem lang_not_base {a : Attribute} (h : a.isLang = true) : a.isBase = false := not_belongs h (by decide)

theorem context_not_scope {a : Attribute} (h : a.isContext = true) :
    a.isBase = false ∧ a.isLang = false ∧ a.isContextnodeID = false :=
  ⟨not_belongs h (by decide), not_belongs h (by decide), not_belongs h (by decide)⟩

theorem contextnodeID_not_scope {a : Attribute} (h : a.isContextnodeID = true) :
    a.isBase = false ∧ a.isLang = false ∧ a.isContext = false :=
  ⟨not_belongs h (by decide), not_belongs h (by decide), not_belongs h (by decide)⟩

/-- The tree, the stacks and the mode are the same. -/
structure SameTree (p p' : State) : Prop where
  elements : p'.elements = p.elements
  elementStack : p'.elementStack = p.elementStack
  parseElementStack : p'.parseElementStack = p.parseElementStack
  scanMode : p'.scanMode = p.scanMode
  expectElement : p'.expectElement = p.expectElement

theorem SameTree.refl (p : State) : SameTree p p := ⟨rfl, rfl, rfl, rfl, rfl⟩

theorem SameTree.trans {p q r : State} (h : SameTree p q) (h' : SameTree q r) : SameTree p r where
  elements := h'.elements.trans h.elements
  elementStack := h'.elementStack.trans h.elementStack
  parseElementStack := h'.parseElementStack.trans h.parseElementStack
  scanMode := h'.scanMode.trans h.scanMode
  expectElement := h'.expectElement.trans h.expectElement

section Attributes

variable {c : Setup} {key : Bytes} {parseLiteral : Bool} {st st' : AttributeState} {a : Attribute} {attlist : Attlist}

/-- What one attribute does. -/
structure ReadOne (c : Setup) (key : Bytes) (a : Attribute) (st st' : AttributeState) : Prop where
  rdfAttlist : st'.rdfAttlist = st.rdfAttlist ++ a.kept.toList
  base : st'.p.base = if a.value ≠ [] ∧ a.isBase then st.p.base.enter key a.value else st.p.base
  lang : st'.p.lang = if a.isLang then st.p.lang.enter key a.value else st.p.lang
  context : st'.p.context = st.p.context.enterOpt key (a.contextValue c.uri st.p.base.current)
  tree : SameTree st.p st'.p

theorem keepAttribute_ok (hk : ¬ ((a.value ≠ [] ∧ a.isBase) ∨ a.isLang ∨ a.isReserved ∨ a.isDatatype))
    (h : keepAttribute parseLiteral st a = .ok st') :
    st'.rdfAttlist = st.rdfAttlist ++ a.kept.toList ∧ st'.p.base = st.p.base ∧ st'.p.lang = st.p.lang ∧
      st'.p.context = st.p.context ∧ SameTree st.p st'.p := by
  unfold keepAttribute at h
  unfold Attribute.kept
  rw [if_neg hk]
  cases hns : given a.ns with
  | some ns =>
    rw [hns] at h
    obtain rfl := Except.ok.inj h
    exact ⟨rfl, rfl, rfl, rfl, .refl _⟩
  | none =>
    rw [hns] at h
    cases hs : splitName a.name with
    | mk pre suffix =>
      rw [hs] at h
      cases suffix with
      | some suffix =>
        dsimp only at h
        split_ifs at h
        obtain rfl := Except.ok.inj h
        exact ⟨rfl, rfl, rfl, rfl, .refl _⟩
      | none =>
        dsimp only at h ⊢
        split_ifs at h with hu hl
        · obtain rfl := Except.ok.inj h
          rw [if_pos hu]
          exact ⟨rfl, rfl, rfl, rfl, ⟨rfl, rfl, rfl, rfl, rfl⟩⟩
        · obtain rfl := Except.ok.inj h
          rw [if_neg hu]
          exact ⟨rfl, rfl, rfl, rfl, .refl _⟩

/-- The two attributes for the context set it once. -/
theorem readContext_spec (c : Setup) (key : Bytes) (st : AttributeState) (a : Attribute) :
    (st.readContext c key a).rdfAttlist = st.rdfAttlist ∧ (st.readContext c key a).p.base = st.p.base ∧
      (st.readContext c key a).p.lang = st.p.lang ∧
      (st.readContext c key a).p.context = st.p.context.enterOpt key (a.contextValue c.uri st.p.base.current) ∧
      SameTree st.p (st.readContext c key a).p := by
  unfold AttributeState.readContext Attribute.contextValue
  by_cases hc : a.isContext
  · rw [if_pos hc, if_pos hc, if_neg (Bool.eq_false_iff.mp (context_not_scope hc).2.2)]
    exact ⟨rfl, rfl, rfl, rfl, ⟨rfl, rfl, rfl, rfl, rfl⟩⟩
  · rw [if_neg hc, if_neg hc]
    by_cases hn : a.isContextnodeID
    · rw [if_pos hn, if_pos hn]
      exact ⟨rfl, rfl, rfl, rfl, ⟨rfl, rfl, rfl, rfl, rfl⟩⟩
    · rw [if_neg hn, if_neg hn]
      exact ⟨rfl, rfl, rfl, rfl, .refl _⟩

theorem contextValue_none {base : Bytes} (hc : a.isContext = false) (hn : a.isContextnodeID = false) :
    a.contextValue c.uri base = none := by
  unfold Attribute.contextValue
  rw [hc, hn]
  rfl

theorem not_context_of_scope (h : a.isBase = true ∨ a.isLang = true) : a.isContext = false ∧ a.isContextnodeID = false := by
  refine ⟨Bool.eq_false_iff.mpr fun hc => ?_, Bool.eq_false_iff.mpr fun hn => ?_⟩
  · obtain ⟨hb, hl, -⟩ := context_not_scope hc
    rcases h with h | h
    · exact Bool.false_ne_true (hb.symm.trans h)
    · exact Bool.false_ne_true (hl.symm.trans h)
  · obtain ⟨hb, hl, -⟩ := contextnodeID_not_scope hn
    rcases h with h | h
    · exact Bool.false_ne_true (hb.symm.trans h)
    · exact Bool.false_ne_true (hl.symm.trans h)

theorem readAttribute_ok (h : readAttribute c key parseLiteral st a = .ok st') : ReadOne c key a st st' := by
  unfold readAttribute at h
  by_cases hb : a.value ≠ [] ∧ a.isBase
  · rw [if_pos hb] at h
    obtain rfl := Except.ok.inj h
    obtain ⟨hc, hn⟩ := not_context_of_scope (.inl hb.2)
    refine ⟨?_, by rw [if_pos hb], ?_, by rw [contextValue_none hc hn]; rfl, ⟨rfl, rfl, rfl, rfl, rfl⟩⟩
    · rw [Attribute.kept, if_pos (.inl hb)]
      exact (List.append_nil _).symm
    · rw [if_neg fun hl => Bool.false_ne_true ((lang_not_base hl).symm.trans hb.2)]
  rw [if_neg hb] at h
  by_cases hl : a.isLang
  · rw [if_pos hl] at h
    obtain rfl := Except.ok.inj h
    obtain ⟨hc, hn⟩ := not_context_of_scope (.inr hl)
    refine ⟨?_, by rw [if_neg hb], by rw [if_pos hl], by rw [contextValue_none hc hn]; rfl, ⟨rfl, rfl, rfl, rfl, rfl⟩⟩
    rw [Attribute.kept, if_pos (.inr (.inl hl))]
    exact (List.append_nil _).symm
  rw [if_neg hl] at h
  dsimp only at h
  obtain ⟨hatt, hbase, hlang, hcontext, htree⟩ := readContext_spec c key st a
  -- the context is set, and the attribute goes on
  by_cases hr : a.isReserved
  · rw [if_pos hr] at h
    obtain rfl := Except.ok.inj h
    refine ⟨?_, by rw [if_neg hb, hbase], by rw [if_neg hl, hlang], hcontext, htree⟩
    rw [hatt, Attribute.kept, if_pos (.inr (.inr (.inl hr)))]
    exact (List.append_nil _).symm
  rw [if_neg hr] at h
  by_cases hd : a.isDatatype
  · rw [if_pos hd] at h
    obtain rfl := Except.ok.inj h
    refine ⟨?_, ?_, ?_, hcontext, htree.trans ⟨rfl, rfl, rfl, rfl, rfl⟩⟩
    · show (st.readContext c key a).rdfAttlist = _
      rw [hatt, Attribute.kept, if_pos (.inr (.inr (.inr hd)))]
      exact (List.append_nil _).symm
    · rw [if_neg hb]
      exact hbase
    · rw [if_neg hl]
      exact hlang
  rw [if_neg hd] at h
  have hk : ¬ ((a.value ≠ [] ∧ a.isBase) ∨ a.isLang ∨ a.isReserved ∨ a.isDatatype) := by
    rintro (h | h | h | h)
    · exact hb h
    · exact hl h
    · exact hr h
    · exact hd h
  obtain ⟨hatt', hbase', hlang', hcontext', htree'⟩ := keepAttribute_ok hk h
  refine ⟨by rw [hatt', hatt], ?_, ?_, hcontext'.trans hcontext, htree.trans htree'⟩
  · rw [if_neg hb, hbase', hbase]
  · rw [if_neg hl, hlang', hlang]

/-! ## All attributes -/

/-- What the loop over the attributes does. -/
structure ReadAll (c : Setup) (key : Bytes) (attlist : Attlist) (st st' : AttributeState) : Prop where
  rdfAttlist : st'.rdfAttlist = st.rdfAttlist ++ attlist.filterMap Attribute.kept
  base : st'.p.base = st.p.base.enterOpt key ((attlist.find? (·.isBase)).map (·.value))
  lang : st'.p.lang = st.p.lang.enterOpt key ((attlist.find? (·.isLang)).map (·.value))
  context : st'.p.context = st.p.context.enterOpt key (contextIn c.uri st.p.base.current attlist)
  tree : SameTree st.p st'.p

theorem OnceEach.tail (h : OnceEach (a :: attlist)) : OnceEach attlist where
  base := (List.Sublist.countP_le (List.sublist_cons_self a attlist)).trans h.base
  given b hb := h.given b (List.mem_cons_of_mem a hb)
  lang := (List.Sublist.countP_le (List.sublist_cons_self a attlist)).trans h.lang
  context := (List.Sublist.countP_le (List.sublist_cons_self a attlist)).trans h.context

/-- Behind the one attribute of a kind there is no other. -/
theorem none_behind {p : Attribute → Bool} (ha : p a = true) (h : (a :: attlist).countP p ≤ 1) :
    ∀ b ∈ attlist, p b = false := by
  rw [List.countP_cons_of_pos ha] at h
  intro b hb
  refine Bool.eq_false_iff.mpr fun hp => ?_
  have hpos := List.countP_pos_iff.mpr ⟨b, hb, hp⟩
  omega

theorem find_none {p : Attribute → Bool} (h : ∀ b ∈ attlist, p b = false) : attlist.find? p = none :=
  List.find?_eq_none.mpr fun b hb => Bool.eq_false_iff.mp (h b hb)

theorem contextIn_none {u : UriModule} (base : Bytes)
    (h : ∀ b ∈ attlist, (b.isContext || b.isContextnodeID) = false) : contextIn u base attlist = none := by
  induction attlist generalizing base with
  | nil => rfl
  | cons b attlist ih =>
    have hb := Bool.or_eq_false_iff.mp (h b List.mem_cons_self)
    rw [contextIn, Attribute.contextValue, hb.1, hb.2]
    exact ih _ fun b' hb' => h b' (List.mem_cons_of_mem b hb')

theorem current_enterOpt {κ α : Type} [DecidableEq κ] (s : Saved κ α) (k : κ) (v : Option α) :
    (s.enterOpt k v).current = v.getD s.current := by
  cases v with
  | none => rfl
  | some a => rfl

theorem ReadOne.current (h : ReadOne c key a st st') (ha : a.isBase = true → a.value ≠ []) :
    st'.p.base.current = if a.isBase then a.value else st.p.base.current := by
  rw [h.base]
  by_cases hb : a.isBase
  · rw [if_pos ⟨ha hb, hb⟩, if_pos hb]
    rfl
  · rw [if_neg fun h => hb h.2, if_neg hb]

/-- A scope that is set by the first attribute, or by one behind it. -/
theorem enterOpt_or {α : Type} (s : Saved Bytes α) (v w : Option α) (h : v = none ∨ w = none) :
    (s.enterOpt key v).enterOpt key w = s.enterOpt key (v.or w) := by
  rcases h with rfl | rfl
  · rw [Option.none_or]
    rfl
  · rw [Option.or_none]
    rfl

theorem find_value_cons (p : Attribute → Bool) :
    ((a :: attlist).find? p).map (·.value) =
      (if p a then some a.value else none).or ((attlist.find? p).map (·.value)) := by
  by_cases hp : p a
  · rw [List.find?_cons_of_pos hp, if_pos hp]
    rfl
  · rw [List.find?_cons_of_neg hp, if_neg hp]
    rfl

/-- Where the first attribute is of a kind, the others set nothing. -/
theorem one_or_other {p : Attribute → Bool} (h : (a :: attlist).countP p ≤ 1) :
    (if p a then some a.value else none) = none ∨ (attlist.find? p).map (·.value) = none := by
  by_cases hp : p a
  · right
    rw [find_none (none_behind hp h)]
    rfl
  · exact .inl (if_neg hp)

theorem ReadOne.append (h : ReadOne c key a st st') (ho : OnceEach (a :: attlist)) {st'' : AttributeState}
    (h' : ReadAll c key attlist st' st'') : ReadAll c key (a :: attlist) st st'' := by
  have ha := ho.given a List.mem_cons_self
  refine ⟨?_, ?_, ?_, ?_, h.tree.trans h'.tree⟩
  · rw [h'.rdfAttlist, h.rdfAttlist, List.append_assoc]
    congr 1
    cases hk : a.kept with
    | none => rw [List.filterMap_cons_none hk]; rfl
    | some b => rw [List.filterMap_cons_some hk]; rfl
  · rw [h'.base, find_value_cons, ← enterOpt_or _ _ _ (one_or_other ho.base)]
    congr 1
    rw [h.base]
    by_cases hb : a.isBase
    · rw [if_pos ⟨ha hb, hb⟩, if_pos hb]
      rfl
    · rw [if_neg fun h => hb h.2, if_neg hb]
      rfl
  · rw [h'.lang, find_value_cons, ← enterOpt_or _ _ _ (one_or_other ho.lang)]
    congr 1
    rw [h.lang]
    by_cases hl : a.isLang
    · rw [if_pos hl, if_pos hl]
      rfl
    · rw [if_neg hl, if_neg hl]
      rfl
  · rw [h'.context, h.context, h.current ha, contextIn]
    refine enterOpt_or _ _ _ ?_
    by_cases hc : (a.isContext || a.isContextnodeID) = true
    · exact .inr (contextIn_none _ (none_behind (p := fun a => a.isContext || a.isContextnodeID) hc ho.context))
    · have hc := Bool.or_eq_false_iff.mp (Bool.eq_false_iff.mpr hc)
      exact .inl (contextValue_none hc.1 hc.2)

/-- The loop over the attributes enters each scope once at most, and collects the attributes of the element. -/
theorem readAttributes_ok (ho : OnceEach attlist)
    (h : attlist.foldlM (readAttribute c key parseLiteral) st = .ok st') : ReadAll c key attlist st st' := by
  induction attlist generalizing st with
  | nil =>
    obtain rfl := Except.ok.inj h
    exact ⟨(List.append_nil _).symm, rfl, rfl, rfl, .refl _⟩
  | cons a attlist ih =>
    rw [List.foldlM_cons] at h
    cases hone : readAttribute c key parseLiteral st a with
    | error message =>
      rw [hone] at h
      exact absurd h (by rintro ⟨⟩)
    | ok st₁ =>
      rw [hone] at h
      exact (readAttribute_ok hone).append ho (ih ho.tail h)

end Attributes

/-! ## Open elements -/

def StartTag.isResource (t : StartTag) : Bool := t.parseType = some (ascii "Resource")

def StartTag.isLiteral (t : StartTag) : Bool := isLiteralType t.parseType

/-- An open element: its start tag, and the number of the element that was made for it. -/
structure Opened where
  tag : StartTag
  ref : ℕ

/-- The elements on the stack for an open element: with `rdf:parseType="Resource"` there is an implied description. -/
def Opened.refs (o : Opened) : List ℕ := if o.tag.isResource then [o.ref + 1, o.ref] else [o.ref]

/-- The elements that `parseElementStack` is for. -/
def Opened.isParsed (o : Opened) : Bool := o.tag.isResource || o.tag.isLiteral

/-- The name space, the tag and the attributes of an element. -/
def TreeElement.head (n : TreeElement) : Option Bytes × Bytes × Attlist :=
  (n.element.sNamespace, n.element.tag, n.element.attlist)

def State.heads (p : State) : List (Option Bytes × Bytes × Attlist) := p.elements.map TreeElement.head

/-- The elements that are made for a start tag. -/
def StartTag.heads (t : StartTag) : List (Option Bytes × Bytes × Attlist) :=
  (t.qualified.1, t.qualified.2, t.rdfAttlist) ::
    if t.isResource then [(none, rdfms "Description", t.rdfAttlist)] else []

theorem heads_make (p : State) (e : Element) : (p.make e).heads = p.heads ++ [(e.sNamespace, e.tag, e.attlist)] := by
  unfold State.heads State.make
  rw [List.map_append]
  rfl

theorem length_heads (p : State) : p.heads.length = p.elements.length := List.length_map _

/-- What hangs on an element does not change it. -/
theorem heads_modify {f : TreeElement → TreeElement} (hf : ∀ n, (f n).head = n.head) (l : List TreeElement) (i : ℕ) :
    (l.modify i f).map TreeElement.head = l.map TreeElement.head := by
  refine List.ext_getElem? fun j => ?_
  rw [List.getElem?_map, List.getElem?_map, List.getElem?_modify]
  cases l[j]? with
  | none => rfl
  | some n =>
    show some (TreeElement.head (if i = j then f n else n)) = some n.head
    split_ifs
    · rw [hf]
    · rfl

theorem heads_hang (p : State) (ref : ℕ) (n : Content) : (p.hang ref n).heads = p.heads :=
  heads_modify (f := fun e => { e with children := e.children ++ [n] }) (fun _ => rfl) p.elements ref

/-- The scopes and the mode are the same. -/
structure SameSettings (p p' : State) : Prop where
  base : p'.base = p.base
  lang : p'.lang = p.lang
  context : p'.context = p.context
  scanMode : p'.scanMode = p.scanMode
  expectElement : p'.expectElement = p.expectElement

theorem SameSettings.trans {p q r : State} (h : SameSettings p q) (h' : SameSettings q r) : SameSettings p r where
  base := h'.base.trans h.base
  lang := h'.lang.trans h.lang
  context := h'.context.trans h.context
  scanMode := h'.scanMode.trans h.scanMode
  expectElement := h'.expectElement.trans h.expectElement

/-- With new elements and other stacks, and everything else as before. -/
structure Places (p p' : State) (heads : List (Option Bytes × Bytes × Attlist)) (elementStack parseElementStack : List ℕ) :
    Prop where
  heads : p'.heads = p.heads ++ heads
  elementStack : p'.elementStack = elementStack
  parseElementStack : p'.parseElementStack = parseElementStack
  settings : SameSettings p p'

theorem hangOnTop_places (p : State) (ref : ℕ) : Places p (p.hangOnTop ref) [] p.elementStack p.parseElementStack := by
  unfold State.hangOnTop
  split
  · refine ⟨?_, rfl, rfl, ⟨rfl, rfl, rfl, rfl, rfl⟩⟩
    rw [heads_hang, List.append_nil]
  · exact ⟨(List.append_nil _).symm, rfl, rfl, ⟨rfl, rfl, rfl, rfl, rfl⟩⟩

theorem make_hangOnTop_places (p : State) (e : Element) (ref : ℕ) :
    Places p ((p.make e).hangOnTop ref) [(e.sNamespace, e.tag, e.attlist)] p.elementStack p.parseElementStack := by
  obtain ⟨hheads, hstack, hparse, hsame⟩ := hangOnTop_places (p.make e) ref
  refine ⟨?_, hstack, hparse, ⟨hsame.base, hsame.lang, hsame.context, hsame.scanMode, hsame.expectElement⟩⟩
  rw [hheads, heads_make, List.append_nil]

section Start

variable {c : Setup} {key : Bytes} {parseLiteral : Bool} {t : StartTag} {p p' : State} {st : AttributeState}

theorem identify_ok {e e' : Element} (h : identify c st e = .ok e') :
    e'.sNamespace = e.sNamespace ∧ e'.tag = e.tag ∧ e'.attlist = e.attlist := by
  unfold identify at h
  dsimp only at h
  split_ifs at h
  obtain rfl := Except.ok.inj h
  exact ⟨rfl, rfl, rfl⟩

theorem placeElement_places (setScanModeElement : Bool) (e : Element) :
    Places p (p.placeElement setScanModeElement e) [(e.sNamespace, e.tag, e.attlist)]
      (p.elements.length :: p.elementStack) p.parseElementStack := by
  unfold State.placeElement
  cases setScanModeElement with
  | true => exact ⟨heads_make p e, rfl, rfl, ⟨rfl, rfl, rfl, rfl, rfl⟩⟩
  | false =>
    obtain ⟨hheads, hstack, hparse, hsame⟩ := make_hangOnTop_places p e p.elements.length
    refine ⟨hheads, ?_, hparse, hsame.trans ⟨rfl, rfl, rfl, rfl, rfl⟩⟩
    show p.elements.length :: ((p.make e).hangOnTop p.elements.length).elementStack = _
    rw [hstack]

theorem implyDescription_places (e : Element) :
    Places p (p.implyDescription e) [(none, rdfms "Description", e.attlist)] (p.elements.length :: p.elementStack)
      p.parseElementStack := by
  unfold State.implyDescription
  obtain ⟨hheads, hstack, hparse, hsame⟩ := make_hangOnTop_places p (Element.new none (rdfms "Description") e.attlist
    (some p.lang.current) p.datatype p.context.current) p.elements.length
  refine ⟨hheads, ?_, hparse, hsame.trans ⟨rfl, rfl, rfl, rfl, rfl⟩⟩
  show p.elements.length :: ((p.make _).hangOnTop p.elements.length).elementStack = _
  rw [hstack]

/-- The elements that `parseElementStack` gets for a start tag. -/
def Opened.parsed (o : Opened) : List ℕ := if o.isParsed then [o.ref] else []

theorem isResource_of_eq {v : Bytes} (h : t.parseType = some v) (hv : v ≠ ascii "Resource") : t.isResource = false := by
  refine Bool.eq_false_iff.mpr fun hr => hv ?_
  exact Option.some.inj (h.symm.trans (of_decide_eq_true hr))

theorem not_resource_of_literal (h : t.isLiteral = true) : t.isResource = false := by
  refine Bool.eq_false_iff.mpr fun hr => ?_
  rw [StartTag.isLiteral, of_decide_eq_true hr] at h
  exact absurd h (by decide)

/-- What is placed for an element that is neither parsed nor implies a description. -/
theorem places_plain {q : State} (hres : t.isResource = false) (hlit : t.isLiteral = false)
    (h : Places p q [(t.qualified.1, t.qualified.2, t.rdfAttlist)] (p.elements.length :: p.elementStack)
      p.parseElementStack) :
    Places p q t.heads ((Opened.mk t p.elements.length).refs ++ p.elementStack)
      ((Opened.mk t p.elements.length).parsed ++ p.parseElementStack) := by
  unfold StartTag.heads Opened.refs Opened.parsed Opened.isParsed
  rw [hres, hlit]
  exact h

/-- With `rdf:parseType="Resource"` the element must not stand inside a literal. -/
theorem place_places {e : Element} (setScanModeElement : Bool)
    (he : (e.sNamespace, e.tag, e.attlist) = (t.qualified.1, t.qualified.2, t.rdfAttlist))
    (hr : t.isResource = true → parseLiteral = false) :
    Places p (p.place c t parseLiteral setScanModeElement e) t.heads
      ((Opened.mk t p.elements.length).refs ++ p.elementStack)
      ((Opened.mk t p.elements.length).parsed ++ p.parseElementStack) := by
  have htype : getAttributeValue e.attlist (rdfms "parseType") = t.parseType := by
    rw [show e.attlist = t.rdfAttlist from congrArg (·.2.2) he]
    rfl
  unfold State.place
  dsimp only
  rw [htype]
  by_cases hl : isLiteralType t.parseType
  · rw [if_pos hl]
    obtain ⟨hheads, hstack, hparse, hsame⟩ := make_hangOnTop_places p e p.elements.length
    rw [he] at hheads
    unfold StartTag.heads Opened.refs Opened.parsed Opened.isParsed
    rw [not_resource_of_literal hl, show t.isLiteral = true from hl]
    refine ⟨hheads, ?_, ?_, hsame.trans ⟨rfl, rfl, rfl, rfl, rfl⟩⟩
    · show p.elements.length :: ((p.make e).hangOnTop p.elements.length).elementStack = _
      rw [hstack]
      rfl
    · show p.elements.length :: ((p.make e).hangOnTop p.elements.length).parseElementStack = _
      rw [hparse]
      rfl
  rw [if_neg hl]
  have hlit : t.isLiteral = false := Bool.eq_false_iff.mpr hl
  by_cases hp : parseLiteral
  · rw [if_pos hp]
    have hres : t.isResource = false := Bool.eq_false_iff.mpr fun h => Bool.false_ne_true ((hr h).symm.trans hp)
    refine places_plain hres hlit ⟨?_, rfl, rfl, ⟨rfl, rfl, rfl, rfl, rfl⟩⟩
    rw [← he]
    exact heads_make p e
  rw [if_neg hp]
  have hplaced := placeElement_places (p := p) setScanModeElement
    { e with isCollection := t.parseType = some (ascii "Collection") }
  replace hplaced : Places p _ [(e.sNamespace, e.tag, e.attlist)] _ _ := hplaced
  rw [he] at hplaced
  by_cases hcoll : t.parseType = some (ascii "Collection")
  · rw [if_pos hcoll]
    refine places_plain (isResource_of_eq hcoll (by decide)) hlit ?_
    obtain ⟨hheads, hstack, hparse, hsame⟩ := hplaced
    exact ⟨hheads, hstack, hparse, hsame.trans ⟨rfl, rfl, rfl, rfl, rfl⟩⟩
  rw [if_neg hcoll]
  by_cases hres : t.parseType = some (ascii "Resource")
  · rw [if_pos hres]
    generalize p.placeElement setScanModeElement { e with isCollection := t.parseType = some (ascii "Collection") } = q
      at hplaced ⊢
    obtain ⟨hheads, hstack, hparse, hsame⟩ := hplaced
    have hlen : q.elements.length = p.elements.length + 1 := by
      rw [← length_heads, hheads, List.length_append, length_heads]
      rfl
    obtain ⟨hheads', hstack', hparse', hsame'⟩ := implyDescription_places
      (p := { q with parseElementStack := p.elements.length :: q.parseElementStack, sLiteral := [] })
      { e with isCollection := t.parseType = some (ascii "Collection") }
    unfold StartTag.heads Opened.refs Opened.parsed Opened.isParsed
    rw [show t.isResource = true from decide_eq_true hres]
    refine ⟨?_, ?_, ?_, hsame.trans ⟨hsame'.base, hsame'.lang, hsame'.context, hsame'.scanMode, hsame'.expectElement⟩⟩
    · refine hheads'.trans ?_
      show q.heads ++ [(none, rdfms "Description", e.attlist)] = _
      rw [hheads, List.append_assoc, show e.attlist = t.rdfAttlist from congrArg (·.2.2) he]
      rfl
    · refine hstack'.trans ?_
      show q.elements.length :: q.elementStack = _
      rw [hlen, hstack]
      rfl
    · refine hparse'.trans ?_
      show p.elements.length :: q.parseElementStack = _
      rw [hparse]
      rfl
  · rw [if_neg hres]
    exact places_plain (decide_eq_false hres) hlit hplaced

/-- The name of an element with the name space in front. -/
def StartTag.fullName (t : StartTag) : Bytes := t.qualified.1.getD [] ++ t.qualified.2

/-- What a start tag with a name that is allowed does. -/
structure Started (c : Setup) (key : Bytes) (t : StartTag) (p p' : State) : Prop where
  heads : p'.heads = p.heads ++ t.heads
  elementStack : p'.elementStack = (Opened.mk t p.elements.length).refs ++ p.elementStack
  parseElementStack : p'.parseElementStack = (Opened.mk t p.elements.length).parsed ++ p.parseElementStack
  base : p'.base = p.base.enterOpt key t.base
  lang : p'.lang = p.lang.enterOpt key t.lang
  context : p'.context = p.context.enterOpt key (t.context c.uri p.base.current)
  scanMode : p'.scanMode = (p.enterMode t.fullName).1.scanMode
  expectElement : p'.expectElement =
    if (p.enterMode t.fullName).2 then some p.elements.length else p.expectElement

theorem enterMode_frame (name : Bytes) :
    (p.enterMode name).1 = { p with scanMode := (p.enterMode name).1.scanMode } := by
  unfold State.enterMode
  split
  all_goals rfl

theorem startElement_ok (ho : OnceEach t.attlist) (hr : t.isResource = true → parseLiteral = false)
    (h : startElement c key parseLiteral t p = .ok p') : Started c key t p p' := by
  unfold startElement at h
  dsimp only at h
  rw [show t.qualified.1.getD [] ++ t.qualified.2 = t.fullName from rfl] at h
  cases hread : t.attlist.foldlM (readAttribute c key parseLiteral) ⟨(p.enterMode t.fullName).1, [], 0, 0, 0⟩ with
  | error message =>
    rw [hread] at h
    exact absurd h (by rintro ⟨⟩)
  | ok st =>
    rw [hread] at h
    obtain ⟨hatt, hbase, hlang, hcontext, htree⟩ := readAttributes_ok ho hread
    rw [enterMode_frame] at hbase hlang hcontext htree
    obtain ⟨helements, hstack, hparse, hmode, hexpect⟩ := htree
    replace h : (identify c st _ >>= _) = Except.ok p' := h
    cases hident : identify c st (Element.new t.qualified.1 t.qualified.2 st.rdfAttlist (some st.p.lang.current)
        st.p.datatype st.p.context.current) with
    | error message =>
      rw [hident] at h
      exact absurd h (by rintro ⟨⟩)
    | ok e =>
      rw [hident] at h
      obtain rfl := Except.ok.inj h
      obtain ⟨hns, htag, hatt'⟩ := identify_ok hident
      have he : (e.sNamespace, e.tag, e.attlist) = (t.qualified.1, t.qualified.2, t.rdfAttlist) := by
        rw [hns, htag, hatt']
        show (_, _, st.rdfAttlist) = _
        rw [hatt]
        rfl
      obtain ⟨q, hq⟩ : ∃ q, q = if (p.enterMode t.fullName).2 then
        { st.p with expectElement := some st.p.elements.length } else st.p := ⟨_, rfl⟩
      have hsame : q.elements = p.elements ∧ q.elementStack = p.elementStack ∧
          q.parseElementStack = p.parseElementStack ∧ SameSettings { st.p with expectElement := q.expectElement } q := by
        rw [hq]
        split_ifs
        all_goals exact ⟨helements, hstack, hparse, ⟨rfl, rfl, rfl, rfl, rfl⟩⟩
      obtain ⟨hqe, hqs, hqp, hqsame⟩ := hsame
      have hexpect' : q.expectElement =
          if (p.enterMode t.fullName).2 then some p.elements.length else p.expectElement := by
        rw [hq]
        split_ifs
        · rw [← show st.p.elements = p.elements from helements]
        · exact hexpect
      have hplaced := place_places (c := c) (p := q) (p.enterMode t.fullName).2 he hr
      rw [hqe, hqs, hqp] at hplaced
      rw [← hq]
      refine ⟨?_, hplaced.elementStack, hplaced.parseElementStack, ?_, ?_, ?_, ?_, ?_⟩
      · rw [hplaced.heads, State.heads, hqe]
        rfl
      · exact (hplaced.settings.base.trans hqsame.base).trans hbase
      · exact (hplaced.settings.lang.trans hqsame.lang).trans hlang
      · exact (hplaced.settings.context.trans hqsame.context).trans hcontext
      · exact (hplaced.settings.scanMode.trans hqsame.scanMode).trans hmode
      · exact hplaced.settings.expectElement.trans hexpect'

end Start

end RdfStore.SiRPAC
