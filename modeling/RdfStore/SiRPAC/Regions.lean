import RdfStore.SiRPAC.Processing

/-!
# Where statements come from

What is asserted while an element is walked is asserted for that element or for one
inside it, and the statements of a property have the subject that the property was
called with.

    Says (fun a => path <:+ a.role.place) (the four functions at path)      (Node.child_spec)
-/

namespace RdfStore.SiRPAC

open ByteMem Emission

/-! ## Places -/

/-- The element that a statement is asserted for. -/
def Role.place : Role → Path
  | .type node => node
  | .property p => p
  | .link p _ => p
  | .list p => p
  | .first p _ => p
  | .rest p => p
  | .reification p => p
  | .bag node => node

/-- Of the statement that a property stands for: the property. -/
def Role.states : Role → Option Path
  | .property p => some p
  | .link p _ => some p
  | .list p => some p
  | _ => none

/-- At a place or inside it. -/
def Inside (path : Path) (a : Assertion) : Prop := path <:+ a.role.place

/-- A statement of the property has the subject. -/
def Subject (x : Expat) (path : Path) (sTarget : Bytes) (a : Assertion) : Prop :=
  a.role.states = some path → orSource x (buildResource sTarget) = some a.statement.subject

theorem Inside.of_suffix {p q : Path} {a : Assertion} (h : p <:+ q) (ha : Inside q a) : Inside p a :=
  List.IsSuffix.trans h ha

theorem suffix_step (s : Step) (p : Path) : p <:+ s :: p := List.suffix_cons s p

/-- A statement from inside a child is not one of the property's own. -/
theorem Inside.not_states {p : Path} {s : Step} {a : Assertion} (h : Inside (s :: p) a) : a.role.states ≠ some p := by
  intro hs
  have hplace : a.role.place = p := by
    cases hr : a.role <;> simp_all [Role.states, Role.place]
  have hle := List.IsSuffix.length_le h
  rw [hplace, List.length_cons] at hle
  omega

/-! ## Assertions -/

variable {x : Expat} {Q : Assertion → Prop}

theorem says_addTriple {role : Role} {predicate subject : Option Resource} {object : Option Object}
    {context : Option Resource}
    (h : ∀ st : Statement, orSource x subject = some st.subject → Q ⟨role, st⟩) :
    Says Q (addTriple x role predicate subject object context) := by
  unfold addTriple
  split
  · exact says_croak _
  · split_ifs
    · exact says_croak _
    · exact says_pure _
    · dsimp only
      split
      · rename_i s o hs ho
        exact says_emit (h _ hs)
      · exact says_pure _

theorem says_newReificationID : Says Q (newReificationID x) :=
  says_bind says_draw fun _ => says_pure _

theorem says_orNew (id : Option Bytes) : Says Q (orNew x id) := by
  cases id with
  | some id => exact says_pure id
  | none => exact says_newReificationID

theorem says_aboutStatement {path : Path} {id : Bytes} {context : Option Resource} {ln : String} {o : Option Object}
    (hr : ∀ st : Statement, Q ⟨.reification path, st⟩) : Says Q (aboutStatement x path id context ln o) :=
  says_addTriple fun st _ => hr st

theorem says_aboutSubject {path : Path} {id : Bytes} {context subject : Option Resource}
    (hr : ∀ st : Statement, Q ⟨.reification path, st⟩) : Says Q (aboutSubject x path id context subject) := by
  cases subject with
  | none => exact says_croak _
  | some subject => exact says_aboutStatement hr

theorem says_reify {role : Role} {path : Path} {predicate subject : Option Resource} {object : Option Object}
    {sNodeID : Option Bytes} {ele : Element}
    (h : ∀ st : Statement, orSource x subject = some st.subject → Q ⟨role, st⟩)
    (hr : ∀ st : Statement, Q ⟨.reification path, st⟩) :
    Says Q (reify x role path predicate subject object sNodeID ele) := by
  unfold reify
  refine says_bind (says_orNew _) fun id => says_bind (says_addTriple h) fun _ => ?_
  refine says_bind (says_aboutStatement hr) fun _ => says_bind (says_aboutSubject hr) fun _ => ?_
  exact says_bind (says_aboutStatement hr) fun _ => says_bind (says_aboutStatement hr) fun _ => says_pure _

theorem says_assertProperty {role : Role} {path : Path} {e : Element} {sID : Option Bytes} {reified : Bool}
    {sTarget : Bytes} {object : Option Object}
    (h : ∀ st : Statement, orSource x (buildResource sTarget) = some st.subject → Q ⟨role, st⟩)
    (hr : ∀ st : Statement, Q ⟨.reification path, st⟩) :
    Says Q (assertProperty x role path e sID reified sTarget object) := by
  unfold assertProperty
  split_ifs
  · exact says_bind (says_reify h hr) fun _ => says_pure _
  · exact says_bind (says_addTriple h) fun _ => says_pure _

/-! ## Properties -/

/-- What a property says, and what is said inside it, satisfies `Q`. -/
structure Accepts (x : Expat) (path : Path) (sTarget : Bytes) (Q : Assertion → Prop) : Prop where
  own : ∀ role st, Role.states role = some path → orSource x (buildResource sTarget) = some st.subject → Q ⟨role, st⟩
  other : ∀ role st, Role.place role = path → role.states = none → Q ⟨role, st⟩
  inner : ∀ s a, Inside (s :: path) a → Q a

theorem place_of_states {role : Role} {path : Path} (h : role.states = some path) : role.place = path := by
  cases role <;> simp_all [Role.states, Role.place]

theorem accepts_inside (x : Expat) (path : Path) (sTarget : Bytes) : Accepts x path sTarget (Inside path) where
  own role st h _ := by
    show path <:+ role.place
    rw [place_of_states h]
  other role st h _ := by
    show path <:+ role.place
    rw [h]
  inner s a h := h.of_suffix (suffix_step s path)

theorem accepts_subject (x : Expat) (path : Path) (sTarget : Bytes) :
    Accepts x path sTarget (Subject x path sTarget) where
  own role st _ hs := fun _ => hs
  other role st _ h := fun hs => by
    rw [h] at hs
    exact absurd hs (Option.some_ne_none path).symm
  inner s a h := fun hs => absurd hs h.not_states

/-- A child stands one step inside, and what it says is said there. -/
def Child.Placed (path : Path) : Child → Prop
  | .data _ => True
  | .element _ q calls =>
    (∃ s, q = s :: path) ∧
    (∀ inPredicate reify createBag, Says (Inside q) (calls.processDescription inPredicate reify createBag)) ∧
    Says (Inside q) calls.processTypedNode ∧ Says (Inside q) calls.processContainer ∧
    ∀ tag sTarget reify, Says (Inside q) (calls.processPredicate tag sTarget reify)

/-- As a property a child has the subject that it is called with. -/
def Child.Stated (x : Expat) : Child → Prop
  | .data _ => True
  | .element _ q calls =>
    ∀ tag sTarget reify, Says (Subject x q sTarget) (calls.processPredicate tag sTarget reify)

section Link

variable {path : Path} {e : Element} {reified : Bool} {st : LinkState}

theorem Accepts.inside {sTarget : Bytes} (h : Accepts x path sTarget Q) {q : Path} (hq : ∃ s, q = s :: path)
    {α : Type} {w : Walk α} (hw : Says (Inside q) w) : Says Q w := by
  obtain ⟨s, rfl⟩ := hq
  exact hw.mono fun a ha => h.inner s a ha

theorem Accepts.assertProperty {sTarget : Bytes} (h : Accepts x path sTarget Q) {role : Role}
    (hrole : role.states = some path) {sID : Option Bytes} {object : Option Object} :
    Says Q (assertProperty x role path e sID reified sTarget object) :=
  says_assertProperty (fun st hs => h.own role st hrole hs) fun st => h.other _ st rfl rfl

theorem Accepts.linkRest {sTarget : Bytes} (h : Accepts x path sTarget Q) {currentID : Bytes} {next : Option Object} :
    Says Q (linkRest x path e currentID next) :=
  says_addTriple fun st _ => h.other _ st rfl rfl

theorem Accepts.linkFirst {sTarget : Bytes} (h : Accepts x path sTarget Q) {q : Path} {collectionID id : Bytes} :
    Says Q (linkFirst x path q e collectionID id) :=
  says_addTriple fun st _ => h.other _ st rfl rfl

theorem Accepts.linkBefore {sTarget : Bytes} (h : Accepts x path sTarget Q) {currentID : Option Bytes}
    {collectionID : Bytes} : Says Q (linkBefore x path e currentID collectionID) := by
  cases currentID with
  | some currentID => exact h.linkRest
  | none => exact says_pure _

theorem Accepts.linkPlain (h : Accepts x path st.sTarget Q) {role : Role} (hrole : role.states = some path)
    {object : Bytes} : Says Q (linkPlain x role e st object) :=
  says_addTriple fun st hs => h.own role st hrole hs

theorem Accepts.linkCell (h : Accepts x path st.sTarget Q) {collectionID : Bytes} :
    Says Q (linkCell x path e st collectionID) := by
  unfold SiRPAC.linkCell
  split
  · exact h.linkRest
  · exact h.linkPlain rfl

theorem Accepts.linkHead (h : Accepts x path st.sTarget Q) {role : Role} (hrole : role.states = some path)
    {object id : Bytes} : Says Q (linkHead x role path e reified st object id) := by
  unfold SiRPAC.linkHead
  split_ifs
  · exact says_bind (h.assertProperty hrole) fun _ => says_pure _
  · exact says_pure _

theorem Accepts.closeList {sTarget : Bytes} (h : Accepts x path sTarget Q) : Says Q (closeList x path e st) := by
  unfold SiRPAC.closeList
  split_ifs
  · exact h.linkRest
  · exact says_pure _

theorem Accepts.linkDescription (h : Accepts x path st.sTarget Q) {n : Element} {q : Path} {calls : Calls}
    (hc : (Child.element n q calls).Placed path) : Says Q (linkDescription x path e reified st n q calls) := by
  obtain ⟨hq, hd, -⟩ := hc
  unfold SiRPAC.linkDescription
  split_ifs
  · refine says_bind (h.inside hq (hd _ _ _)) fun _ => says_bind says_newReificationID fun _ => ?_
    exact says_bind (h.linkHead rfl) fun _ => says_bind h.linkBefore fun _ =>
      says_bind h.linkFirst fun _ => says_pure _
  · exact says_croak _
  · exact says_bind (h.inside hq (hd _ _ _)) fun _ => says_bind (says_orNew _) fun _ =>
      says_bind (h.linkHead rfl) fun _ => says_pure _

theorem Accepts.linkData (h : Accepts x path ((given e.sResource).getD st.sTarget) Q) {only : Bool}
    {d : DataElement} : Says Q (linkData x path e reified only st d) := by
  unfold SiRPAC.linkData
  dsimp only
  split_ifs
  · exact says_croak _
  · exact says_bind (h.assertProperty rfl) fun _ => says_pure _
  · exact says_bind (h.assertProperty rfl) fun _ => says_pure _
  · exact says_pure _

theorem Accepts.linkContainer (h : Accepts x path st.sTarget Q) {n : Element} {q : Path} {calls : Calls}
    (hc : (Child.element n q calls).Placed path) : Says Q (linkContainer x path e reified st q calls) := by
  obtain ⟨hq, -, -, hd, -⟩ := hc
  unfold SiRPAC.linkContainer
  split_ifs
  · exact says_croak _
  · exact says_bind (h.inside hq hd) fun _ => says_bind (h.assertProperty rfl) fun _ => says_pure _

theorem Accepts.linkTypedNode (h : Accepts x path st.sTarget Q) {n : Element} {q : Path} {calls : Calls}
    (hc : (Child.element n q calls).Placed path) : Says Q (linkTypedNode x path e st q calls) := by
  obtain ⟨hq, -, hd, -⟩ := hc
  unfold SiRPAC.linkTypedNode
  split_ifs
  · refine says_bind (h.inside hq hd) fun _ => says_bind says_newReificationID fun _ => ?_
    exact says_bind h.linkCell fun _ => says_bind h.linkFirst fun _ => says_pure _
  · exact says_croak _
  · exact says_bind (h.inside hq hd) fun _ => says_bind (h.linkPlain rfl) fun _ => says_pure _

theorem Accepts.linkChild (h : Accepts x path st.sTarget Q)
    (hr : Accepts x path ((given e.sResource).getD st.sTarget) Q) {only : Bool} {c : Child} (hc : c.Placed path) :
    Says Q (linkChild x path e reified only st c) := by
  cases c with
  | data d => exact hr.linkData
  | element n q calls =>
    simp only [SiRPAC.linkChild]
    split_ifs
    · exact h.linkDescription hc
    · exact h.linkContainer hc
    · exact h.linkTypedNode hc
    · exact says_pure _

/-- The target is the same behind a child, or it is the resource of the property. -/
def SameTarget (e : Element) (st st' : LinkState) : Prop :=
  st'.sTarget = st.sTarget ∨ st'.sTarget = (given e.sResource).getD st.sTarget

theorem linkData_target (x : Expat) (path : Path) (only : Bool) (d : DataElement) :
    Gives (SameTarget e st) (linkData x path e reified only st d) := by
  have target : ∀ (w : LinkState) (o : Option Bytes), (w.reified x o).sTarget = w.sTarget := by
    intro w o
    cases o <;> rfl
  unfold SiRPAC.linkData
  dsimp only
  split_ifs
  · exact gives_croak _
  · exact gives_bind fun o => gives_pure (.inr (target _ o))
  · exact gives_bind fun o => gives_pure (.inr (target _ o))
  · exact gives_pure (.inr rfl)

theorem linkChild_target (x : Expat) (path : Path) (only : Bool) (c : Child) :
    Gives (SameTarget e st) (linkChild x path e reified only st c) := by
  cases c with
  | data d => exact linkData_target x path only d
  | element n q calls =>
    simp only [SiRPAC.linkChild]
    split_ifs
    · unfold SiRPAC.linkDescription
      split_ifs
      · exact gives_bind fun _ => gives_bind fun _ => gives_bind fun _ => gives_bind fun _ =>
          gives_bind fun _ => gives_pure (.inl rfl)
      · exact gives_croak _
      · exact gives_bind fun _ => gives_bind fun _ => gives_bind fun _ => gives_pure (.inl rfl)
    · unfold SiRPAC.linkContainer
      split_ifs
      · exact gives_croak _
      · refine gives_bind fun _ => gives_bind fun o => gives_pure (.inl ?_)
        cases o <;> rfl
    · unfold SiRPAC.linkTypedNode
      split_ifs
      · exact gives_bind fun _ => gives_bind fun _ => gives_bind fun _ => gives_bind fun _ =>
          gives_pure (.inl rfl)
      · exact gives_croak _
      · exact gives_bind fun _ => gives_bind fun _ => gives_pure (.inl rfl)
    · exact gives_pure (.inl rfl)

theorem Accepts.linkPredicate {children : List Child} {sTarget : Bytes} (h : Accepts x path sTarget Q)
    (hr : children = [] ∨ ∀ t, Accepts x path t Q → Accepts x path ((given e.sResource).getD t) Q)
    (hc : ∀ c ∈ children, c.Placed path) {sStatementID described : Option Bytes} :
    Says Q (linkPredicate x path e children sTarget reified sStatementID described) := by
  unfold SiRPAC.linkPredicate
  split
  · exact says_bind (h.assertProperty rfl) fun _ => says_pure _
  · dsimp only
    split_ifs
    · exact says_bind (h.assertProperty rfl) fun _ => says_pure _
    · exact says_bind (h.assertProperty rfl) fun _ => says_pure _
  · rename_i children _ _ hne _
    have hr := hr.resolve_left hne
    refine says_bind ?_ fun st => says_bind ?_ fun _ => says_pure _
    · intro n st m l hruns
      have key := hruns.foldlM_keeps (fun _ k st l => n ≤ k ∧ Accepts x path st.sTarget Q ∧ ∀ a ∈ l, Q a)
        ⟨Nat.le_refl _, h, fun a ha => absurd ha List.not_mem_nil⟩ ?_
      · exact ⟨key.1, key.2.2⟩
      · rintro done c rest hbs k s l₀ s' k' l' ⟨hk, hs, hl⟩ hrun
        have hmem : c ∈ children := hbs ▸ List.mem_append_right done List.mem_cons_self
        obtain ⟨hk', hl'⟩ := hs.linkChild (hr _ hs) (hc c hmem) hrun
        refine ⟨Nat.le_trans hk hk', ?_, fun a ha => ?_⟩
        · rcases linkChild_target x path _ c hrun with ht | ht
          · rw [ht]
            exact hs
          · rw [ht]
            exact hr _ hs
        · rcases List.mem_append.mp ha with ha | ha
          · exact hl a ha
          · exact hl' a ha
    · exact h.closeList

end Link

/-! ## Attributes -/

theorem Expanded.child_placed (x : Expat) (path : Path) (s : Step) (a : Expanded) :
    (a.child x (s :: path)).Placed path := by
  refine ⟨⟨s, rfl⟩, fun _ _ _ => says_croak _, says_croak _, says_croak _, fun tag sTarget reify => ?_⟩
  refine (accepts_inside x (s :: path) sTarget).linkPredicate (.inr fun t _ => accepts_inside x _ _) fun c hc => ?_
  rw [List.mem_singleton.mp hc]
  trivial

theorem Expanded.child_stated (x : Expat) (path : Path) (a : Expanded) (h : given a.e.sResource = none) :
    (a.child x path).Stated x := by
  intro tag sTarget reify
  refine (accepts_subject x path sTarget).linkPredicate (.inr fun t ht => ?_) fun c hc => ?_
  · show Accepts x path ((given a.e.sResource).getD t) _
    rw [h]
    exact ht
  · rw [List.mem_singleton.mp hc]
    trivial

theorem mem_expandedChildren {x : Expat} {path : Path} {i : ℕ} {l : List Expanded} {c : Child}
    (h : c ∈ expandedChildren x path i l) : ∃ k, ∃ a ∈ l, c = a.child x (.child (i + k) :: path) := by
  obtain ⟨k, hk, rfl⟩ := List.mem_mapIdx.mp h
  exact ⟨k, l[k], List.getElem_mem hk, rfl⟩

theorem expandedChildren_placed {x : Expat} {path : Path} {i : ℕ} {l : List Expanded} :
    ∀ c ∈ expandedChildren x path i l, c.Placed path := by
  intro c hc
  obtain ⟨k, a, -, rfl⟩ := mem_expandedChildren hc
  exact a.child_placed x path _

/-! ## Nodes -/

section Describe

variable {path : Path} {e : Element} {children : List Child}

theorem says_memberSubject {st : DescriptionState} : Says Q (memberSubject x e st) := by
  unfold memberSubject
  split
  · exact says_pure _
  · exact says_bind (says_orNew _) fun _ => says_pure _

theorem says_propertySubject {inPredicate : Bool} {st : DescriptionState} :
    Says Q (propertySubject x e inPredicate st) := by
  unfold propertySubject innerSubject topSubject topID
  split_ifs
  · split
    · exact says_pure _
    · exact says_pure _
    · exact says_bind (says_orNew _) fun _ => says_pure _
  · refine says_bind ?_ fun _ => says_pure _
    split
    · exact says_pure _
    · dsimp only
      split_ifs
      · exact says_pure _
      · exact says_orNew _

theorem says_bagProperty {st : DescriptionState} {sChildID : Option Bytes} (h : ∀ st, Q ⟨.bag path, st⟩) :
    Says Q (bagProperty x path e st sChildID) := by
  unfold bagProperty newBag
  split
  · exact says_pure _
  · refine says_bind ?_ fun _ => says_bind (says_addTriple fun st _ => h st) fun _ => says_pure _
    split_ifs
    · exact says_bind (says_orNew _) fun _ => says_bind (says_addTriple fun st _ => h st) fun _ => says_pure _
    · exact says_pure _

/-- What a placed child says as a property. -/
theorem Child.Placed.predicate {n : Element} {q : Path} {calls : Calls} (h : (Child.element n q calls).Placed path)
    (tag sTarget : Bytes) (reify : Bool) : Says (Inside path) (calls.processPredicate tag sTarget reify) := by
  obtain ⟨⟨s, rfl⟩, -, -, -, hp⟩ := h
  exact (hp tag sTarget reify).mono fun a ha => ha.of_suffix (suffix_step s path)

theorem says_describeMember {reify : Bool} {st : DescriptionState} {n : Element} {q : Path} {calls : Calls}
    (hc : (Child.element n q calls).Placed path) : Says (Inside path) (describeMember x e reify st n calls) :=
  says_bind says_memberSubject fun _ => says_bind (hc.predicate _ _ _) fun _ => says_pure _

theorem says_describeProperty {inPredicate reify createBag : Bool} {st : DescriptionState} {n : Element} {q : Path}
    {calls : Calls} (hc : (Child.element n q calls).Placed path) :
    Says (Inside path) (describeProperty x path e inPredicate reify createBag st n calls) := by
  have hbag : ∀ st : Statement, Inside path ⟨.bag path, st⟩ := fun _ => List.suffix_refl path
  unfold describeProperty
  by_cases hl : !inPredicate ∧ n.literalReference
  · rw [if_pos hl]
    exact says_croak _
  · rw [if_neg hl]
    refine says_bind says_propertySubject fun st => says_bind (hc.predicate _ _ _) fun id => ?_
    split_ifs
    · exact says_bagProperty hbag
    · exact says_pure _

theorem says_describeChild {inPredicate reify createBag : Bool} {st : DescriptionState} {c : Child}
    (hc : c.Placed path) : Says (Inside path) (describeChild x path e inPredicate reify createBag st c) := by
  cases c with
  | data d => exact says_pure _
  | element n q calls =>
    simp only [describeChild]
    split_ifs
    · exact says_croak _
    · exact says_describeMember hc
    · exact says_describeProperty hc
    · exact says_pure _

theorem says_processDescription (hc : ∀ c ∈ children, c.Placed path) (inPredicate reify createBag : Bool) :
    Says (Inside path) (processDescription x path e children inPredicate reify createBag) := by
  unfold processDescription
  refine says_bind (says_foldlM (fun st c hmem => says_describeChild ?_) _) fun _ => says_pure _
  rcases List.mem_append.mp hmem with hmem | hmem
  · exact hc c hmem
  · exact expandedChildren_placed c hmem

theorem says_processContainer (hc : ∀ c ∈ children, c.Placed path) :
    Says (Inside path) (processContainer x path e children) := by
  unfold processContainer containerType
  refine says_bind (says_orNew _) fun id => says_bind ?_ fun _ => ?_
  · split
    · exact says_addTriple fun st _ => List.suffix_refl path
    · exact says_pure _
  · dsimp only
    split_ifs
    · exact says_croak _
    · refine says_bind (says_foldlM (fun st c hmem => ?_) _) fun _ => says_pure _
      have hp : c.Placed path := by
        rcases List.mem_append.mp hmem with hmem | hmem
        · exact hc c hmem
        · exact expandedChildren_placed c hmem
      cases c with
      | data d =>
        simp only [containChild]
        split_ifs
        · exact says_croak _
        · exact says_pure _
      | element n q calls =>
        simp only [containChild]
        split_ifs
        all_goals exact says_bind (hp.predicate _ _ _) fun _ => says_pure _

theorem says_processTypedNode (hc : ∀ c ∈ children, c.Placed path) :
    Says (Inside path) (processTypedNode x path e children) := by
  unfold processTypedNode
  split_ifs
  · exact says_croak _
  · refine says_bind (says_orNew _) fun id => says_bind (says_addTriple fun st _ => List.suffix_refl path) fun _ =>
      says_bind (says_processDescription (fun c hmem => ?_) _ _ _) fun _ => says_pure _
    rcases List.mem_append.mp hmem with hmem | hmem
    · exact hc c hmem
    · exact expandedChildren_placed c hmem

/-! ## Properties with attributes -/

theorem Accepts.processPredicate {reified : Bool} {sTarget : Bytes} (h : Accepts x path sTarget Q)
    (hr : children = [] ∨ ∀ t, Accepts x path t Q → Accepts x path ((given e.sResource).getD t) Q)
    (hc : ∀ c ∈ children, c.Placed path) : Says Q (processPredicate x path e children sTarget reified) := by
  unfold SiRPAC.processPredicate
  split
  · exact h.linkPredicate hr hc
  · split_ifs
    · exact says_croak _
    · refine says_bind ?_ fun attributes => says_bind ?_ fun _ => h.linkPredicate hr hc
      · unfold impliedAttributes
        split
        · exact says_pure _
        · exact says_bind (says_orNew _) fun _ => says_pure _
      · exact (says_processDescription expandedChildren_placed _ _ _).mono fun a ha => h.inner _ a ha

end Describe

/-! ## The tree -/

/-- A property refers to a resource only if it is empty. -/
def Node.Lawful : Node → Prop
  | .data _ => True
  | .element e nodes => given e.sResource = none ∨ nodes = []

mutual

/-- What is said of a node of the tree is said in its place. -/
theorem Node.child_placed (x : Expat) (path : Path) (s : Step) : ∀ node : Node, (node.child x (s :: path)).Placed path
  | .data _ => by
    rw [Node.child]
    trivial
  | .element e nodes => by
    have hc := Node.children_placed x (s :: path) 0 nodes
    rw [Node.child]
    refine ⟨⟨s, rfl⟩, fun _ _ _ => says_processDescription hc _ _ _, says_processTypedNode hc,
      says_processContainer hc, fun tag sTarget reify => ?_⟩
    exact (accepts_inside x (s :: path) sTarget).processPredicate (.inr fun t _ => accepts_inside x _ _) hc

theorem Node.children_placed (x : Expat) (path : Path) (i : ℕ) :
    ∀ nodes : List Node, ∀ c ∈ Node.children x path i nodes, c.Placed path
  | [], c, hc => by
    rw [Node.children] at hc
    exact absurd hc List.not_mem_nil
  | node :: nodes, c, hc => by
    rw [Node.children] at hc
    rcases List.mem_cons.mp hc with rfl | hc
    · exact Node.child_placed x path _ node
    · exact Node.children_placed x path (i + 1) nodes c hc

end

/-- The statement of a lawful property has the subject it is called with. -/
theorem Node.child_stated (x : Expat) (path : Path) {node : Node} (h : node.Lawful) : (node.child x path).Stated x := by
  cases node with
  | data d =>
    rw [Node.child]
    trivial
  | element e nodes =>
    rw [Node.child]
    intro tag sTarget reify
    refine (accepts_subject x path sTarget).processPredicate ?_ (Node.children_placed x path 0 nodes)
    rcases h with h | h
    · refine .inr fun t ht => ?_
      show Accepts x path ((given e.sResource).getD t) _
      rw [h]
      exact ht
    · left
      rw [h, Node.children]

end RdfStore.SiRPAC
