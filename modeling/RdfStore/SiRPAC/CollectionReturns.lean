import RdfStore.SiRPAC.CollectionStages

/-!
# A collection fails only in its objects

The parser dies in a statement only when it has no predicate, or neither a subject nor
an object. A property with a known subject and its cells always have both.

    if every object returns, the property returns      (processPredicate_returns)
-/

namespace RdfStore.SiRPAC

open ByteMem Emission

variable {x : Expat} {path : Path} {e : Element} {reified : Bool} {st : LinkState} {p subject : Resource} {sTarget : Bytes}

/-! ## Statements -/

theorem addTriple_returns {role : Role} {r : Resource} {s : Option Resource} {o : Option Object} {context : Option Resource}
    (h : s.isSome = true ∨ o.isSome = true) : Returns (addTriple x role (some r) s o context) := by
  unfold addTriple
  dsimp only
  have hnot : ¬ (s = none ∧ o = none) := by
    rintro ⟨rfl, rfl⟩
    exact h.elim (absurd · Bool.false_ne_true) (absurd · Bool.false_ne_true)
  rw [if_neg hnot]
  split_ifs
  · exact returns_pure _
  · split
    · exact returns_emit _
    · exact returns_pure _

theorem orNew_returns (id : Option Bytes) : Returns (orNew x id) := by
  cases id with
  | some id => exact returns_pure id
  | none => exact returns_bind returns_draw fun _ => returns_pure _

theorem reify_returns {role : Role} {s : Option Resource} {o : Option Object} {sNodeID : Option Bytes}
    (hs : s.isSome = true) (ho : o.isSome = true) : Returns (reify x role path (some p) s o sNodeID e) := by
  obtain ⟨r, rfl⟩ := Option.isSome_iff_exists.mp hs
  unfold reify
  refine returns_bind (orNew_returns _) fun id => returns_bind (addTriple_returns (.inl rfl)) fun _ => ?_
  refine returns_bind (addTriple_returns (.inr rfl)) fun _ => returns_bind (addTriple_returns (.inr rfl)) fun _ => ?_
  exact returns_bind (addTriple_returns (.inr ho)) fun _ => returns_bind (addTriple_returns (.inr rfl)) fun _ =>
    returns_pure _

theorem assertProperty_returns {role : Role} {sID : Option Bytes} {o : Option Object}
    (hp : buildQualified e.sNamespace e.tag = some p) (hs : (buildResource sTarget).isSome = true) (ho : o.isSome = true) :
    Returns (assertProperty x role path e sID reified sTarget o) := by
  unfold assertProperty
  rw [hp]
  split_ifs
  · exact returns_bind (reify_returns hs ho) fun _ => returns_pure _
  · exact returns_bind (addTriple_returns (.inl hs)) fun _ => returns_pure _

/-! ## The objects -/

/-- The object returns, whatever numbers were drawn before. -/
structure ObjectNode.Returns (x : Expat) (o : ObjectNode) : Prop where
  description : o.e.isDescription = true → Emission.Returns (processDescription x o.path o.e (o.children x) true false false)
  container : o.e.isDescription = false → o.e.container.isSome = true →
    Emission.Returns (processContainer x o.path o.e (o.children x))
  typedNode : o.e.isDescription = false → o.e.container = none →
    Emission.Returns (processTypedNode x o.path o.e (o.children x))

/-- A node can be built for the identifier. -/
def Builds (id : Bytes) : Prop := (buildResource id).isSome = true

theorem gives_newReificationID : Gives Builds (newReificationID x) := by
  intro n id m l h
  obtain ⟨rfl, -, -⟩ := runs_newReificationID.mp h
  rw [Builds, buildResource_genid]
  rfl

theorem ObjectNode.Proper.gives_container {o : ObjectNode} (ho : o.Proper x) :
    Gives Builds (processContainer x o.path o.e (o.children x)) := by
  intro n S m l h
  rcases (processContainer_spec ho.identified o.children_placed ho.children_stated h).named with hS | ⟨-, j, -, -, rfl⟩
  · obtain ⟨v, hv, -⟩ := ho.named S hS
    obtain ⟨r, hr, -⟩ := Option.bind_eq_some_iff.mp hv
    rw [Builds, hr]
    rfl
  · rw [Builds, buildResource_genid]
    rfl

theorem resourceOf_isSome {id : Bytes} (h : Builds id) : (resourceOf id).isSome = true := by
  unfold resourceOf
  rw [Option.isSome_map]
  exact h

theorem linkDescription_returns {n : Element} {q : Path} {calls : Calls} (hcol : e.isCollection = true)
    (hp : buildQualified e.sNamespace e.tag = some p) (hs : Builds st.sTarget)
    (hcall : Returns (calls.processDescription true false false)) :
    Returns (linkDescription x path e reified st n q calls) := by
  unfold linkDescription
  rw [if_pos hcol]
  refine returns_bind hcall fun described =>
    returns_bind_of (orNew_returns none) gives_newReificationID fun collectionID hcell => ?_
  refine returns_bind ?_ fun id => returns_bind ?_ fun _ => returns_bind (addTriple_returns (.inl hcell)) fun _ =>
    returns_pure _
  · unfold linkHead
    split_ifs
    · exact returns_bind (assertProperty_returns hp hs (resourceOf_isSome hcell)) fun _ => returns_pure _
    · exact returns_pure _
  · unfold linkBefore
    split
    · exact addTriple_returns (.inr (resourceOf_isSome hcell))
    · exact returns_pure _

theorem linkTypedNode_returns {q : Path} {calls : Calls} (hcol : e.isCollection = true)
    (hp : buildQualified e.sNamespace e.tag = some p) (hcall : Returns calls.processTypedNode) :
    Returns (linkTypedNode x path e st q calls) := by
  unfold linkTypedNode
  rw [if_pos hcol]
  refine returns_bind hcall fun id =>
    returns_bind_of (orNew_returns none) gives_newReificationID fun collectionID hcell => ?_
  refine returns_bind ?_ fun _ => returns_bind (addTriple_returns (.inl hcell)) fun _ => returns_pure _
  unfold linkCell
  split
  · exact addTriple_returns (.inr (resourceOf_isSome hcell))
  · unfold linkPlain
    rw [hp]
    exact addTriple_returns (.inr (resourceOf_isSome hcell))

theorem linkContainer_returns {q : Path} {calls : Calls} (hcol : e.isCollection = true)
    (hp : buildQualified e.sNamespace e.tag = some p) (hs : Builds st.sTarget) (hcall : Returns calls.processContainer)
    (hgives : Gives Builds calls.processContainer) : Returns (linkContainer x path e reified st q calls) := by
  unfold linkContainer
  rw [if_neg]
  · exact returns_bind_of hcall hgives fun container hcontainer =>
      returns_bind (assertProperty_returns hp hs (resourceOf_isSome hcontainer)) fun _ => returns_pure _
  · rintro ⟨-, h⟩
    rw [hcol] at h
    exact absurd h Bool.false_ne_true

theorem linkData_returns {only : Bool} {d : DataElement} (hcol : e.isCollection = true) (hres : given e.sResource = none)
    (hp : buildQualified e.sNamespace e.tag = some p) (hs : Builds st.sTarget) :
    Returns (linkData x path e reified only st d) := by
  unfold linkData
  rw [if_neg, hres]
  · by_cases hsay : (!isBlank d.sContent) = true ∨ only = true
    · rw [if_pos hsay]
      refine returns_bind (assertProperty_returns hp hs ?_) fun _ => returns_pure _
      unfold textObject
      rw [if_pos hcol]
      rfl
    · rw [if_neg hsay]
      exact returns_pure _
  · rintro ⟨-, h, -⟩
    rw [hcol] at h
    exact absurd h Bool.false_ne_true

end RdfStore.SiRPAC
