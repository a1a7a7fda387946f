import RdfStore.SiRPAC.Collections

/-!
# One object of a collection

An object gets a cell, which the property or the cell before is linked to. The
statement that links the property may be reified, if the object is a description.
-/

namespace RdfStore.SiRPAC

open ByteMem Emission

variable {x : Expat} {path : Path} {e : Element} {reified : Bool} {st st' : LinkState} {n m : ℕ} {l : List Assertion}
  {p : Resource}

/-! ## The statement of the property -/

/-- Whether the statement of a property gets an identifier. -/
def Reifies (e : Element) (reified : Bool) : Prop := reified = true ∨ (given e.sID).isSome = true

/-- What becomes of the identifier of a statement: none, the one in `rdf:ID`, or a new one. -/
inductive StatementID (x : Expat) (e : Element) (reified : Bool) (n m : ℕ) : Option Bytes → Option ℕ → Prop
  | none (h : ¬ Reifies e reified) : StatementID x e reified n m .none .none
  | given {id : Bytes} (h : given e.sID = some id) : StatementID x e reified n m (some id) .none
  | new {k : ℕ} (h : given e.sID = .none) (hr : reified = true) (hn : n ≤ k) (hm : k < m) :
      StatementID x e reified n m (some (x.genid k)) (some k)

/-- What is said about a reified statement. -/
structure Reification (x : Expat) (path : Path) (statement : Option Bytes) (l : List Assertion) : Prop where
  about : ∀ a ∈ l, ∃ id, statement = some id ∧ AboutStatement x path id a
  some : ∀ id v, statement = some id → orSource x (buildResource id) = some v → ∃ a ∈ l, AboutStatement x path id a

theorem reification_nil : Reification x path none [] where
  about _ ha := absurd ha List.not_mem_nil
  some _ _ h := absurd h (Option.some_ne_none _).symm

theorem assertProperty_runs {role : Role} {sTarget : Bytes} {object : Option Resource} {r : Option Bytes}
    (hno : e.nodeID = none) (hp : buildQualified e.sNamespace e.tag = some p)
    (h : Runs (assertProperty x role path e e.sID reified sTarget (object.map .resource)) n r m l) :
    ∃ k l₂, l = tripleOf x role p (buildResource sTarget) object e.context ++ l₂ ∧ n ≤ m ∧
      StatementID x e reified n m r k ∧ Reification x path r l₂ := by
  unfold assertProperty at h
  rw [hp] at h
  split_ifs at h with hr
  · obtain ⟨id, k, l₁, l₂, h₁, h₂, rfl⟩ := runs_bind.mp h
    obtain ⟨rfl, rfl, rfl⟩ := runs_pure.mp h₂
    obtain ⟨k₁, k₂, u, l₃, l₄, hid, htriple, hk, rfl, habout, hsome⟩ := reify_runs hno h₁
    obtain ⟨rfl, rfl⟩ := addTriple_runs htriple
    have hreif : Reification x path (some id) l₄ :=
      ⟨fun a ha => ⟨id, rfl, habout a ha⟩, fun id' v hid' hv => by
        rw [← Option.some.inj hid'] at hv ⊢
        exact hsome v hv⟩
    rcases hid with ⟨hgiven, rfl⟩ | ⟨hgiven, rfl, rfl⟩
    · exact ⟨none, l₄, List.append_nil _, hk, .given hgiven, hreif⟩
    · refine ⟨some n, l₄, List.append_nil _, by omega, .new hgiven ?_ (Nat.le_refl _) (by omega), hreif⟩
      rcases hr with hr | hr
      · exact hr
      · rw [hgiven] at hr
        exact absurd hr Bool.false_ne_true
  · obtain ⟨u, k, l₁, l₂, h₁, h₂, rfl⟩ := runs_bind.mp h
    obtain ⟨rfl, rfl, rfl⟩ := runs_pure.mp h₂
    obtain ⟨rfl, rfl⟩ := addTriple_runs h₁
    exact ⟨none, [], rfl, Nat.le_refl _, .none hr, reification_nil⟩

/-! ## The cell -/

/-- The statement that the cell is linked by. -/
def linkOf (x : Expat) (path : Path) (e : Element) (p : Resource) (st : LinkState) (cell : ℕ) : List Assertion :=
  match st.currentID with
  | some currentID => tripleOf x (.rest path) rdfRest (buildResource currentID) (some (x.gen cell)) e.context
  | none => tripleOf x (.list path) p (buildResource st.sTarget) (some (x.gen cell)) e.context

/-- The statement that the cell has its object by. -/
def firstOf (x : Expat) (path q : Path) (e : Element) (cell : ℕ) (id : Bytes) : List Assertion :=
  tripleOf x (.first path q) rdfFirst (some (x.gen cell)) (buildResource id) e.context

theorem linkRest_runs {currentID : Bytes} {cell : ℕ} {u : Unit}
    (h : Runs (linkRest x path e currentID (resourceOf (x.genid cell))) n u m l) :
    n = m ∧ l = tripleOf x (.rest path) rdfRest (buildResource currentID) (some (x.gen cell)) e.context := by
  have h' : Runs (addTriple x (.rest path) (some rdfRest) (buildResource currentID)
    ((some (x.gen cell)).map .resource) e.context) n u m l := h
  exact addTriple_runs h'

theorem linkFirst_runs {q : Path} {cell : ℕ} {id : Bytes} {u : Unit}
    (h : Runs (linkFirst x path q e (x.genid cell) id) n u m l) : n = m ∧ l = firstOf x path q e cell id := by
  have h' : Runs (addTriple x (.first path q) (some rdfFirst) (some (x.gen cell))
    ((buildResource id).map .resource) e.context) n u m l := h
  exact addTriple_runs h'

theorem linkCell_runs {cell : ℕ} {u : Unit} (hp : buildQualified e.sNamespace e.tag = some p)
    (h : Runs (linkCell x path e st (x.genid cell)) n u m l) : n = m ∧ l = linkOf x path e p st cell := by
  unfold linkCell at h
  unfold linkOf
  cases hc : st.currentID with
  | some currentID =>
    rw [hc] at h
    exact linkRest_runs h
  | none =>
    rw [hc] at h
    have h' : Runs (addTriple x (.list path) (some p) (buildResource st.sTarget)
        ((some (x.gen cell)).map .resource) e.context) n u m l := by
      rw [← hp]
      exact h
    exact addTriple_runs h'

/-- The head of the list and the link from the cell before, of which one says nothing. -/
theorem linkHead_runs {cell k : ℕ} {id id' : Bytes} {u : Unit} {l' : List Assertion} (hno : e.nodeID = none)
    (hp : buildQualified e.sNamespace e.tag = some p) (hsID : st.sID = e.sID) (hj : st.j = 0 ↔ st.currentID = none)
    (h : Runs (linkHead x (.list path) path e reified st (x.genid cell) id) n id' k l)
    (h' : Runs (linkBefore x path e st.currentID (x.genid cell)) k u m l') :
    n ≤ m ∧ ∃ statement j l₂, id' = statement.getD id ∧ l ++ l' = linkOf x path e p st cell ++ l₂ ∧
      Reification x path statement l₂ ∧
      (st.currentID = none ∧ StatementID x e reified n m statement j ∨
        st.currentID ≠ none ∧ statement = none ∧ j = none) := by
  unfold linkHead at h
  unfold linkOf
  cases hc : st.currentID with
  | some currentID =>
    rw [if_neg (fun h0 => Option.some_ne_none currentID (hc.symm.trans (hj.mp h0)))] at h
    obtain ⟨rfl, rfl, rfl⟩ := runs_pure.mp h
    rw [hc] at h'
    obtain ⟨rfl, rfl⟩ := linkRest_runs h'
    refine ⟨Nat.le_refl _, none, none, [], rfl, ?_, reification_nil, .inr ⟨Option.some_ne_none _, rfl, rfl⟩⟩
    rw [List.nil_append, List.append_nil]
  | none =>
    rw [if_pos (hj.mpr hc), hsID] at h
    rw [hc] at h'
    obtain ⟨-, rfl, rfl⟩ := runs_pure.mp h'
    obtain ⟨r, k', l₁, l₂, h₁, h₂, rfl⟩ := runs_bind.mp h
    obtain ⟨rfl, rfl, rfl⟩ := runs_pure.mp h₂
    have h₁' : Runs (assertProperty x (.list path) path e e.sID reified st.sTarget
      ((some (x.gen cell)).map .resource)) n r k' l₁ := h₁
    obtain ⟨j, l₃, rfl, hle, hid, hreif⟩ := assertProperty_runs hno hp h₁'
    refine ⟨hle, r, j, l₃, rfl, ?_, hreif, .inl ⟨rfl, hid⟩⟩
    rw [List.append_nil, List.append_nil]

/-! ## One object -/

/-- What an object does: it is called, and gets a cell; the identifier of the statement may take its place. -/
structure ObjectStep (x : Expat) (path : Path) (e : Element) (p : Resource) (reified : Bool) (q : Path) (st : LinkState)
    (n : ℕ) (st' : LinkState) (m : ℕ) (l : List Assertion) (k : ℕ) (id : Bytes) (l₁ : List Assertion)
    (statement : Option Bytes) (j : Option ℕ) : Prop where
  state : st' = st.behind (statement.getD id) (some (x.genid k))
  le : k + 1 ≤ m
  said : ∃ l₂, l = l₁ ++ (linkOf x path e p st k ++ l₂) ++ firstOf x path q e k (statement.getD id) ∧
    Reification x path statement l₂
  statement : StatementID x e reified (k + 1) m statement j ∨ statement = none ∧ j = none

theorem linkTypedNode_step {q : Path} {calls : Calls} (hcol : e.isCollection = true)
    (hp : buildQualified e.sNamespace e.tag = some p) (h : Runs (linkTypedNode x path e st q calls) n st' m l) :
    ∃ id k l₁, Runs calls.processTypedNode n id k l₁ ∧
      ObjectStep x path e p reified q st n st' m l k id l₁ none none := by
  unfold linkTypedNode at h
  rw [if_pos hcol] at h
  obtain ⟨id, k, l₁, l₂, h₁, h₂, rfl⟩ := runs_bind.mp h
  obtain ⟨cell, k', l₃, l₄, h₃, h₄, rfl⟩ := runs_bind.mp h₂
  obtain ⟨rfl, rfl, rfl⟩ := runs_newReificationID.mp h₃
  obtain ⟨u, k₅, l₅, l₆, h₅, h₆, rfl⟩ := runs_bind.mp h₄
  obtain ⟨u', k₇, l₇, l₈, h₇, h₈, rfl⟩ := runs_bind.mp h₆
  obtain ⟨rfl, rfl, rfl⟩ := runs_pure.mp h₈
  obtain ⟨rfl, rfl⟩ := linkCell_runs hp h₅
  obtain ⟨rfl, rfl⟩ := linkFirst_runs h₇
  refine ⟨id, k, l₁, h₁, rfl, Nat.le_refl _, ⟨[], ?_, reification_nil⟩, .inr ⟨rfl, rfl⟩⟩
  rw [List.nil_append, List.append_nil, List.append_nil, List.append_assoc]
  rfl

theorem linkDescription_step {b : Element} {q : Path} {calls : Calls} (hcol : e.isCollection = true)
    (hno : e.nodeID = none) (hp : buildQualified e.sNamespace e.tag = some p) (hsID : st.sID = e.sID)
    (hj : st.j = 0 ↔ st.currentID = none) (h : Runs (linkDescription x path e reified st b q calls) n st' m l) :
    ∃ r k l₁ statement j, Runs (calls.processDescription true false false) n r k l₁ ∧
      ObjectStep x path e p reified q st n st' m l k
        (((given r).or ((given b.sAbout).or b.nodeID)).getD (x.genid k)) l₁ statement j ∧
      (st.currentID = none ∧ StatementID x e reified (k + 1) m statement j ∨
        st.currentID ≠ none ∧ statement = none ∧ j = none) := by
  unfold linkDescription at h
  rw [if_pos hcol] at h
  obtain ⟨r, k, l₁, l₂, h₁, h₂, rfl⟩ := runs_bind.mp h
  obtain ⟨cell, k', l₃, l₄, h₃, h₄, rfl⟩ := runs_bind.mp h₂
  obtain ⟨rfl, rfl, rfl⟩ := runs_newReificationID.mp h₃
  dsimp only at h₄
  obtain ⟨id, k₅, l₅, l₆, h₅, h₆, rfl⟩ := runs_bind.mp h₄
  obtain ⟨u, k₇, l₇, l₈, h₇, h₈, rfl⟩ := runs_bind.mp h₆
  obtain ⟨u', k₉, l₉, l₁₀, h₉, h₁₀, rfl⟩ := runs_bind.mp h₈
  obtain ⟨rfl, rfl, rfl⟩ := runs_pure.mp h₁₀
  obtain ⟨hle, statement, j, l₁₁, rfl, hl, hreif, hstatement⟩ := linkHead_runs hno hp hsID hj h₅ h₇
  obtain ⟨rfl, rfl⟩ := linkFirst_runs h₉
  refine ⟨r, k, l₁, statement, j, h₁, ⟨rfl, hle, ⟨l₁₁, ?_, hreif⟩, ?_⟩, hstatement⟩
  · rw [List.nil_append, List.append_nil, ← hl, List.append_assoc, List.append_assoc]
  · rcases hstatement with ⟨-, h⟩ | ⟨-, h⟩
    · exact .inl h
    · exact .inr h

end RdfStore.SiRPAC
