import RdfStore.SiRPAC.CollectionSteps

/-!
# How many statements a collection asserts

A description or a typed node adds two statements of the property's own, a container
one, and the end of the list one. A list of `n` objects has `2 n + 1` statements, so
that with a container among the objects there are too few.

    at most as many own statements as the objects weigh, and one        (own_length_le)
-/

namespace RdfStore.SiRPAC

open ByteMem Emission

/-! ## Bounds -/

/-- Of what is said at most so many statements are the property's own. -/
def Owns (path : Path) (b : ℕ) {α : Type} (w : Walk α) : Prop :=
  ∀ ⦃n a m l⦄, Runs w n a m l → (own path l).length ≤ b

variable {x : Expat} {path : Path} {e : Element} {reified : Bool} {st : LinkState} {α β : Type} {b c : ℕ}

theorem Owns.mono {w : Walk α} (h : Owns path b w) (hbc : b ≤ c) : Owns path c w :=
  fun _ _ _ _ hr => (h hr).trans hbc

theorem owns_pure (a : α) : Owns path b (pure a : Walk α) := by
  intro n a m l h
  obtain ⟨-, -, rfl⟩ := runs_pure.mp h
  exact Nat.zero_le _

theorem owns_croak (d : Bytes) : Owns path b (croak d : Walk α) := by
  intro n a m l h
  exact absurd h runs_croak.mp

theorem owns_bind {w : Walk α} {f : α → Walk β} (hw : Owns path b w) (hf : ∀ a, Owns path c (f a)) :
    Owns path (b + c) (w >>= f) := by
  intro n a m l h
  obtain ⟨a', k, l₁, l₂, h₁, h₂, rfl⟩ := runs_bind.mp h
  rw [own_append, List.length_append]
  exact Nat.add_le_add (hw h₁) (hf a' h₂)

/-- Nothing is the property's own. -/
theorem owns_none {w : Walk α} (h : Says (fun a => a.isOwn path = false) w) : Owns path 0 w := by
  intro n a m l hr
  rw [own_eq_nil (h hr).2]
  exact Nat.le_refl _

theorem owns_inside {q : Path} (hq : ∃ s, q = s :: path) {w : Walk α} (h : Says (Inside q) w) : Owns path 0 w := by
  obtain ⟨s, rfl⟩ := hq
  intro n a m l hr
  rw [own_inside (h hr).2]
  exact Nat.le_refl _

theorem owns_addTriple (role : Role) (predicate subject : Option Resource) (object : Option Object)
    (context : Option Resource) : Owns path 1 (addTriple x role predicate subject object context) := by
  intro n u m l h
  have hlen : l.length ≤ 1 := by
    unfold addTriple at h
    split at h
    · exact absurd h runs_croak.mp
    · split_ifs at h
      · exact absurd h runs_croak.mp
      · obtain ⟨-, -, rfl⟩ := runs_pure.mp h
        exact Nat.zero_le _
      · dsimp only at h
        split at h
        · obtain ⟨-, rfl⟩ := runs_emit.mp h
          exact Nat.le_refl _
        · obtain ⟨-, -, rfl⟩ := runs_pure.mp h
          exact Nat.zero_le _
  unfold own
  rw [List.length_map]
  exact (List.length_filter_le _ _).trans hlen

/-- What is said about a statement is not the property's own. -/
theorem not_isOwn_reification (st : Statement) : (⟨.reification path, st⟩ : Assertion).isOwn path = false :=
  decide_eq_false fun h => h.2 rfl

theorem owns_reify {role : Role} {predicate subject : Option Resource} {object : Option Object}
    {sNodeID : Option Bytes} : Owns path 1 (reify x role path predicate subject object sNodeID e) := by
  unfold reify
  have habout : ∀ id ln o, Owns path 0 (aboutStatement x path id e.context ln o) := fun id ln o =>
    owns_none (says_aboutStatement not_isOwn_reification)
  refine (owns_bind (owns_none (says_orNew _)) fun id => owns_bind (owns_addTriple _ _ _ _ _) fun _ =>
    owns_bind (habout _ _ _) fun _ => owns_bind (owns_none (says_aboutSubject not_isOwn_reification)) fun _ =>
      owns_bind (habout _ _ _) fun _ => owns_bind (habout _ _ _) fun _ => (owns_pure _ : Owns path 0 _)).mono ?_
  exact Nat.le_refl _

theorem owns_assertProperty {role : Role} {sID : Option Bytes} {sTarget : Bytes} {object : Option Object} :
    Owns path 1 (assertProperty x role path e sID reified sTarget object) := by
  unfold assertProperty
  split_ifs
  · exact owns_bind owns_reify fun _ => (owns_pure _ : Owns path 0 _)
  · exact owns_bind (owns_addTriple _ _ _ _ _) fun _ => (owns_pure _ : Owns path 0 _)

/-! ## The children -/

/-- How many statements an object adds at most. -/
def Element.weight (e : Element) : ℕ := if e.isDescription = false ∧ e.container.isSome then 1 else 2

/-- Before the first cell there is no cell. -/
def LinkState.Counted (st : LinkState) : Prop := st.j = 0 → st.currentID = none

theorem owns_linkBefore (currentID : Option Bytes) (collectionID : Bytes) :
    Owns path 1 (linkBefore x path e currentID collectionID) := by
  unfold linkBefore
  split
  · exact owns_addTriple _ _ _ _ _
  · exact owns_pure _

theorem owns_linkHead_before (id collectionID : Bytes) (hc : st.Counted) (f : Bytes → Walk β)
    (hf : ∀ id, Owns path b (f id)) :
    Owns path (1 + b) (do
      let id ← linkHead x (.list path) path e reified st collectionID id
      linkBefore x path e st.currentID collectionID
      f id) := by
  unfold linkHead
  by_cases hj : st.j = 0
  · rw [if_pos hj, hc hj, linkBefore]
    refine (owns_bind (owns_bind owns_assertProperty fun _ => (owns_pure _ : Owns path 0 _)) fun _ =>
      owns_bind (owns_pure _ : Owns path 0 _) fun _ => hf _).mono ?_
    omega
  · rw [if_neg hj]
    refine (owns_bind (owns_pure _ : Owns path 0 _) fun _ => owns_bind (owns_linkBefore _ _) fun _ => hf _).mono ?_
    omega

theorem LinkState.behind_counted (id : Bytes) (cell : Option Bytes) : (st.behind id cell).Counted :=
  fun h => absurd h (Nat.succ_ne_zero st.j)

theorem linkDescription_counts {q : Path} {calls : Calls} {n : Element} (hcol : e.isCollection = true) (hc : st.Counted)
    (hplaced : (Child.element n q calls).Placed path) :
    Owns path 2 (linkDescription x path e reified st n q calls) ∧
      Gives LinkState.Counted (linkDescription x path e reified st n q calls) := by
  obtain ⟨hq, hcall, -⟩ := hplaced
  unfold linkDescription
  rw [if_pos hcol]
  constructor
  · refine (owns_bind (owns_inside hq (hcall true false false)) fun described =>
      owns_bind (owns_none says_newReificationID) fun collectionID => owns_linkHead_before _ _ hc _ fun id =>
        owns_bind (owns_addTriple _ _ _ _ _) fun _ => (owns_pure _ : Owns path 0 _)).mono ?_
    exact Nat.le_refl _
  · exact gives_bind fun _ => gives_bind fun _ => gives_bind fun _ => gives_bind fun _ => gives_bind fun _ =>
      gives_pure (st.behind_counted _ _)

theorem linkTypedNode_counts {q : Path} {calls : Calls} (hcol : e.isCollection = true)
    (hplaced : ∃ n, (Child.element n q calls).Placed path) :
    Owns path 2 (linkTypedNode x path e st q calls) ∧ Gives LinkState.Counted (linkTypedNode x path e st q calls) := by
  obtain ⟨n, hq, -, hcall, -⟩ := hplaced
  unfold linkTypedNode
  rw [if_pos hcol]
  have hcell : ∀ collectionID, Owns path 1 (linkCell x path e st collectionID) := by
    intro collectionID
    unfold linkCell
    split
    · exact owns_addTriple _ _ _ _ _
    · exact owns_addTriple _ _ _ _ _
  constructor
  · refine (owns_bind (owns_inside hq hcall) fun id => owns_bind (owns_none says_newReificationID) fun collectionID =>
      owns_bind (hcell _) fun _ => owns_bind (owns_addTriple _ _ _ _ _) fun _ => (owns_pure _ : Owns path 0 _)).mono ?_
    exact Nat.le_refl _
  · exact gives_bind fun _ => gives_bind fun _ => gives_bind fun _ => gives_bind fun _ =>
      gives_pure (st.behind_counted _ _)

theorem linkContainer_counts {q : Path} {calls : Calls} (hcol : e.isCollection = true) (hc : st.Counted)
    (hplaced : ∃ n, (Child.element n q calls).Placed path) :
    Owns path 1 (linkContainer x path e reified st q calls) ∧
      Gives LinkState.Counted (linkContainer x path e reified st q calls) := by
  obtain ⟨n, hq, -, -, hcall, -⟩ := hplaced
  have hnot : ¬ (1 < st.objectElements ∧ (!e.isCollection) = true) := by
    rintro ⟨-, h⟩
    rw [hcol] at h
    exact absurd h Bool.false_ne_true
  unfold linkContainer
  rw [if_neg hnot]
  constructor
  · refine (owns_bind (owns_inside hq hcall) fun container => owns_bind owns_assertProperty fun _ =>
      (owns_pure _ : Owns path 0 _)).mono ?_
    exact Nat.le_refl _
  · refine gives_bind fun _ => gives_bind fun statement => gives_pure ?_
    cases statement with
    | none => exact hc
    | some id => exact hc

/-- White space between the objects. -/
theorem linkData_blank {only : Bool} {d : DataElement} (hcol : e.isCollection = true) (hd : isBlank d.sContent = true)
    (honly : only = false) :
    linkData x path e reified only st d = pure { st with sTarget := (given e.sResource).getD st.sTarget } := by
  unfold linkData
  rw [if_neg, if_neg]
  · rintro (h | h)
    · rw [hd] at h
      exact absurd h Bool.false_ne_true
    · exact absurd (honly.symm.trans h) Bool.false_ne_true
  · rintro ⟨-, h, -⟩
    rw [hcol] at h
    exact absurd h Bool.false_ne_true

/-- The weight of a child. -/
def Child.weight : Child → ℕ
  | .data _ => 0
  | .element n _ _ => n.weight

/-- A child that is no text but white space next to others. -/
def Child.Object (only : Bool) : Child → Prop
  | .data d => isBlank d.sContent = true ∧ only = false
  | .element _ _ _ => True

theorem linkChild_counts {only : Bool} {child : Child} (hcol : e.isCollection = true) (hc : st.Counted)
    (hchild : child.Object only) (hplaced : child.Placed path) :
    Owns path child.weight (linkChild x path e reified only st child) ∧
      Gives LinkState.Counted (linkChild x path e reified only st child) := by
  cases child with
  | data d =>
    simp only [linkChild]
    rw [linkData_blank hcol hchild.1 hchild.2]
    exact ⟨owns_pure _, gives_pure hc⟩
  | element n q calls =>
    simp only [linkChild, Child.weight, Element.weight]
    by_cases hd : n.isDescription = true
    · rw [if_pos hd, if_neg fun h => absurd (h.1.symm.trans hd) Bool.false_ne_true]
      exact linkDescription_counts hcol hc hplaced
    · rw [if_neg hd]
      by_cases hcont : n.container.isSome = true
      · rw [if_pos hcont, if_pos ⟨Bool.eq_false_iff.mpr hd, hcont⟩]
        exact linkContainer_counts hcol hc ⟨n, hplaced⟩
      · rw [if_neg hcont, if_neg fun h => hcont h.2]
        by_cases hother : n.isOther = true
        · rw [if_pos hother]
          exact linkTypedNode_counts hcol ⟨n, hplaced⟩
        · rw [if_neg hother]
          exact ⟨owns_pure _, gives_pure hc⟩

/-- The loop over the children, and the end of the list. -/
theorem linkLoop_counts {only : Bool} {children : List Child} {n m : ℕ} {st' : LinkState} {l : List Assertion}
    (hcol : e.isCollection = true) (hc : st.Counted) (hchildren : ∀ c ∈ children, c.Object only ∧ c.Placed path)
    (h : Runs (children.foldlM (linkChild x path e reified only) st) n st' m l) :
    (own path l).length ≤ (children.map Child.weight).sum := by
  refine (h.foldlM_keeps (fun done _ st l => st.Counted ∧ (own path l).length ≤ (done.map Child.weight).sum)
    ⟨hc, Nat.le_refl _⟩ ?_).2
  rintro done c rest rfl k st l₀ st' m l ⟨hst, hl⟩ hrun
  obtain ⟨hobject, hplaced⟩ := hchildren c (List.mem_append_right done List.mem_cons_self)
  obtain ⟨howns, hgives⟩ := @linkChild_counts x path e reified st only c hcol hst hobject hplaced
  refine ⟨hgives hrun, ?_⟩
  rw [own_append, List.length_append, List.map_append, List.sum_append]
  exact Nat.add_le_add hl (howns hrun)

end RdfStore.SiRPAC
