import RdfStore.SiRPAC.Subjects

/-!
# Collections

What a property with `rdf:parseType="Collection"` asserts itself, next to what its
objects assert: the statement of the property, and a cell for each object.
-/

namespace RdfStore.SiRPAC

open ByteMem Emission

/-! ## Lists of cells -/

def rdfFirst : Resource := .uri (rdfms "first")
def rdfRest : Resource := .uri (rdfms "rest")
def rdfNil : Resource := .uri (rdfms "nil")

/-- The statements of the cells, each with its object; the last one ends the list. -/
def chain (context : Option Resource) : List (Resource × Resource) → List Statement
  | [] => []
  | [a] => [⟨a.1, rdfFirst, .resource a.2, context⟩, ⟨a.1, rdfRest, .resource rdfNil, context⟩]
  | a :: b :: t => ⟨a.1, rdfFirst, .resource a.2, context⟩ :: ⟨a.1, rdfRest, .resource b.1, context⟩ :: chain context (b :: t)

/-- The statement of a property with a list, and the list. -/
def listStatements (subject predicate : Resource) (context : Option Resource) (cells : List (Resource × Resource)) :
    List Statement :=
  ⟨subject, predicate, .resource ((cells.head?.map (·.1)).getD rdfNil), context⟩ :: chain context cells

theorem length_chain (context : Option Resource) :
    ∀ cells : List (Resource × Resource), (chain context cells).length = 2 * cells.length
  | [] => rfl
  | [_] => rfl
  | a :: b :: t => by
    rw [chain, List.length_cons, List.length_cons, length_chain context (b :: t)]
    simp only [List.length_cons]
    omega

theorem length_listStatements (s p : Resource) (context : Option Resource) (cells : List (Resource × Resource)) :
    (listStatements s p context cells).length = 2 * cells.length + 1 := by
  rw [listStatements, List.length_cons, length_chain]

/-! ## The objects -/

/-- An element inside a property. -/
structure ObjectNode where
  path : Path
  e : Element
  nodes : List Node

/-- The elements inside a property, from the `i`-th child on. -/
def objects (path : Path) (i : ℕ) : List Node → List ObjectNode
  | [] => []
  | .data _ :: nodes => objects path (i + 1) nodes
  | .element e inner :: nodes => ⟨.child i :: path, e, inner⟩ :: objects path (i + 1) nodes

/-- The resource that an identifier stands for as an object. -/
def objectOf (x : Expat) (id : Bytes) : Option Resource := (buildResource id).bind fun r => orSource x (some r)

/-- What an element of a description does with its children. -/
def ObjectNode.described (x : Expat) (o : ObjectNode) : List Child :=
  SiRPAC.described x o.path o.e (Node.children x o.path 0 o.nodes)

/-- An `rdf:Description` without identifying attribute and without any property. -/
def ObjectNode.Bare (x : Expat) (o : ObjectNode) : Prop :=
  o.e.isDescription = true ∧ o.e.identity = none ∧ ∀ c ∈ o.described x, c.isMember = false ∧ c.isProperty = false

/-- An `rdf:Description` with `rdf:ID` and one property, whose identifier is taken against the base again. -/
def ObjectNode.Renamed (x : Expat) (o : ObjectNode) (S : Bytes) : Prop :=
  o.e.isDescription = true ∧ given o.e.sAbout = none ∧ given o.e.sID = some S ∧
    (o.described x).countP Child.isProperty = 1

/-- An object element of RDF/XML: a description, a container or a typed node with at most one identifier, which
names a resource that is none of the new bNodes. -/
structure ObjectNode.Proper (x : Expat) (o : ObjectNode) : Prop where
  kind : o.e.isDescription = true ∨ o.e.container.isSome = true ∨ o.e.isOther = true
  identified : o.e.Identified
  bag : o.e.Unbagged x
  lawful : ∀ node ∈ o.nodes, node.Lawful
  named : ∀ S, o.e.identity = some S → ∃ v, objectOf x S = some v ∧ ∀ k, v ≠ x.gen k

/-! ## What is asked for -/

/-- A statement that the property itself asserts, less those about a reified statement. -/
def Assertion.isOwn (path : Path) (a : Assertion) : Bool := a.role.place = path ∧ a.role ≠ .reification path

def own (path : Path) (l : List Assertion) : List Statement := (l.filter (·.isOwn path)).map (·.statement)

/-- The resource stands for the element: it has the identifier of the element, or else it is a bNode, all that is said
about the element is said of it, and it is neither a cell nor a reified statement. -/
def StandsFor (x : Expat) (path : Path) (l : List Assertion) (o : ObjectNode) (v : Resource) : Prop :=
  match o.e.identity with
  | some S => objectOf x S = some v
  | none => (∃ label, v = .bnode label) ∧ (∀ a ∈ l, About o.path a → a.statement.subject = v) ∧
      ∀ a ∈ l, a.role.place = path → a.role.states = none → a.statement.subject ≠ v

/-- The property is linked to a list of the objects in their order, and asserts nothing else. -/
def WellFormedList (x : Expat) (path : Path) (subject predicate : Resource) (context : Option Resource)
    (os : List ObjectNode) (l : List Assertion) : Prop :=
  ∃ cells : List (Resource × Resource),
    own path l = listStatements subject predicate context cells ∧
    (cells.map (·.1)).Nodup ∧
    List.Forall₂ (fun o c => StandsFor x path l o c.2) os cells ∧
    (((os.zip cells).filter fun a => a.1.e.identity.isNone).map fun a => a.2.2).Nodup

/-! ## When it holds -/

/-- Whether statements with the predicate are only there to set the context. -/
def Resource.isContext (p : Resource) : Prop := p.text = rdfstoreContext ∨ p.text = rdfstoreContextnodeID

instance (p : Resource) : Decidable p.isContext := inferInstanceAs (Decidable (_ ∨ _))

/-- The object gets the right cell. Where the identifier of the reified statement takes its place, the two name one
resource. -/
def ObjectNode.Sound (x : Expat) (e : Element) (o : ObjectNode) (replaced : Prop) : Prop :=
  (replaced → ∃ id S, given e.sID = some id ∧ o.e.identity = some S ∧ objectOf x id = objectOf x S) ∧
  (¬ replaced → ¬ o.Bare x ∧ ∀ S, o.Renamed x S → objectOf x (x.normalize S) = objectOf x S)

/-- The objects that become a list: no containers, and no description in front when the property is reified. -/
def Regular (x : Expat) (e : Element) (reified : Bool) (predicate : Resource) (os : List ObjectNode) : Prop :=
  ¬ predicate.isContext ∧
  (∀ o ∈ os, o.e.isDescription = true ∨ o.e.container = none) ∧
  (∀ o ∈ os.head?, o.Sound x e (o.e.isDescription = true ∧ (reified = true ∨ (given e.sID).isSome = true))) ∧
  ∀ o ∈ os.tail, o.Sound x e False

/-! ## What is asserted -/

section Asserted

variable {x : Expat} {path : Path} {e : Element} {n m : ℕ} {l : List Assertion}

theorem own_append (l₁ l₂ : List Assertion) : own path (l₁ ++ l₂) = own path l₁ ++ own path l₂ := by
  unfold own
  rw [List.filter_append, List.map_append]

theorem own_eq_nil (h : ∀ a ∈ l, a.isOwn path = false) : own path l = [] := by
  unfold own
  rw [List.filter_eq_nil_iff.mpr fun a ha => by rw [h a ha]; exact Bool.false_ne_true, List.map_nil]

/-- What is said inside is not the property's own. -/
theorem own_inside {s : Step} (h : ∀ a ∈ l, Inside (s :: path) a) : own path l = [] := by
  refine own_eq_nil fun a ha => ?_
  have hle := List.IsSuffix.length_le (h a ha)
  refine decide_eq_false fun hown => ?_
  rw [hown.1, List.length_cons] at hle
  exact Nat.not_succ_le_self _ hle

theorem own_reification (h : ∀ a ∈ l, a.role = .reification path) : own path l = [] :=
  own_eq_nil fun a ha => decide_eq_false fun hown => hown.2 (h a ha)

/-- The assertions of a statement whose object is a resource. -/
def tripleOf (x : Expat) (role : Role) (p : Resource) (subject : Option Resource) (object : Option Resource)
    (context : Option Resource) : List Assertion :=
  if p.isContext then []
  else
    match orSource x subject, object.bind fun r => orSource x (some r) with
    | some s, some o => [⟨role, ⟨s, p, .resource o, context⟩⟩]
    | _, _ => []

theorem addTriple_runs {role : Role} {p : Resource} {subject object : Option Resource} {context : Option Resource}
    {u : Unit} (h : Runs (addTriple x role (some p) subject (object.map .resource) context) n u m l) :
    n = m ∧ l = tripleOf x role p subject object context := by
  unfold addTriple at h
  dsimp only at h
  unfold tripleOf
  split_ifs at h with h₁ h₂
  · exact absurd h runs_croak.mp
  · obtain ⟨-, rfl, rfl⟩ := runs_pure.mp h
    rw [if_pos (show p.isContext from h₂)]
    exact ⟨rfl, rfl⟩
  · rw [if_neg (show ¬ p.isContext from h₂)]
    cases object with
    | none =>
      cases hs : orSource x subject with
      | none =>
        rw [hs] at h
        obtain ⟨-, rfl, rfl⟩ := runs_pure.mp h
        exact ⟨rfl, rfl⟩
      | some s =>
        rw [hs] at h
        obtain ⟨-, rfl, rfl⟩ := runs_pure.mp h
        exact ⟨rfl, rfl⟩
    | some o =>
      rw [Option.bind_some]
      cases hs : orSource x subject with
      | none =>
        rw [hs] at h
        obtain ⟨-, rfl, rfl⟩ := runs_pure.mp h
        exact ⟨rfl, rfl⟩
      | some s =>
        cases ho : orSource x (some o) with
        | none =>
          rw [hs, Option.map_some] at h
          dsimp only at h
          rw [ho, Option.map_none] at h
          obtain ⟨-, rfl, rfl⟩ := runs_pure.mp h
          exact ⟨rfl, rfl⟩
        | some r =>
          rw [hs, Option.map_some] at h
          dsimp only at h
          rw [ho, Option.map_some] at h
          obtain ⟨rfl, rfl⟩ := runs_emit.mp h
          exact ⟨rfl, rfl⟩

theorem length_tripleOf_le (role : Role) (p : Resource) (subject object context : Option Resource) :
    (tripleOf x role p subject object context).length ≤ 1 := by
  unfold tripleOf
  split_ifs
  · exact Nat.zero_le _
  · split
    · exact Nat.le_refl _
    · exact Nat.zero_le _

/-- Statements about a statement; one of them says what it is. -/
theorem aboutStatement_says {id : Bytes} {context : Option Resource} {ln : String} {o : Option Object} :
    Says (fun a => a.role = .reification path ∧ orSource x (buildResource id) = some a.statement.subject)
      (aboutStatement x path id context ln o) :=
  says_addTriple fun _ hst => ⟨rfl, hst⟩

/-- The role of a statement about the statement `id`. -/
def AboutStatement (x : Expat) (path : Path) (id : Bytes) (a : Assertion) : Prop :=
  a.role = .reification path ∧ orSource x (buildResource id) = some a.statement.subject

theorem rdf_isContext (ln : String) : ¬ (Resource.uri (rdfms ln)).isContext := by
  have htake : (Resource.uri (rdfms ln)).text.take 8 = rdfSyntaxNs.take 8 :=
    List.take_append_of_le_length (by decide)
  rintro (h | h)
  all_goals
    rw [h] at htake
    exact absurd htake (by decide)

/-- What reifying a statement asserts, and the identifier it gives. -/
theorem reify_runs {role : Role} {predicate subject : Option Resource} {object : Option Object}
    {sNodeID : Option Bytes} {id : Bytes} (hno : e.nodeID = none)
    (h : Runs (reify x role path predicate subject object sNodeID e) n id m l) :
    ∃ k k' u l₁ l₂, (given sNodeID = some id ∧ n = k ∨ given sNodeID = none ∧ id = x.genid n ∧ k = n + 1) ∧
      Runs (addTriple x role predicate subject object e.context) k u k' l₁ ∧ k' ≤ m ∧ l = l₁ ++ l₂ ∧
      (∀ a ∈ l₂, AboutStatement x path id a) ∧
      ∀ v, orSource x (buildResource id) = some v → ∃ a ∈ l₂, AboutStatement x path id a := by
  unfold reify at h
  obtain ⟨id', k, l₁, l₂, h₁, h₂, rfl⟩ := runs_bind.mp h
  obtain ⟨u, k', l₃, l₄, h₃, h₄, rfl⟩ := runs_bind.mp h₂
  obtain ⟨_, k₅, l₅, l₆, h₅, h₆, rfl⟩ := runs_bind.mp h₄
  obtain ⟨_, k₇, l₇, l₈, h₇, h₈, rfl⟩ := runs_bind.mp h₆
  obtain ⟨_, k₉, l₉, l₁₀, h₉, h₁₀, rfl⟩ := runs_bind.mp h₈
  obtain ⟨_, k₁₁, l₁₁, l₁₂, h₁₁, h₁₂, rfl⟩ := runs_bind.mp h₁₀
  obtain ⟨rfl, rfl, rfl⟩ := runs_pure.mp h₁₂
  have h₅ := aboutStatement_says h₅
  have h₇ : k₅ ≤ k₇ ∧ ∀ a ∈ l₇, AboutStatement x path id' a := by
    cases subject with
    | none => exact absurd h₇ runs_croak.mp
    | some r => exact aboutStatement_says h₇
  have h₉ := aboutStatement_says h₉
  have htype := aboutStatement_says h₁₁
  refine ⟨k, k', u, l₃, l₅ ++ (l₇ ++ (l₉ ++ (l₁₁ ++ []))), ?_, h₃, ?_, ?_, ?_, ?_⟩
  · rw [hno, Option.or_none] at h₁
    cases hg : given sNodeID with
    | none =>
      rw [hg] at h₁
      obtain ⟨rfl, rfl, -⟩ := runs_orNew_none.mp h₁
      exact .inr ⟨rfl, rfl, rfl⟩
    | some t =>
      rw [hg] at h₁
      obtain ⟨rfl, rfl, -⟩ := runs_orNew_some.mp h₁
      exact .inl ⟨rfl, rfl⟩
  · omega
  · rw [show l₁ = [] from ?_, List.nil_append]
    have hnil := says_orNew (x := x) (Q := fun _ => False) ((given sNodeID).or e.nodeID) h₁
    exact List.eq_nil_iff_forall_not_mem.mpr hnil.2
  · intro a ha
    simp only [List.mem_append, List.not_mem_nil, or_false] at ha
    rcases ha with ha | ha | ha | ha
    · exact h₅.2 a ha
    · exact h₇.2 a ha
    · exact h₉.2 a ha
    · exact htype.2 a ha
  · intro v hv
    have hstatement : Runs (addTriple x (.reification path) (some (.uri (rdfms "type"))) (buildResource id')
        ((some (Resource.uri (rdfms "Statement"))).map .resource) e.context) k₉ _ k₁₁ l₁₁ := h₁₁
    obtain ⟨-, hl⟩ := addTriple_runs hstatement
    have hmem : (⟨.reification path, ⟨v, .uri (rdfms "type"), .resource (.uri (rdfms "Statement")), e.context⟩⟩ : Assertion) ∈
        l₁₁ := by
      rw [hl, tripleOf, if_neg (rdf_isContext "type"), hv]
      exact List.mem_singleton.mpr rfl
    refine ⟨_, ?_, htype.2 _ hmem⟩
    simp only [List.mem_append]
    exact .inr (.inr (.inr (.inl hmem)))

end Asserted

end RdfStore.SiRPAC
