import RdfStore.Types
import Mathlib.Logic.Relation
import Mathlib.Data.Finset.Card
import Mathlib.Data.Finset.Image

/-!
# The closure of a property (`computeClosure` of `SchemaModel.pm`)

The traversal should go from a node to its children.  It asks the model for all
statements with the property instead, so that every node is a child of every
other, and itself among its own descendants: whatever the graph, the first
resource that is an object is found on a loop.

    some object is a resource → it dies                    (computeClosure_dies)
    no object is a resource → the closure is empty         (computeClosure_empty)
    it is the transitive closure
      ↔ there are no edges, or there is a cycle            (transitive_closure_iff)
-/

namespace RdfStore.Schema

open ByteMem

/-- `RDFStore::Resource` -/
structure Name where
  bnode : Bool
  label : Bytes
  deriving DecidableEq

section

-- what a literal is does not matter
variable {L : Type}

/-- `RDFStore::Statement` -/
structure Triple (L : Type) where
  subject : Name
  predicate : Name
  object : Name ⊕ L
  deriving DecidableEq

/-- `$model->find(undef,$property,undef)->elements`, in the order of the iterator. -/
def find (model : List (Triple L)) (property : Name) : List (Triple L) :=
  model.filter fun st => st.predicate = property

/-- `%processedNodes`, the keys of `%stack` (the values are all 1), and `$closure`. -/
structure Traversal (L : Type) where
  processedNodes : List Bytes
  stack : List Bytes
  closure : List (Triple L)

/-- `createResource($parent)` with the value 1 of `%stack`. -/
def parentResource : Name := ⟨false, ascii "1"⟩

/-- Everything on the stack is added. -/
def Traversal.addStack (t : Traversal L) (property object : Name) : Traversal L :=
  { t with closure := t.closure ++ t.stack.map fun _ => ⟨object, property, .inl parentResource⟩ }

variable (model : List (Triple L)) (property : Name)

/-- `traverseClosure`: whether there is a loop; `none` where the recursion is too deep. -/
def traverseClosure : ℕ → Name → Traversal L → Option (Bool × Traversal L)
  | 0, _, _ => none
  | depth + 1, object, t =>
    let t := { t with processedNodes := object.label :: t.processedNodes }
    if t.stack.contains object.label then some (true, t)
    else
      -- `find(undef,$property,undef)`: the children of any node
      ((find model property).foldlM
        (fun (p : Bool × Traversal L) s =>
          (traverseClosure depth s.subject p.2).map fun r => (p.1 || r.1, r.2))
        (false, { t with stack := object.label :: t.stack })).map fun p =>
          let t := if p.1 then p.2 else { p.2 with stack := p.2.stack.erase object.label }
          (p.1, t.addStack property object)

/-- What `croak` says. -/
def loopMessage (o : Name) : Bytes :=
  ascii "[RDFSchemaModel] found invalid loop in transitive closure of " ++ property.label ++ ascii " Loop node: " ++
    o.label

/-- The loop of `computeClosure` over the statements. -/
def rootLoop (allowLoops : Bool) : List (Triple L) → Traversal L → Option (Except Bytes (List (Triple L)))
  | [], t => some (.ok t.closure)
  | st :: rest, t =>
    match st.object with
    | .inr _ => rootLoop allowLoops rest t
    | .inl o =>
      if t.processedNodes.contains o.label then rootLoop allowLoops rest t
      else
        (traverseClosure model property (model.length + 2) o { t with stack := [] }).bind fun p =>
          if p.1 && !allowLoops then some (.error (loopMessage property o)) else rootLoop allowLoops rest p.2

/-- `computeClosure` -/
def computeClosure (allowLoops : Bool) : Option (Except Bytes (List (Triple L))) :=
  rootLoop model property allowLoops (find model property) ⟨[], [], []⟩

/-! ## The graph of the property -/

/-- A statement links two resources. -/
def Edge (a b : Name) : Prop := ∃ st ∈ find model property, st.subject = a ∧ st.object = .inl b

/-- It dies when there is a cycle, and returns the pairs that are connected when there is none. -/
def IsTransitiveClosure (result : Option (Except Bytes (List (Triple L)))) : Prop :=
  ((∃ message, result = some (.error message)) ↔ ∃ a, Relation.TransGen (Edge model property) a a) ∧
    ((¬ ∃ a, Relation.TransGen (Edge model property) a a) → ∃ closure, result = some (.ok closure) ∧
      ∀ a b, (⟨a, property, .inl b⟩ : Triple L) ∈ closure ↔ Relation.TransGen (Edge model property) a b)

end

/-! ## Every traversal finds a loop -/

section

variable {L : Type} {model : List (Triple L)} {property : Name}

/-- The labels of the children that are not on the stack. -/
def offStack (model : List (Triple L)) (property : Name) (stack : List Bytes) : Finset Bytes :=
  ((find model property).map fun st => st.subject.label).toFinset.filter fun b => stack.contains b = false

theorem mem_offStack {stack : List Bytes} {b : Bytes} :
    b ∈ offStack model property stack ↔ b ∈ (find model property).map (fun st => st.subject.label) ∧ b ∉ stack := by
  unfold offStack
  rw [Finset.mem_filter, List.mem_toFinset, ← Bool.not_eq_true, List.contains_iff_mem]

theorem offStack_mono {stack stack' : List Bytes} (h : stack ⊆ stack') :
    (offStack model property stack').card ≤ (offStack model property stack).card := by
  refine Finset.card_le_card fun b hb => ?_
  obtain ⟨hmem, hout⟩ := mem_offStack.1 hb
  exact mem_offStack.2 ⟨hmem, fun hin => hout (h hin)⟩

theorem offStack_cons {stack : List Bytes} {b : Bytes} (hb : b ∈ offStack model property stack) :
    (offStack model property (b :: stack)).card < (offStack model property stack).card := by
  refine Finset.card_lt_card ⟨fun c hc => ?_, fun hsub => ?_⟩
  · obtain ⟨hmem, hout⟩ := mem_offStack.1 hc
    exact mem_offStack.2 ⟨hmem, fun hin => hout (List.mem_cons_of_mem b hin)⟩
  · exact (mem_offStack.1 (hsub hb)).2 List.mem_cons_self

theorem offStack_card_le (stack : List Bytes) : (offStack model property stack).card ≤ model.length := by
  have hfind : (find model property).length ≤ model.length := List.length_filter_le _ _
  calc (offStack model property stack).card
      ≤ ((find model property).map fun st => st.subject.label).toFinset.card := Finset.card_filter_le _ _
    _ ≤ ((find model property).map fun st => st.subject.label).length := List.toFinset_card_le _
    _ = (find model property).length := List.length_map _
    _ ≤ model.length := hfind

/-- A loop over children each of which is found on a loop. -/
theorem children_loop (step : Triple L → Traversal L → Option (Bool × Traversal L)) (stack : List Bytes)
    (hstep : ∀ s ∈ find model property, ∀ t : Traversal L, stack ⊆ t.stack →
      ∃ t', step s t = some (true, t') ∧ t.stack ⊆ t'.stack)
    {children : List (Triple L)} (hchildren : children ⊆ find model property) (b : Bool) (t : Traversal L)
    (ht : stack ⊆ t.stack) :
    ∃ t', children.foldlM (fun (p : Bool × Traversal L) s => (step s p.2).map fun r => (p.1 || r.1, r.2)) (b, t) =
      some (b || !children.isEmpty, t') ∧ t.stack ⊆ t'.stack := by
  induction children generalizing b t with
  | nil => exact ⟨t, by simp, fun _ h => h⟩
  | cons s children ih =>
    obtain ⟨t₁, hs, hsub₁⟩ := hstep s (hchildren List.mem_cons_self) t ht
    obtain ⟨t₂, hrest, hsub₂⟩ := ih (fun x hx => hchildren (List.mem_cons_of_mem s hx)) (b || true) t₁
      (fun x hx => hsub₁ (ht hx))
    refine ⟨t₂, ?_, fun x hx => hsub₂ (hsub₁ hx)⟩
    rw [List.foldlM_cons, hs]
    simpa using hrest

/-- There is a loop from every node, and the recursion is not deeper than there are children off the stack. -/
theorem traverseClosure_loops (hfind : find model property ≠ []) (depth : ℕ) (object : Name) (t : Traversal L)
    (hdepth : (offStack model property t.stack).card + 1 < depth ∨
      (object.label ∈ (find model property).map (fun st => st.subject.label) ∧
        (offStack model property t.stack).card < depth)) :
    ∃ t', traverseClosure model property depth object t = some (true, t') ∧ t.stack ⊆ t'.stack := by
  induction depth generalizing object t with
  | zero => omega
  | succ depth ih =>
    unfold traverseClosure
    by_cases hstack : object.label ∈ t.stack
    · exact ⟨_, if_pos (List.contains_iff_mem.2 hstack), fun _ h => h⟩
    · have hmono : (offStack model property (object.label :: t.stack)).card ≤ (offStack model property t.stack).card :=
        offStack_mono fun _ h => List.mem_cons_of_mem _ h
      have hroom : (offStack model property (object.label :: t.stack)).card < depth := by
        rcases hdepth with h | ⟨hchild, h⟩
        · omega
        · have hoff : object.label ∈ offStack model property t.stack :=
            mem_offStack.2 ⟨hchild, hstack⟩
          have := offStack_cons hoff
          omega
      obtain ⟨t', hloop, hsub⟩ := children_loop
        (fun s t => traverseClosure model property depth s.subject t) (object.label :: t.stack)
        (fun s hs t ht => ih s.subject t (Or.inr ⟨List.mem_map_of_mem hs, lt_of_le_of_lt (offStack_mono ht) hroom⟩))
        (List.Subset.refl (find model property)) false
        ⟨object.label :: t.processedNodes, object.label :: t.stack, t.closure⟩ (fun _ h => h)
      have hsome : (!(find model property).isEmpty) = true := by simpa using hfind
      rw [Bool.false_or, hsome] at hloop
      refine ⟨t'.addStack property object, ?_, fun x hx => hsub (List.mem_cons_of_mem _ hx)⟩
      simp only [List.contains_iff_mem, hstack, if_false, hloop, Option.map_some, if_true]

/-- It dies as soon as an object is a resource. -/
theorem computeClosure_dies (h : ∃ a b, Edge model property a b) :
    ∃ message, computeClosure model property false = some (.error message) := by
  obtain ⟨a, b, st, hst, -, hobject⟩ := h
  have hfind : find model property ≠ [] := List.ne_nil_of_mem hst
  have hroot : ∀ (l : List (Triple L)) (t : Traversal L), t.processedNodes = [] →
      (∃ st ∈ l, ∃ b, st.object = .inl b) →
      ∃ message, rootLoop model property false l t = some (.error message) := by
    intro l
    induction l with
    | nil => simp
    | cons s l ih =>
      intro t ht hex
      unfold rootLoop
      cases hs : s.object with
      | inr lit =>
        refine ih t ht ?_
        obtain ⟨st, hst, b, hb⟩ := hex
        rcases List.mem_cons.1 hst with rfl | hst
        · rw [hs] at hb
          cases hb
        · exact ⟨st, hst, b, hb⟩
      | inl o =>
        have hdepth : (offStack model property []).card + 1 < model.length + 2 := by
          have : (offStack model property []).card ≤ model.length := offStack_card_le []
          omega
        obtain ⟨t', hloop, -⟩ := traverseClosure_loops hfind (model.length + 2) o { t with stack := [] } (Or.inl hdepth)
        have hnew : o.label ∉ t.processedNodes := by
          rw [ht]
          exact List.not_mem_nil
        exact ⟨loopMessage property o, by simp [hnew, hloop]⟩
  exact hroot _ _ rfl ⟨st, hst, b, hobject⟩

/-- Literals are passed over. -/
theorem computeClosure_empty (h : ¬ ∃ a b, Edge model property a b) (allowLoops : Bool) :
    computeClosure model property allowLoops = some (.ok []) := by
  have hroot : ∀ l ⊆ find model property, rootLoop model property allowLoops l ⟨[], [], []⟩ = some (.ok []) := by
    intro l
    induction l with
    | nil => exact fun _ => rfl
    | cons s l ih =>
      intro hl
      unfold rootLoop
      cases hs : s.object with
      | inl o => exact absurd ⟨s.subject, o, s, hl List.mem_cons_self, rfl, hs⟩ h
      | inr lit => exact ih fun x hx => hl (List.mem_cons_of_mem s hx)
  exact hroot _ fun _ h => h

theorem exists_edge_of_transGen {a b : Name} (h : Relation.TransGen (Edge model property) a b) :
    ∃ a b, Edge model property a b := by
  induction h with
  | single h => exact ⟨_, _, h⟩
  | tail _ h _ => exact ⟨_, _, h⟩

end

/-- The closure is the transitive one exactly when the property has a cycle or links no resources at all. -/
theorem transitive_closure_iff {L : Type} (model : List (Triple L)) (property : Name) :
    IsTransitiveClosure model property (computeClosure model property false) ↔
      (¬ ∃ a b, Edge model property a b) ∨ ∃ a, Relation.TransGen (Edge model property) a a := by
  by_cases hedge : ∃ a b, Edge model property a b
  · obtain ⟨message, hdies⟩ := computeClosure_dies hedge
    constructor
    · intro h
      exact Or.inr (h.1.1 ⟨message, hdies⟩)
    · rintro (hnone | hcycle)
      · exact absurd hedge hnone
      · exact ⟨iff_of_true ⟨message, hdies⟩ hcycle, fun hacyclic => absurd hcycle hacyclic⟩
  · have hempty := computeClosure_empty hedge false
    have hnone : ∀ a b, ¬ Relation.TransGen (Edge model property) a b := fun a b h => hedge (exists_edge_of_transGen h)
    refine iff_of_true ⟨iff_of_false ?_ ?_, fun _ => ⟨[], hempty, fun a b => iff_of_false List.not_mem_nil (hnone a b)⟩⟩
      (Or.inl hedge)
    · rintro ⟨message, h⟩
      rw [hempty] at h
      cases h
    · rintro ⟨a, h⟩
      exact hnone a a h

/-- `Dog subClassOf Animal` -/
def dogIsAnimal : List (Triple Unit) :=
  [⟨⟨false, ascii "Dog"⟩, ⟨false, ascii "subClassOf"⟩, .inl ⟨false, ascii "Animal"⟩⟩]

/-- A single statement is taken for a loop. -/
theorem computeClosure_dogIsAnimal :
    computeClosure dogIsAnimal ⟨false, ascii "subClassOf"⟩ false =
        some (.error (loopMessage ⟨false, ascii "subClassOf"⟩ ⟨false, ascii "Animal"⟩)) ∧
      ¬ IsTransitiveClosure dogIsAnimal ⟨false, ascii "subClassOf"⟩
        (computeClosure dogIsAnimal ⟨false, ascii "subClassOf"⟩ false) := by
  have hdies : computeClosure dogIsAnimal ⟨false, ascii "subClassOf"⟩ false =
      some (.error (loopMessage ⟨false, ascii "subClassOf"⟩ ⟨false, ascii "Animal"⟩)) := by decide
  refine ⟨hdies, ?_⟩
  rintro ⟨hcycle, -⟩
  obtain ⟨a, ha⟩ := hcycle.1 ⟨_, hdies⟩
  have hends : ∀ x y, Edge dogIsAnimal ⟨false, ascii "subClassOf"⟩ x y → x.label = ascii "Dog" ∧ y.label = ascii "Animal" := by
    rintro x y ⟨st, hst, rfl, hobject⟩
    obtain ⟨hst, -⟩ := List.mem_filter.1 hst
    rw [dogIsAnimal, List.mem_singleton] at hst
    subst hst
    cases hobject
    exact ⟨rfl, rfl⟩
  obtain ⟨b, hfirst⟩ : ∃ b, Edge dogIsAnimal ⟨false, ascii "subClassOf"⟩ a b := by
    obtain ⟨b, hb, -⟩ := Relation.TransGen.head'_iff.1 ha
    exact ⟨b, hb⟩
  obtain ⟨c, -, hlast⟩ := Relation.TransGen.tail'_iff.1 ha
  have hdog := (hends _ _ hfirst).1
  have hanimal := (hends _ _ hlast).2
  rw [hdog] at hanimal
  exact absurd hanimal (by decide)

end RdfStore.Schema
