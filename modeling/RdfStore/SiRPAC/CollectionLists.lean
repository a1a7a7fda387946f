import RdfStore.SiRPAC.CollectionCounts
import RdfStore.SiRPAC.CollectionReturns

/-!
# Collections become lists

The stages of a collection follow each other, each with the numbers behind those of the
one before, and link their cells one to the next. So the property has a list of its
objects when each cell gets the resource of its object.

    a collection asserts a well-formed list ↔ its objects are regular      (collection_iff)
-/

namespace RdfStore.SiRPAC

open ByteMem Emission

variable {x : Expat} {path : Path} {e : Element} {reified : Bool} {n m : ℕ} {l : List Assertion} {p subject : Resource}

/-! ## Lists of cells -/

/-- What stands behind a cell. -/
def behindCell (context : Option Resource) (cell : Resource) (cells : List (Resource × Resource)) : List Statement :=
  ⟨cell, rdfRest, .resource ((cells.head?.map (·.1)).getD rdfNil), context⟩ :: chain context cells

theorem chain_cons (context : Option Resource) (a : Resource × Resource) (t : List (Resource × Resource)) :
    chain context (a :: t) = ⟨a.1, rdfFirst, .resource a.2, context⟩ :: behindCell context a.1 t := by
  cases t <;> rfl

theorem behindCell_cons (context : Option Resource) (c : Resource) (a : Resource × Resource)
    (t : List (Resource × Resource)) : behindCell context c (a :: t) =
      ⟨c, rdfRest, .resource a.1, context⟩ :: ⟨a.1, rdfFirst, .resource a.2, context⟩ :: behindCell context a.1 t := by
  rw [behindCell, chain_cons]
  rfl

/-- A list of statements is that of one list of cells. -/
theorem chain_injective (context : Option Resource) :
    ∀ {s t : List (Resource × Resource)}, chain context s = chain context t → s = t
  | [], [], _ => rfl
  | [], b :: t, h => by
    rw [chain_cons] at h
    exact absurd h (List.cons_ne_nil _ _).symm
  | a :: s, [], h => by
    rw [chain_cons] at h
    exact absurd h (List.cons_ne_nil _ _)
  | a :: s, b :: t, h => by
    rw [chain_cons, chain_cons] at h
    obtain ⟨hfirst, hbehind⟩ := List.cons.inj h
    obtain ⟨-, hrest⟩ := List.cons.inj hbehind
    rw [chain_injective context hrest]
    simp only [Statement.mk.injEq, Object.resource.injEq] at hfirst
    rw [Prod.ext hfirst.1 hfirst.2.2.1]

/-! ## Stages one after the other -/

/-- The stages from the number `n` to `m`, behind the cell `prev`. -/
def Chained : Option ℕ → ℕ → List Stage → ℕ → Prop
  | _, n, [], m => n = m
  | prev, n, s :: ss, m => s.prev = prev ∧ s.n = n ∧ Chained (some s.cell) s.m ss m

/-- The cell behind which the list goes on. -/
def lastCell : Option ℕ → List Stage → Option ℕ
  | prev, [] => prev
  | _, s :: ss => lastCell (some s.cell) ss

theorem Chained.le {ss : List Stage} {prev : Option ℕ} (hs : ∀ s ∈ ss, s.Holds x path e subject p reified)
    (h : Chained prev n ss m) : ∀ s ∈ ss, n ≤ s.n ∧ s.m ≤ m := by
  induction ss generalizing prev n with
  | nil => exact fun s hmem => absurd hmem List.not_mem_nil
  | cons t ss ih =>
    obtain ⟨-, rfl, h⟩ := h
    obtain ⟨ht, hss⟩ := List.forall_mem_cons.mp hs
    have hle := ht.le
    have hlt := ht.lt
    have hm : t.m ≤ m := by
      cases ss with
      | nil => exact Nat.le_of_eq h
      | cons u ss =>
        have hu := ih hss h u List.mem_cons_self
        have h1 := (hss u List.mem_cons_self).le
        have h2 := (hss u List.mem_cons_self).lt
        omega
    intro s hmem
    rcases List.mem_cons.mp hmem with rfl | hmem
    · exact ⟨Nat.le_refl _, hm⟩
    · have := ih hss h s hmem
      omega

/-- The numbers of a stage come before those of the next. -/
theorem Chained.pairwise {ss : List Stage} {prev : Option ℕ} (hs : ∀ s ∈ ss, s.Holds x path e subject p reified)
    (h : Chained prev n ss m) : ss.Pairwise fun s t => s.m ≤ t.n := by
  induction ss generalizing prev n with
  | nil => exact List.Pairwise.nil
  | cons s ss ih =>
    obtain ⟨-, -, h⟩ := h
    have hss := fun t ht => hs t (List.mem_cons_of_mem s ht)
    exact List.Pairwise.cons (fun t ht => (h.le hss t ht).1) (ih hss h)

/-- A cell before is that of a stage, or the one before them all. -/
theorem Chained.prev_mem {ss : List Stage} {prev : Option ℕ} (h : Chained prev n ss m) :
    ∀ s ∈ ss, s.prev = prev ∨ ∃ t ∈ ss, s.prev = some t.cell := by
  induction ss generalizing prev n with
  | nil => exact fun s hmem => absurd hmem List.not_mem_nil
  | cons t ss ih =>
    obtain ⟨hprev, -, h⟩ := h
    intro s hmem
    rcases List.mem_cons.mp hmem with rfl | hmem
    · exact .inl hprev
    · rcases ih h s hmem with hs | ⟨u, hu, hs⟩
      · exact .inr ⟨t, List.mem_cons_self, hs⟩
      · exact .inr ⟨u, List.mem_cons_of_mem t hu, hs⟩

theorem lastCell_mem {ss : List Stage} {prev : Option ℕ} {c : ℕ} (h : lastCell prev ss = some c) :
    prev = some c ∨ ∃ s ∈ ss, s.cell = c := by
  induction ss generalizing prev with
  | nil => exact .inl h
  | cons s ss ih =>
    rcases ih h with hs | ⟨t, ht, hc⟩
    · exact .inr ⟨s, List.mem_cons_self, Option.some.inj hs⟩
    · exact .inr ⟨t, List.mem_cons_of_mem s ht, hc⟩

/-- The objects of a property are children of it, each another one. -/
theorem objects_paths (path : Path) (i : ℕ) (nodes : List Node) :
    (∀ o ∈ objects path i nodes, ∃ k, i ≤ k ∧ o.path = .child k :: path) ∧
      ((objects path i nodes).map (·.path)).Nodup := by
  induction nodes generalizing i with
  | nil => exact ⟨fun o ho => absurd ho List.not_mem_nil, List.nodup_nil⟩
  | cons node nodes ih =>
    obtain ⟨hpaths, hnodup⟩ := ih (i + 1)
    cases node with
    | data d =>
      refine ⟨fun o ho => ?_, hnodup⟩
      obtain ⟨k, hk, hpath⟩ := hpaths o ho
      exact ⟨k, by omega, hpath⟩
    | element b inner =>
      refine ⟨fun o ho => ?_, List.nodup_cons.mpr ⟨fun hmem => ?_, hnodup⟩⟩
      · rcases List.mem_cons.mp ho with rfl | ho
        · exact ⟨i, Nat.le_refl _, rfl⟩
        · obtain ⟨k, hk, hpath⟩ := hpaths o ho
          exact ⟨k, by omega, hpath⟩
      · obtain ⟨o, ho, heq⟩ := List.mem_map.mp hmem
        obtain ⟨k, hk, hpath⟩ := hpaths o ho
        rw [hpath] at heq
        have hik : k = i := Step.child.inj (List.cons.inj heq).1
        omega

/-! ## The run -/

/-- The state of the loop behind some stages. -/
structure LinkState.Behind (x : Expat) (e : Element) (sTarget : Bytes) (prev : Option ℕ) (st : LinkState) : Prop where
  current : st.currentID = prev.map x.genid
  target : st.sTarget = sTarget
  sID : st.sID = e.sID
  j : st.j = 0 ↔ prev = none

/-- What the property is: a collection without other attributes, whose subject is known. -/
structure Element.Lists (x : Expat) (e : Element) (sTarget : Bytes) (subject p : Resource) : Prop where
  collection : e.isCollection = true
  reference : given e.sResource = none
  nodeID : e.nodeID = none
  plain : expandAttributes e true e.sResource = []
  predicate : buildQualified e.sNamespace e.tag = some p
  subject : objectOf x sTarget = some subject

/-- What an identifier names as an object, it names as a subject. -/
theorem orSource_of_objectOf {id : Bytes} {v : Resource} (h : objectOf x id = some v) :
    orSource x (buildResource id) = some v := by
  unfold objectOf at h
  obtain ⟨r, hr, hv⟩ := Option.bind_eq_some_iff.mp h
  rw [hr]
  exact hv

theorem builds_of_objectOf {id : Bytes} {v : Resource} (h : objectOf x id = some v) : Builds id := by
  obtain ⟨r, hr, -⟩ := Option.bind_eq_some_iff.mp h
  rw [Builds, hr]
  rfl

def Node.isText : Node → Bool
  | .data _ => true
  | .element _ _ => false

/-- The text between the objects, which is one child, is white space. -/
structure WhiteSpace (nodes : List Node) : Prop where
  blank : ∀ d, Node.data d ∈ nodes → isBlank d.sContent = true
  one : nodes.countP Node.isText ≤ 1

variable {sTarget : Bytes} {prev : Option ℕ} {st st' : LinkState}

/-- An object takes a stage. -/
theorem linkChild_stage {only : Bool} {o : ObjectNode} (he : e.Lists x sTarget subject p) (ho : o.Proper x)
    (hlist : o.e.isDescription = true ∨ o.e.container = none) (hpath : ∃ s, o.path = s :: path)
    (hst : st.Behind x e sTarget prev)
    (h : Runs (linkChild x path e reified only st (.element o.e o.path (calls x o.path o.e (o.children x)))) n st' m l) :
    Staged x path e subject p reified o prev st n st' m l := by
  simp only [linkChild] at h
  by_cases hd : o.e.isDescription = true
  · rw [if_pos hd] at h
    exact linkDescription_stage ho hpath hd he.collection he.nodeID he.predicate (orSource_of_objectOf he.subject) hst.current
      hst.target hst.sID hst.j h
  · have hcont : o.e.container = none := hlist.resolve_left hd
    have hother : o.e.isOther = true := by
      rcases ho.kind with hk | hk | hk
      · exact absurd hk hd
      · rw [hcont] at hk
        exact absurd hk Bool.false_ne_true
      · exact hk
    have hsome : ¬ o.e.container.isSome = true := by
      rw [hcont]
      exact Bool.false_ne_true
    rw [if_neg hd, if_neg hsome, if_pos hother] at h
    exact linkTypedNode_stage ho hpath (Bool.eq_false_iff.mpr hd) he.collection he.predicate
      (orSource_of_objectOf he.subject) hst.current hst.target h

/-- The loop goes from stage to stage. -/
theorem linkLoop_stages {only : Bool} (he : e.Lists x sTarget subject p) (i : ℕ) (nodes : List Node)
    (hobjects : ∀ o ∈ objects path i nodes, o.Proper x ∧ (o.e.isDescription = true ∨ o.e.container = none))
    (hdata : ∀ d, Node.data d ∈ nodes → isBlank d.sContent = true ∧ only = false) (hst : st.Behind x e sTarget prev)
    (h : Runs ((Node.children x path i nodes).foldlM (linkChild x path e reified only) st) n st' m l) :
    ∃ ss : List Stage, ss.map (·.object) = objects path i nodes ∧ Chained prev n ss m ∧
      (∀ s ∈ ss, s.Holds x path e subject p reified) ∧ l = ss.flatMap (·.said) ∧
      st'.Behind x e sTarget (lastCell prev ss) := by
  induction nodes generalizing i prev st n l with
  | nil =>
    rw [Node.children] at h
    obtain ⟨rfl, rfl, rfl⟩ := runs_foldlM_nil.mp h
    exact ⟨[], rfl, rfl, fun s hs => absurd hs List.not_mem_nil, rfl, hst⟩
  | cons node nodes ih =>
    rw [Node.children] at h
    obtain ⟨st₁, k, l₁, l₂, h₁, h₂, rfl⟩ := runs_foldlM_cons.mp h
    have hdata' : ∀ d, Node.data d ∈ nodes → isBlank d.sContent = true ∧ only = false :=
      fun d hd => hdata d (List.mem_cons_of_mem node hd)
    cases node with
    | data d =>
      obtain ⟨hblank, honly⟩ := hdata d List.mem_cons_self
      rw [Node.child] at h₁
      simp only [linkChild] at h₁
      rw [linkData_blank he.collection hblank honly, he.reference] at h₁
      obtain ⟨rfl, rfl, rfl⟩ := runs_pure.mp h₁
      exact ih (i + 1) hobjects hdata' hst h₂
    | element b inner =>
      rw [objects, List.forall_mem_cons] at hobjects
      obtain ⟨⟨ho, hlist⟩, hobjects⟩ := hobjects
      rw [Node.child] at h₁
      obtain ⟨cell, id, hholds, rfl⟩ := linkChild_stage he ho hlist ⟨_, rfl⟩ hst h₁
      have hst' : (st.behind id (some (x.genid cell))).Behind x e sTarget (some cell) := {
        current := rfl
        target := hst.target
        sID := hst.sID
        j := ⟨fun h => absurd h (Nat.succ_ne_zero _), fun h => absurd h (Option.some_ne_none cell)⟩ }
      obtain ⟨ss, hos, hchained, hss, rfl, hlast⟩ := ih (i + 1) hobjects hdata' hst' h₂
      refine ⟨⟨⟨.child i :: path, b, inner⟩, prev, n, cell, k, id, l₁⟩ :: ss, ?_, ⟨rfl, rfl, hchained⟩, ?_, rfl, hlast⟩
      · rw [List.map_cons, hos, objects]
      · exact List.forall_mem_cons.mpr ⟨hholds, hss⟩

/-- The end of the list, behind its last cell. -/
def endStatements (x : Expat) (context : Option Resource) : Option ℕ → List Statement
  | none => []
  | some c => [⟨x.gen c, rdfRest, .resource rdfNil, context⟩]

theorem closeList_runs {u : Unit} (he : e.Lists x sTarget subject p) (hst : st.Behind x e sTarget prev)
    (h : Runs (closeList x path e st) n u m l) :
    n = m ∧ own path l = endStatements x e.context prev ∧
      ∀ a ∈ l, a.role.place = path ∧ ∃ c, prev = some c ∧ a.statement.subject = x.gen c := by
  unfold closeList at h
  cases prev with
  | none =>
    rw [if_neg fun hj => absurd (hst.j.mpr rfl) (Nat.pos_iff_ne_zero.mp hj.1)] at h
    obtain ⟨-, rfl, rfl⟩ := runs_pure.mp h
    exact ⟨rfl, rfl, fun a ha => absurd ha List.not_mem_nil⟩
  | some c =>
    have hj : 0 < st.j := Nat.pos_of_ne_zero fun hj => absurd (hst.j.mp hj) (Option.some_ne_none c)
    rw [if_pos ⟨hj, he.collection⟩, hst.current] at h
    have h' : Runs (addTriple x (.rest path) (some rdfRest) (some (x.gen c)) ((some rdfNil).map .resource) e.context)
      n u m l := h
    obtain ⟨rfl, rfl⟩ := addTriple_runs h'
    refine ⟨rfl, ?_, fun a ha => ?_⟩
    · rw [own_tripleOf path (.rest path) rfl (by simp), tripleOf, if_neg (show ¬ rdfRest.isContext from rdf_isContext "rest")]
      rfl
    · obtain ⟨hrole, hs⟩ := mem_tripleOf ha
      rw [orSource_gen] at hs
      rw [hrole]
      exact ⟨rfl, c, rfl, (Option.some.inj hs).symm⟩

/-! ## The statements of the stages -/

/-- The cell of a stage, with the resource that it gets. -/
def Stage.link (x : Expat) (s : Stage) : Resource × Resource := (x.gen s.cell, (objectOf x s.id).getD rdfNil)

/-- The two statements of a stage. -/
def Stage.statements (x : Expat) (subject p : Resource) (context : Option Resource) (s : Stage) : List Statement :=
  linkStatements x subject p context s.prev s.cell ++ firstStatements x context s.cell s.id

/-- All that the stages assert for the property itself, and the end of the list. -/
def listed (x : Expat) (subject p : Resource) (context : Option Resource) (prev : Option ℕ) (ss : List Stage) :
    List Statement :=
  ss.flatMap (·.statements x subject p context) ++ endStatements x context (lastCell prev ss)

theorem own_flatMap (ss : List Stage) (h : ∀ s ∈ ss, s.Holds x path e subject p reified) :
    own path (ss.flatMap (·.said)) = ss.flatMap (·.statements x subject p e.context) := by
  induction ss with
  | nil => rfl
  | cons s ss ih =>
    obtain ⟨hs, hss⟩ := List.forall_mem_cons.mp h
    rw [List.flatMap_cons, List.flatMap_cons, own_append, hs.own, ih hss]
    rfl

theorem firstStatements_some {context : Option Resource} {cell : ℕ} {id : Bytes} (h : (objectOf x id).isSome = true) :
    firstStatements x context cell id = [⟨x.gen cell, rdfFirst, .resource ((objectOf x id).getD rdfNil), context⟩] := by
  unfold firstStatements
  obtain ⟨v, hv⟩ := Option.isSome_iff_exists.mp h
  rw [hv]
  rfl

/-- Behind a cell the stages go on with the list, if each has a resource for its cell. -/
theorem listed_behind {context : Option Resource} {c : ℕ} {ss : List Stage} (h : Chained (some c) n ss m)
    (hsome : ∀ s ∈ ss, (objectOf x s.id).isSome = true) :
    listed x subject p context (some c) ss = behindCell context (x.gen c) (ss.map (·.link x)) := by
  induction ss generalizing c n with
  | nil => rfl
  | cons s ss ih =>
    obtain ⟨hprev, -, h⟩ := h
    obtain ⟨hs, hss⟩ := List.forall_mem_cons.mp hsome
    have hih := ih h hss
    unfold listed at hih ⊢
    rw [List.flatMap_cons, List.append_assoc, lastCell, hih, Stage.statements, hprev, linkStatements,
      firstStatements_some hs, List.map_cons, behindCell_cons]
    rfl

/-- The stages from the first on make the whole list. -/
theorem listed_whole {context : Option Resource} {ss : List Stage} (hss : ss ≠ []) (hp : ¬ p.isContext)
    (h : Chained none n ss m) (hsome : ∀ s ∈ ss, (objectOf x s.id).isSome = true) :
    listed x subject p context none ss = listStatements subject p context (ss.map (·.link x)) := by
  cases ss with
  | nil => exact absurd rfl hss
  | cons s ss =>
    obtain ⟨hprev, -, h⟩ := h
    obtain ⟨hs, hss⟩ := List.forall_mem_cons.mp hsome
    have hbehind := @listed_behind x _ _ p subject context _ _ h hss
    unfold listed at hbehind ⊢
    rw [List.flatMap_cons, List.append_assoc, lastCell, hbehind, Stage.statements, hprev, linkStatements, if_neg hp,
      firstStatements_some hs, List.map_cons, listStatements, chain_cons]
    rfl

theorem length_firstStatements (context : Option Resource) (cell : ℕ) (id : Bytes) :
    (firstStatements x context cell id).length = if (objectOf x id).isSome then 1 else 0 := by
  unfold firstStatements
  cases objectOf x id with
  | none => rfl
  | some v => rfl

/-- Two statements for each stage and one for the end, less those of the cells without a resource. -/
theorem length_listed_behind {context : Option Resource} {c : ℕ} {ss : List Stage} (h : Chained (some c) n ss m) :
    (listed x subject p context (some c) ss).length =
      ss.length + ss.countP (fun s => (objectOf x s.id).isSome) + 1 := by
  induction ss generalizing c n with
  | nil => rfl
  | cons s ss ih =>
    obtain ⟨hprev, -, h⟩ := h
    have hih := ih h
    unfold listed at hih ⊢
    rw [List.flatMap_cons, List.append_assoc, lastCell, List.length_append, hih, Stage.statements, hprev, linkStatements,
      List.length_append, length_firstStatements, List.length_singleton, List.length_cons, List.countP_cons]
    omega

theorem length_listed {context : Option Resource} {ss : List Stage} (hss : ss ≠ []) (h : Chained none n ss m) :
    (listed x subject p context none ss).length =
      ss.length + ss.countP (fun s => (objectOf x s.id).isSome) + if p.isContext then 0 else 1 := by
  cases ss with
  | nil => exact absurd rfl hss
  | cons s ss =>
    obtain ⟨hprev, -, h⟩ := h
    have hbehind := @length_listed_behind x _ _ p subject context _ _ h
    unfold listed at hbehind ⊢
    have hlink : (linkStatements x subject p context none s.cell).length = if p.isContext then 0 else 1 := by
      unfold linkStatements
      split_ifs
      · rfl
      · rfl
    rw [List.flatMap_cons, List.append_assoc, lastCell, List.length_append, hbehind, Stage.statements, hprev,
      List.length_append, length_firstStatements, hlink, List.length_cons, List.countP_cons]
    omega

/-! ## What is said of an object -/

/-- The stages of a collection make all that is said, up to the end of the list. -/
structure ListRun (x : Expat) (path : Path) (e : Element) (subject p : Resource) (reified : Bool) (ss : List Stage)
    (n m : ℕ) (l : List Assertion) : Prop where
  chained : Chained none n ss m
  holds : ∀ s ∈ ss, s.Holds x path e subject p reified
  said : ∃ l', l = ss.flatMap (·.said) ++ l' ∧ own path l' = endStatements x e.context (lastCell none ss) ∧
    ∀ a ∈ l', a.role.place = path ∧ ∃ c, lastCell none ss = some c ∧ a.statement.subject = x.gen c
  proper : ∀ s ∈ ss, s.object.Proper x
  inside : ∀ s ∈ ss, ∃ k, s.object.path = .child k :: path
  paths : (ss.map (·.object.path)).Nodup

section

variable {ss : List Stage} (h : ListRun x path e subject p reified ss n m l)

include h

theorem ListRun.own_said : own path l = listed x subject p e.context none ss := by
  obtain ⟨l', rfl, hl', -⟩ := h.said
  rw [own_append, own_flatMap ss h.holds, hl', listed]

theorem ListRun.mem_said {s : Stage} (hs : s ∈ ss) {a : Assertion} (ha : a ∈ s.said) : a ∈ l := by
  obtain ⟨l', rfl, -⟩ := h.said
  exact List.mem_append_left _ (List.mem_flatMap_of_mem hs ha)

/-- Two stages have different numbers. -/
theorem ListRun.apart : ∀ s ∈ ss, ∀ t ∈ ss, s = t ∨ s.m ≤ t.n ∨ t.m ≤ s.n := by
  have hpairwise := h.chained.pairwise h.holds
  clear h
  induction hpairwise with
  | nil => exact fun s hs => absurd hs List.not_mem_nil
  | cons hfirst _ ih =>
    intro s hs t ht
    rcases List.mem_cons.mp hs with hsa | hs'
    · rcases List.mem_cons.mp ht with hta | ht'
      · exact .inl (hsa.trans hta.symm)
      · rw [hsa]
        exact .inr (.inl (hfirst t ht'))
    · rcases List.mem_cons.mp ht with hta | ht'
      · rw [hta]
        exact .inr (.inr (hfirst s hs'))
      · exact ih s hs' t ht'

/-- What is said about an object is said at its stage. -/
theorem ListRun.about {s : Stage} (hs : s ∈ ss) {a : Assertion} (ha : a ∈ l) (hab : About s.object.path a) :
    a ∈ s.said := by
  obtain ⟨l', rfl, -, hl'⟩ := h.said
  obtain ⟨k, hk⟩ := h.inside s hs
  rcases List.mem_append.mp ha with ha | ha
  · obtain ⟨t, ht, ha⟩ := List.mem_flatMap.mp ha
    obtain ⟨i, hi⟩ := h.inside t ht
    rcases (h.holds t ht).places a ha with hin | hplace
    · have hsame : t.object.path = s.object.path := by
        unfold Inside at hin
        rcases place_of_about hab with hab | ⟨s', hab⟩
        · rw [hab] at hin
          exact hin.eq_of_length (by rw [hi, hk, List.length_cons, List.length_cons])
        · rw [hab] at hin
          rcases List.suffix_cons_iff.mp hin with hin | hin
          · have hlen := congrArg List.length hin
            rw [hi, hk, List.length_cons, List.length_cons, List.length_cons] at hlen
            omega
          · exact hin.eq_of_length (by rw [hi, hk, List.length_cons, List.length_cons])
      rw [List.inj_on_of_nodup_map h.paths hs ht hsame.symm]
      exact ha
    · exact absurd hab (not_about_of_place ⟨_, hk⟩ hplace)
  · exact absurd hab (not_about_of_place ⟨_, hk⟩ (hl' a ha).1)

/-- The property itself speaks of cells and of a reified statement. -/
theorem ListRun.subjects {a : Assertion} (ha : a ∈ l) (hplace : a.role.place = path) (hstates : a.role.states = none) :
    (∃ s ∈ ss, a.statement.subject = x.gen s.cell) ∨
      ∃ s ∈ ss, s.prev = none ∧ Noted x e (s.cell + 1) s.m a.statement.subject := by
  obtain ⟨l', rfl, -, hl'⟩ := h.said
  rcases List.mem_append.mp ha with ha | ha
  · obtain ⟨s, hs, ha⟩ := List.mem_flatMap.mp ha
    rcases (h.holds s hs).cells a ha hplace hstates with hsub | ⟨c, hc, hsub⟩ | ⟨hprev, hnoted⟩
    · exact .inl ⟨s, hs, hsub⟩
    · rcases h.chained.prev_mem s hs with hprev | ⟨t, ht, hprev⟩
      · exact absurd (hprev.symm.trans hc) (Option.some_ne_none c).symm
      · rw [← Option.some.inj (hprev.symm.trans hc)] at hsub
        exact .inl ⟨t, ht, hsub⟩
    · exact .inr ⟨s, hs, hprev, hnoted⟩
  · obtain ⟨-, c, hc, hsub⟩ := hl' a ha
    rcases lastCell_mem hc with hnone | ⟨s, hs, rfl⟩
    · exact absurd hnone (Option.some_ne_none c).symm
    · exact .inl ⟨s, hs, hsub⟩

end

theorem objectOf_nil : objectOf x [] = none := rfl

theorem objectOf_genid (k : ℕ) : objectOf x (x.genid k) = some (x.gen k) := rfl

/-- The identifier in `rdf:ID` names no new bNode. -/
def Element.Own (x : Expat) (e : Element) : Prop :=
  ∀ id v, given e.sID = some id → orSource x (buildResource id) = some v → ∀ k, v ≠ x.gen k

/-- The object of a sound stage has the resource of the object, a bNode of the stage if the object has no identifier. -/
theorem ListRun.standsFor {ss : List Stage} (h : ListRun x path e subject p reified ss n m l) (hown : e.Own x) {s : Stage}
    (hs : s ∈ ss) (hsound : s.object.Sound x e (s.Replaced e reified)) :
    ∃ v, objectOf x s.id = some v ∧ StandsFor x path l s.object v ∧
      (s.object.e.identity = none → ∃ j, s.n ≤ j ∧ j < s.cell ∧ v = x.gen j) := by
  have hnamed : ∀ S, s.object.e.identity = some S → ∀ v, objectOf x s.id = some v → objectOf x S = some v →
      ∃ v, objectOf x s.id = some v ∧ StandsFor x path l s.object v ∧
        (s.object.e.identity = none → ∃ j, s.n ≤ j ∧ j < s.cell ∧ v = x.gen j) := by
    intro S hS v hv hSv
    refine ⟨v, hv, ?_, fun hno => absurd (hS.symm.trans hno) (Option.some_ne_none S)⟩
    unfold StandsFor
    rw [hS]
    exact hSv
  cases (h.holds s hs).value with
  | @named S hr hS hn hid =>
    obtain ⟨v, hv, -⟩ := (h.proper s hs).named S hS
    exact hnamed S hS v (by rw [hid]; exact hv) hv
  | @renamed S hr hS hid =>
    have hident := identity_of_sID hS.2.1 hS.2.2.1
    obtain ⟨v, hv, -⟩ := (h.proper s hs).named S hident
    have heq := (hsound.2 hr).2 S hS
    have hne : x.normalize S ≠ [] := by
      intro hnil
      rw [hnil, objectOf_nil, hv] at heq
      exact absurd heq (Option.some_ne_none v).symm
    refine hnamed S hident v ?_ hv
    rw [hid, given_some hne, Option.getD_some, heq, hv]
  | @new j hr hno hb hn hj hid about =>
    refine ⟨x.gen j, by rw [hid, objectOf_genid], ?_, fun _ => ⟨j, hn, hj, rfl⟩⟩
    unfold StandsFor
    rw [hno]
    refine ⟨⟨x.genlabel j, rfl⟩, fun a ha hab => ?_, fun a ha hplace hstates hsub => ?_⟩
    · have hsub := about a (h.about hs ha hab) hab
      rw [buildResource_genid, orSource_gen] at hsub
      exact (Option.some.inj hsub).symm
    · -- the numbers of the cells and of the reified statement are others
      have hlt := (h.holds s hs).lt
      have hother : ∀ t ∈ ss, ∀ i, t.cell ≤ i → i < t.m → i ≠ j := by
        intro t ht i hi hm
        have hle := (h.holds t ht).le
        rcases h.apart s hs t ht with rfl | hst | hst
        · omega
        · omega
        · omega
      rcases h.subjects ha hplace hstates with ⟨t, ht, hcell⟩ | ⟨t, ht, -, hnoted⟩
      · have hj' := Expat.gen_injective (hcell.symm.trans hsub)
        exact hother t ht t.cell (Nat.le_refl _) (h.holds t ht).lt hj'
      · rcases hnoted with ⟨id, hid, hv⟩ | ⟨i, hi, hm, hv⟩
        · exact hown id _ hid hv j hsub
        · exact hother t ht i (by omega) hm (Expat.gen_injective (hv.symm.trans hsub))
  | bare hr hb hid => exact absurd hb (hsound.2 hr).1
  | @statement j hr hid hnoted =>
    obtain ⟨id, S, hgiven, hS, heq⟩ := hsound.1 hr
    obtain ⟨v, hv, -⟩ := (h.proper s hs).named S hS
    have hsame : s.id = id := by
      generalize hsid : some s.id = statement at hid
      cases hid with
      | none _ => exact absurd hsid (Option.some_ne_none _)
      | given hgiven' =>
        rw [Option.some.inj hsid]
        exact Option.some.inj (hgiven'.symm.trans hgiven)
      | new hnone _ _ _ => exact absurd (hgiven.symm.trans hnone) (Option.some_ne_none id)
    exact hnamed S hS v (by rw [hsame, heq, hv]) hv

/-- Where the resource of the cell stands for the object, the stage is sound. -/
theorem ListRun.sound {ss : List Stage} (h : ListRun x path e subject p reified ss n m l) {s : Stage} (hs : s ∈ ss)
    {v : Resource} (hv : objectOf x s.id = some v) (hstands : StandsFor x path l s.object v) :
    s.object.Sound x e (s.Replaced e reified) := by
  have hnamed : ∀ S, s.object.e.identity = some S → objectOf x S = some v ∧ ∀ k, v ≠ x.gen k := by
    intro S hS
    unfold StandsFor at hstands
    rw [hS] at hstands
    obtain ⟨w, hw, hgen⟩ := (h.proper s hs).named S hS
    rw [Option.some.inj (hstands.symm.trans hw)]
    exact ⟨hw, hgen⟩
  -- without an identifier the resource is neither a cell nor a reified statement
  have hfree : s.object.e.identity = none → ∀ a ∈ s.said, a.role.place = path → a.role.states = none →
      a.statement.subject ≠ v := by
    intro hno a ha
    unfold StandsFor at hstands
    rw [hno] at hstands
    exact hstands.2.2 a (h.mem_said hs ha)
  refine ⟨fun hr => ?_, fun hr => ⟨fun hb => ?_, fun S hS => ?_⟩⟩
  · cases (h.holds s hs).value with
    | named hr' => exact absurd hr hr'
    | renamed hr' => exact absurd hr hr'
    | new hr' => exact absurd hr hr'
    | bare hr' => exact absurd hr hr'
    | @statement j _ hid hnoted =>
      cases hident : s.object.e.identity with
      | none =>
        obtain ⟨a, ha, hrole, hsub⟩ := hnoted v (orSource_of_objectOf hv)
        rw [orSource_of_objectOf hv] at hsub
        refine absurd (Option.some.inj hsub).symm (hfree hident a ha ?_ ?_)
        · rw [hrole]
          rfl
        · rw [hrole]
          rfl
      | some S =>
        obtain ⟨hS, hgen⟩ := hnamed S hident
        generalize hsid : some s.id = statement at hid
        cases hid with
        | none _ => exact absurd hsid (Option.some_ne_none _)
        | given hgiven =>
          rw [← Option.some.inj hsid] at hgiven
          exact ⟨s.id, S, hgiven, rfl, hv.trans hS.symm⟩
        | @new k _ _ _ _ =>
          rw [Option.some.inj hsid, objectOf_genid] at hv
          exact absurd (Option.some.inj hv).symm (hgen k)
  · cases (h.holds s hs).value with
    | @named S _ hS => exact absurd (hS.symm.trans hb.2.1) (Option.some_ne_none S)
    | @renamed S _ hS =>
      exact absurd ((identity_of_sID hS.2.1 hS.2.2.1).symm.trans hb.2.1) (Option.some_ne_none S)
    | new _ _ hb' => exact hb' hb
    | bare _ _ hid =>
      obtain ⟨a, ha, hplace, hstates, hsub⟩ := (h.holds s hs).first (by rw [hv]; rfl)
      rw [hid, objectOf_genid] at hv
      exact hfree hb.2.1 a ha hplace hstates (hsub.trans (Option.some.inj hv))
    | statement hr' => exact hr hr'
  · have hident := identity_of_sID hS.2.1 hS.2.2.1
    obtain ⟨hSv, hgen⟩ := hnamed S hident
    cases (h.holds s hs).value with
    | named _ _ hn => exact absurd hS (hn S)
    | @renamed T _ hT hid =>
      have hTS : T = S := Option.some.inj (hT.2.2.1.symm.trans hS.2.2.1)
      rw [hTS] at hid
      by_cases hne : x.normalize S = []
      · rw [hne] at hid
        rw [hid] at hv
        exact absurd (Option.some.inj hv).symm (hgen s.cell)
      · rw [given_some hne, Option.getD_some] at hid
        rw [← hid, hv, hSv]
    | new _ hno => exact absurd (hident.symm.trans hno) (Option.some_ne_none S)
    | bare _ hb => exact absurd (hident.symm.trans hb.2.1) (Option.some_ne_none S)
    | statement hr' => exact absurd hr' hr

/-! ## Regular objects -/

/-- A stage is that of the first object exactly if there is no cell before it. -/
theorem sound_iff_stages {ss : List Stage} (h : Chained none n ss m) :
    (∀ s ∈ ss, s.object.Sound x e (s.Replaced e reified)) ↔
      (∀ o ∈ (ss.map (·.object)).head?, o.Sound x e (o.e.isDescription = true ∧ Reifies e reified)) ∧
        ∀ o ∈ (ss.map (·.object)).tail, o.Sound x e False := by
  cases ss with
  | nil =>
    refine ⟨fun _ => ⟨fun o ho => ?_, List.forall_mem_nil _⟩, fun _ => List.forall_mem_nil _⟩
    exact absurd ho (Option.not_mem_none o)
  | cons t ss =>
    obtain ⟨hprev, -, h⟩ := h
    have htail : ∀ s ∈ ss, s.Replaced e reified = False := by
      intro s hs
      refine eq_false fun hr => ?_
      rcases h.prev_mem s hs with hs | ⟨u, -, hs⟩
      · exact absurd (hs.symm.trans hr.1) (Option.some_ne_none _)
      · exact absurd (hs.symm.trans hr.1) (Option.some_ne_none _)
    have hhead : t.Replaced e reified = (t.object.e.isDescription = true ∧ Reifies e reified) :=
      propext ⟨fun hr => hr.2, fun hr => ⟨hprev, hr⟩⟩
    rw [List.forall_mem_cons, hhead, List.map_cons, List.head?_cons, List.tail_cons]
    refine and_congr ⟨fun hs o ho => ?_, fun hs => hs _ rfl⟩ ⟨fun hs o ho => ?_, fun hs s hmem => ?_⟩
    · rw [← Option.some.inj ho]
      exact hs
    · obtain ⟨s, hmem, rfl⟩ := List.mem_map.mp ho
      rw [← htail s hmem]
      exact hs s hmem
    · rw [htail s hmem]
      exact hs _ (List.mem_map_of_mem hmem)

/-- The stages make a well-formed list exactly if the statements of the property are asserted and each is sound. -/
theorem ListRun.wellFormed_iff {ss : List Stage} (h : ListRun x path e subject p reified ss n m l) (hown : e.Own x)
    (hss : ss ≠ []) :
    WellFormedList x path subject p e.context (ss.map (·.object)) l ↔
      ¬ p.isContext ∧ ∀ s ∈ ss, s.object.Sound x e (s.Replaced e reified) := by
  constructor
  · rintro ⟨cells, hl, -, hstands, -⟩
    rw [h.own_said] at hl
    -- there are as many statements as a list of these objects has
    have hlen := congrArg List.length hl
    rw [length_listed hss h.chained, length_listStatements, ← hstands.length_eq, List.length_map] at hlen
    have hcount := List.countP_le_length (p := fun s : Stage => (objectOf x s.id).isSome) (l := ss)
    have hp : ¬ p.isContext := by
      intro hp
      rw [if_pos hp] at hlen
      omega
    rw [if_neg hp] at hlen
    have hsome : ∀ s ∈ ss, (objectOf x s.id).isSome = true := List.countP_eq_length.mp (by omega)
    rw [listed_whole hss hp h.chained hsome] at hl
    have hcells := chain_injective e.context (List.cons.inj hl).2
    rw [← hcells, List.forall₂_map_left_iff, List.forall₂_map_right_iff, List.forall₂_same] at hstands
    refine ⟨hp, fun s hs => ?_⟩
    obtain ⟨v, hv⟩ := Option.isSome_iff_exists.mp (hsome s hs)
    have hstand : StandsFor x path l s.object ((objectOf x s.id).getD rdfNil) := hstands s hs
    rw [hv] at hstand
    exact h.sound hs hv hstand
  · rintro ⟨hp, hsound⟩
    have hstand := fun s hs => h.standsFor hown hs (hsound s hs)
    have hsome : ∀ s ∈ ss, (objectOf x s.id).isSome = true := by
      intro s hs
      obtain ⟨v, hv, -⟩ := hstand s hs
      rw [hv]
      rfl
    have hpairwise := h.chained.pairwise h.holds
    refine ⟨ss.map (·.link x), ?_, ?_, ?_, ?_⟩
    · rw [h.own_said, listed_whole hss hp h.chained hsome]
    · rw [List.map_map]
      refine List.pairwise_map.mpr (hpairwise.imp_of_mem fun {s t} hs ht hst heq => ?_)
      have hcell := Expat.gen_injective (show x.gen s.cell = x.gen t.cell from heq)
      have hlt := (h.holds s hs).lt
      have hle := (h.holds t ht).le
      omega
    · rw [List.forall₂_map_left_iff, List.forall₂_map_right_iff, List.forall₂_same]
      intro s hs
      obtain ⟨v, hv, hstands, -⟩ := hstand s hs
      show StandsFor x path l s.object ((objectOf x s.id).getD rdfNil)
      rw [hv]
      exact hstands
    · rw [List.zip_map', List.filter_map, List.map_map]
      refine List.pairwise_map.mpr ((hpairwise.sublist List.filter_sublist).imp_of_mem fun {s t} hs ht hst heq => ?_)
      obtain ⟨hs, hno⟩ := List.mem_filter.mp hs
      obtain ⟨ht, hno'⟩ := List.mem_filter.mp ht
      obtain ⟨v, hv, -, hnew⟩ := hstand s hs
      obtain ⟨w, hw, -, hnew'⟩ := hstand t ht
      obtain ⟨i, -, hi, rfl⟩ := hnew (Option.isNone_iff_eq_none.mp hno)
      obtain ⟨j, hj, -, rfl⟩ := hnew' (Option.isNone_iff_eq_none.mp hno')
      have heq : (objectOf x s.id).getD rdfNil = (objectOf x t.id).getD rdfNil := heq
      rw [hv, hw] at heq
      have hij := Expat.gen_injective (show x.gen i = x.gen j from heq)
      have hlt := (h.holds s hs).lt
      omega

/-! ## The property -/

theorem length_nodeChildren (i : ℕ) (nodes : List Node) : (Node.children x path i nodes).length = nodes.length := by
  induction nodes generalizing i with
  | nil => rw [Node.children]; rfl
  | cons node nodes ih => rw [Node.children, List.length_cons, List.length_cons, ih]

/-- A text next to an object is not the only child. -/
theorem not_only {nodes : List Node} (hobjects : objects path 0 nodes ≠ []) {d : DataElement} (hd : Node.data d ∈ nodes) :
    decide ((Node.children x path 0 nodes).length = 1) = false := by
  refine decide_eq_false fun hone => ?_
  rw [length_nodeChildren] at hone
  obtain ⟨node, rfl⟩ := List.length_eq_one_iff.mp hone
  rw [← List.mem_singleton.mp hd] at hobjects
  exact hobjects rfl

/-- The loop over the children, and the end of the list. -/
theorem processPredicate_loop {nodes : List Node} {r : Option Bytes} (he : e.Lists x sTarget subject p) (hnodes : nodes ≠ [])
    (h : Runs (processPredicate x path e (Node.children x path 0 nodes) sTarget reified) n r m l) :
    ∃ st' k l₁ l₂, Runs ((Node.children x path 0 nodes).foldlM
        (linkChild x path e reified (decide ((Node.children x path 0 nodes).length = 1)))
        ⟨e.sID, sTarget, e.sID, none, 0, 1⟩) n st' k l₁ ∧
      Runs (closeList x path e st') k () m l₂ ∧ l = l₁ ++ l₂ := by
  unfold processPredicate at h
  rw [he.plain] at h
  unfold linkPredicate at h
  cases hc : Node.children x path 0 nodes with
  | nil =>
    have hlen := @length_nodeChildren x path 0 nodes
    rw [hc] at hlen
    exact absurd (List.length_eq_zero_iff.mp hlen.symm) hnodes
  | cons c cs =>
    rw [hc, he.reference] at h
    dsimp only at h
    obtain ⟨st', k, l₁, l₂, h₁, h₂, rfl⟩ := runs_bind.mp h
    obtain ⟨u, k', l₃, l₄, h₃, h₄, rfl⟩ := runs_bind.mp h₂
    obtain ⟨-, rfl, rfl⟩ := runs_pure.mp h₄
    refine ⟨st', k, l₁, l₃, h₁, h₃, ?_⟩
    rw [List.append_nil]

/-- Nothing in the list: the property has `rdf:nil`. -/
theorem processPredicate_empty {nodes : List Node} {r : Option Bytes} (he : e.Lists x sTarget subject p)
    (hw : WhiteSpace nodes) (hnone : objects path 0 nodes = [])
    (h : Runs (processPredicate x path e (Node.children x path 0 nodes) sTarget reified) n r m l) :
    own path l = if p.isContext then [] else [⟨subject, p, .resource rdfNil, e.context⟩] := by
  have hassert : ∀ {r : Option Bytes} {k : ℕ} {l : List Assertion}, Runs (assertProperty x (.list path) path e e.sID reified
      sTarget ((some rdfNil).map .resource)) n r k l →
        own path l = if p.isContext then [] else [⟨subject, p, .resource rdfNil, e.context⟩] := by
    intro r k l hrun
    obtain ⟨_, l₂, rfl, -, -, hreif⟩ := assertProperty_runs he.nodeID he.predicate hrun
    have habout : ∀ a ∈ l₂, a.role = .reification path := fun a ha => by
      obtain ⟨_, -, hab⟩ := hreif.about a ha
      exact hab.1
    rw [own_append, own_reification habout, List.append_nil, own_tripleOf path (.list path) rfl (by simp), tripleOf,
      orSource_of_objectOf he.subject]
    split_ifs
    · rfl
    · rfl
  have hdata : ∀ node ∈ nodes, node.isText = true := by
    clear h hw
    generalize (0 : ℕ) = i at hnone
    induction nodes generalizing i with
    | nil => exact fun node hn => absurd hn List.not_mem_nil
    | cons node nodes ih =>
      cases node with
      | data d => exact List.forall_mem_cons.mpr ⟨rfl, ih (i + 1) hnone⟩
      | element b inner => exact absurd hnone (List.cons_ne_nil _ _)
  have hone := hw.one
  rw [List.countP_eq_length.mpr hdata] at hone
  rcases Nat.le_one_iff_eq_zero_or_eq_one.mp hone with hzero | hsingle
  · rw [List.length_eq_zero_iff.mp hzero] at h
    unfold processPredicate at h
    rw [he.plain] at h
    unfold linkPredicate at h
    rw [he.reference, Node.children] at h
    dsimp only at h
    obtain ⟨statement, k, l₁, l₂, h₁, h₂, rfl⟩ := runs_bind.mp h
    obtain ⟨-, rfl, rfl⟩ := runs_pure.mp h₂
    have hobject : emptyObject x e none = (some rdfNil).map .resource := by
      unfold emptyObject
      rw [if_pos he.collection]
      rfl
    rw [if_pos he.collection, hobject] at h₁
    rw [List.append_nil]
    exact hassert h₁
  · obtain ⟨node, rfl⟩ := List.length_eq_one_iff.mp hsingle
    cases node with
    | element b inner => exact absurd (hdata _ (List.mem_singleton.mpr rfl)) Bool.false_ne_true
    | data d =>
      obtain ⟨st', k, l₁, l₂, h₁, h₂, rfl⟩ := processPredicate_loop he (List.cons_ne_nil _ _) h
      rw [Node.children, Node.children, Node.child] at h₁
      obtain ⟨st₁, k₁, l₃, l₄, h₃, h₄, rfl⟩ := runs_foldlM_cons.mp h₁
      obtain ⟨rfl, rfl, rfl⟩ := runs_foldlM_nil.mp h₄
      simp only [linkChild] at h₃
      unfold linkData at h₃
      rw [if_neg (fun hlt => absurd hlt.1 (Nat.lt_irrefl 1)), if_pos (.inr (by rfl)), he.reference] at h₃
      obtain ⟨statement, k₂, l₅, l₆, h₅, h₆, rfl⟩ := runs_bind.mp h₃
      obtain ⟨rfl, rfl, rfl⟩ := runs_pure.mp h₆
      have hobject : textObject e d = (some rdfNil).map .resource := by
        unfold textObject
        rw [if_pos he.collection]
        rfl
      rw [if_pos he.collection, hobject] at h₅
      unfold closeList at h₂
      rw [if_neg] at h₂
      · obtain ⟨-, rfl, rfl⟩ := runs_pure.mp h₂
        rw [List.append_nil, List.append_nil, List.append_nil]
        exact hassert h₅
      · cases statement with
        | none => exact fun hj => absurd hj.1 (Nat.lt_irrefl 0)
        | some id => exact fun hj => absurd hj.1 (Nat.lt_irrefl 0)

/-- An object that takes a cell. -/
def ObjectNode.isListed (o : ObjectNode) : Bool := o.e.isDescription || o.e.container.isNone

theorem isListed_iff {o : ObjectNode} : o.isListed = true ↔ o.e.isDescription = true ∨ o.e.container = none := by
  unfold ObjectNode.isListed
  rw [Bool.or_eq_true, Option.isNone_iff_eq_none]

/-- The children weigh one for each object, and one more for each that takes a cell. -/
theorem weight_nodeChildren (i : ℕ) (nodes : List Node) :
    ((Node.children x path i nodes).map Child.weight).sum =
      (objects path i nodes).length + (objects path i nodes).countP ObjectNode.isListed := by
  induction nodes generalizing i with
  | nil => rw [Node.children]; rfl
  | cons node nodes ih =>
    rw [Node.children, List.map_cons, List.sum_cons, ih]
    cases node with
    | data d =>
      rw [Node.child, objects]
      exact Nat.zero_add _
    | element b inner =>
      rw [Node.child, objects, List.length_cons, List.countP_cons]
      show b.weight + _ = _
      unfold Element.weight ObjectNode.isListed
      dsimp only
      cases b.isDescription <;> cases b.container <;> simp <;> omega

/-- With a container among the objects there are too few statements. -/
theorem listed_of_wellFormed {nodes : List Node} {r : Option Bytes} (he : e.Lists x sTarget subject p)
    (hw : WhiteSpace nodes) (hobjects : objects path 0 nodes ≠ [])
    (h : Runs (processPredicate x path e (Node.children x path 0 nodes) sTarget reified) n r m l)
    (hlist : WellFormedList x path subject p e.context (objects path 0 nodes) l) :
    ∀ o ∈ objects path 0 nodes, o.e.isDescription = true ∨ o.e.container = none := by
  obtain ⟨st', k, l₁, l₂, h₁, h₂, rfl⟩ := processPredicate_loop he (fun hnil => hobjects (by rw [hnil]; rfl)) h
  have hloop := linkLoop_counts he.collection (fun _ => rfl) (fun c hc => ⟨?_, Node.children_placed x path 0 nodes c hc⟩) h₁
  · have hend : (own path l₂).length ≤ 1 := by
      unfold closeList at h₂
      split_ifs at h₂
      · exact owns_addTriple _ _ _ _ _ h₂
      · obtain ⟨-, -, rfl⟩ := runs_pure.mp h₂
        exact Nat.zero_le _
    obtain ⟨cells, hl, -, hstands, -⟩ := hlist
    have hlen := congrArg List.length hl
    rw [own_append, List.length_append, length_listStatements, ← hstands.length_eq] at hlen
    rw [weight_nodeChildren] at hloop
    have hcount := List.countP_le_length (p := ObjectNode.isListed) (l := objects path 0 nodes)
    exact fun o ho => isListed_iff.mp (List.countP_eq_length.mp (by omega) o ho)
  · obtain ⟨k, node, hnode, rfl⟩ := mem_nodeChildren hc
    cases node with
    | data d =>
      rw [Node.child]
      exact ⟨hw.blank d hnode, not_only hobjects hnode⟩
    | element b inner =>
      rw [Node.child]
      trivial

/-- What a collection asserts is a well-formed list exactly if its objects are regular. -/
theorem wellFormedList_iff {nodes : List Node} {r : Option Bytes} (he : e.Lists x sTarget subject p) (hown : e.Own x)
    (hw : WhiteSpace nodes) (hproper : ∀ o ∈ objects path 0 nodes, o.Proper x)
    (h : Runs (processPredicate x path e (Node.children x path 0 nodes) sTarget reified) n r m l) :
    WellFormedList x path subject p e.context (objects path 0 nodes) l ↔ Regular x e reified p (objects path 0 nodes) := by
  by_cases hobjects : objects path 0 nodes = []
  · have hl := processPredicate_empty he hw hobjects h
    rw [hobjects]
    constructor
    · rintro ⟨cells, hcells, -, hstands, -⟩
      rw [hl, List.forall₂_nil_left_iff.mp hstands] at hcells
      refine ⟨fun hp => ?_, List.forall_mem_nil _, fun o ho => absurd ho (Option.not_mem_none o),
        List.forall_mem_nil _⟩
      rw [if_pos hp] at hcells
      exact absurd hcells (List.cons_ne_nil _ _).symm
    · rintro ⟨hp, -⟩
      rw [if_neg hp] at hl
      exact ⟨[], hl, List.nodup_nil, List.Forall₂.nil, List.nodup_nil⟩
  · by_cases hlist : ∀ o ∈ objects path 0 nodes, o.e.isDescription = true ∨ o.e.container = none
    · obtain ⟨st', k, l₁, l₂, h₁, h₂, rfl⟩ := processPredicate_loop he (fun hnil => hobjects (by rw [hnil]; rfl)) h
      have hstart : LinkState.Behind x e sTarget none ⟨e.sID, sTarget, e.sID, none, 0, 1⟩ :=
        ⟨rfl, rfl, rfl, ⟨fun _ => rfl, fun _ => rfl⟩⟩
      obtain ⟨ss, hos, hchained, hss, rfl, hlast⟩ := linkLoop_stages he 0 nodes (fun o ho => ⟨hproper o ho, hlist o ho⟩)
        (fun d hd => ⟨hw.blank d hd, not_only hobjects hd⟩) hstart h₁
      obtain ⟨rfl, hend, hplaces⟩ := closeList_runs he hlast h₂
      obtain ⟨hpaths, hnodup⟩ := objects_paths path 0 nodes
      have hmem : ∀ s ∈ ss, s.object ∈ objects path 0 nodes := fun s hs => by
        rw [← hos]
        exact List.mem_map_of_mem hs
      have hrun : ListRun x path e subject p reified ss n k (ss.flatMap (·.said) ++ l₂) := {
        chained := hchained
        holds := hss
        said := ⟨l₂, rfl, hend, hplaces⟩
        proper := fun s hs => hproper _ (hmem s hs)
        inside := fun s hs => by
          obtain ⟨i, -, hi⟩ := hpaths _ (hmem s hs)
          exact ⟨i, hi⟩
        paths := by
          rw [← hos, List.map_map] at hnodup
          exact hnodup }
      have hne : ss ≠ [] := fun hnil => hobjects (by rw [← hos, hnil]; rfl)
      have hiff := hrun.wellFormed_iff hown hne
      rw [sound_iff_stages hchained, hos] at hiff
      exact hiff.trans ⟨fun hr => ⟨hr.1, hlist, hr.2.1, hr.2.2⟩, fun hr => ⟨hr.1, hr.2.2.1, hr.2.2.2⟩⟩
    · exact ⟨fun hwell => absurd (listed_of_wellFormed he hw hobjects h hwell) hlist, fun hr => absurd hr.2.1 hlist⟩

/-- A child is a text or an object. -/
theorem nodeChildren_cases {i : ℕ} {nodes : List Node} {c : Child} (h : c ∈ Node.children x path i nodes) :
    (∃ d, c = .data d) ∨ ∃ o ∈ objects path i nodes, c = .element o.e o.path (calls x o.path o.e (o.children x)) := by
  induction nodes generalizing i with
  | nil =>
    rw [Node.children] at h
    exact absurd h List.not_mem_nil
  | cons node nodes ih =>
    rw [Node.children] at h
    cases node with
    | data d =>
      rw [Node.child] at h
      rcases List.mem_cons.mp h with rfl | h
      · exact .inl ⟨d, rfl⟩
      · exact ih h
    | element b inner =>
      rw [Node.child] at h
      rcases List.mem_cons.mp h with rfl | h
      · exact .inr ⟨⟨.child i :: path, b, inner⟩, List.mem_cons_self, rfl⟩
      · rcases ih h with hd | ⟨o, ho, hc⟩
        · exact .inl hd
        · exact .inr ⟨o, List.mem_cons_of_mem _ ho, hc⟩

/-- A collection fails only if one of its objects does. -/
theorem processPredicate_returns {nodes : List Node} (he : e.Lists x sTarget subject p)
    (hproper : ∀ o ∈ objects path 0 nodes, o.Proper x) (hreturns : ∀ o ∈ objects path 0 nodes, o.Returns x) :
    Returns (processPredicate x path e (Node.children x path 0 nodes) sTarget reified) := by
  have htarget := builds_of_objectOf he.subject
  unfold processPredicate
  rw [he.plain]
  unfold linkPredicate
  rw [he.reference]
  cases hc : Node.children x path 0 nodes with
  | nil =>
    refine returns_bind (assertProperty_returns he.predicate htarget ?_) fun _ => returns_pure _
    unfold emptyObject
    rw [if_pos he.collection]
    rfl
  | cons c cs =>
    refine returns_bind (returns_foldlM (J := fun st : LinkState => st.sTarget = sTarget) (fun st hst child hchild => ?_) rfl)
      fun st => returns_bind ?_ fun _ => returns_pure _
    · constructor
      · have hbuilds : Builds st.sTarget := by
          rw [hst]
          exact htarget
        rcases nodeChildren_cases (hc ▸ hchild) with ⟨d, rfl⟩ | ⟨o, ho, rfl⟩
        · exact linkData_returns he.collection he.reference he.predicate hbuilds
        · simp only [linkChild]
          split_ifs with hd hcont
          · exact linkDescription_returns he.collection he.predicate hbuilds ((hreturns o ho).description hd)
          · exact linkContainer_returns he.collection he.predicate hbuilds
              ((hreturns o ho).container (Bool.eq_false_iff.mpr hd) hcont) (hproper o ho).gives_container
          · refine linkTypedNode_returns he.collection he.predicate
              ((hreturns o ho).typedNode (Bool.eq_false_iff.mpr hd) ?_)
            exact Option.not_isSome_iff_eq_none.mp hcont
          · exact returns_pure _
      · intro k st' k' l hrun
        rcases linkChild_target x path _ child hrun with h | h
        · exact h.trans hst
        · rw [he.reference] at h
          exact h.trans hst
    · unfold closeList
      split_ifs
      · exact addTriple_returns (.inr rfl)
      · exact returns_pure _

/-- A collection whose objects return does so, and asserts a well-formed list exactly if they are regular. -/
theorem collection_iff (x : Expat) (path : Path) (e : Element) (nodes : List Node) (sTarget : Bytes) (reified : Bool)
    (subject p : Resource) (he : e.Lists x sTarget subject p) (hown : e.Own x) (hw : WhiteSpace nodes)
    (hproper : ∀ o ∈ objects path 0 nodes, o.Proper x) :
    ((∀ o ∈ objects path 0 nodes, o.Returns x) →
      Returns (processPredicate x path e (Node.children x path 0 nodes) sTarget reified)) ∧
    ∀ n r m l, Runs (processPredicate x path e (Node.children x path 0 nodes) sTarget reified) n r m l →
      (WellFormedList x path subject p e.context (objects path 0 nodes) l ↔
        Regular x e reified p (objects path 0 nodes)) :=
  ⟨processPredicate_returns he hproper, fun _ _ _ _ => wellFormedList_iff he hown hw hproper⟩

/-! ## Two collections -/

/-- A parser with no base, which has seen no document. -/
def plainExpat : Expat where
  base := []
  sSource := ascii "d"
  bCreateBags := false
  lang := none
  datatype := none
  context := none
  randSeed := ascii "1"
  pid := 2
  timestamp := 3
  uri := ⟨fun _ => none, id, fun s _ => s⟩

/-- `<ex:p rdf:parseType="Collection">` -/
def listElement : Element :=
  { Element.new (some (ascii "e:")) (ascii "p") [⟨some rdfSyntaxNs, ascii "parseType", ascii "Collection"⟩] none none none with
    isCollection := true }

/-- `<ex:T/>` -/
def thingNode : Node := .element (Element.new (some (ascii "e:")) (ascii "T") [] none none none) []

/-- `<rdf:Bag/>` -/
def bagNode : Node := .element (Element.new (some rdfSyntaxNs) (ascii "Bag") [] none none none) []

theorem listElement_lists :
    listElement.Lists plainExpat (ascii "e:s") (.uri (ascii "e:s")) (.uri (ascii "e:p")) where
  collection := rfl
  reference := rfl
  nodeID := by decide
  plain := by decide
  predicate := by decide
  subject := by decide

theorem listElement_own : listElement.Own plainExpat := by
  intro id v hid
  exact absurd hid (Option.some_ne_none id).symm

theorem proper_of_new {k : ℕ} {ns : Option Bytes} {tag : Bytes}
    (hkind : (Element.new ns tag [] none none none).container.isSome = true ∨
      (Element.new ns tag [] none none none).isOther = true) :
    (⟨[.child k], Element.new ns tag [] none none none, []⟩ : ObjectNode).Proper plainExpat where
  kind := .inr hkind
  identified := ⟨nofun, fun _ => rfl, fun _ => rfl⟩
  bag := .inl rfl
  lawful := nofun
  named := nofun

theorem collection_two : ∃ r m l,
    Runs (processPredicate plainExpat [] listElement (Node.children plainExpat [] 0 [thingNode, thingNode]) (ascii "e:s")
      false) 0 r m l ∧
    WellFormedList plainExpat [] (.uri (ascii "e:s")) (.uri (ascii "e:p")) none (objects [] 0 [thingNode, thingNode]) l := by
  have hproper : ∀ o ∈ objects [] 0 [thingNode, thingNode], o.Proper plainExpat :=
    List.forall_mem_cons.mpr ⟨proper_of_new (.inr (by decide)),
      List.forall_mem_cons.mpr ⟨proper_of_new (.inr (by decide)), List.forall_mem_nil _⟩⟩
  have hnot : ∀ o ∈ objects [] 0 [thingNode, thingNode], o.e.isDescription = false := by decide
  have hsound : ∀ o ∈ objects [] 0 [thingNode, thingNode], ∀ replaced, ¬ replaced → o.Sound plainExpat listElement replaced := by
    intro o ho replaced hr
    have hd : ¬ o.e.isDescription = true := Bool.eq_false_iff.mp (hnot o ho)
    exact ⟨fun h => absurd h hr, fun _ => ⟨fun hb => hd hb.1, fun S hS => absurd hS.1 hd⟩⟩
  refine ⟨_, _, _, rfl, ((collection_iff plainExpat [] listElement [thingNode, thingNode] (ascii "e:s") false _ _
    listElement_lists listElement_own ⟨nofun, by decide⟩ hproper).2 0 _ _ _ rfl).mpr ⟨by decide, ?_, ?_, ?_⟩⟩
  · exact fun o ho => .inr ((by decide : ∀ o ∈ objects [] 0 [thingNode, thingNode], o.e.container = none) o ho)
  · intro o ho
    have hmem := List.mem_of_mem_head? ho
    exact hsound o hmem _ fun hr => absurd hr.1 (Bool.eq_false_iff.mp (hnot o hmem))
  · exact fun o ho => hsound o (List.mem_of_mem_tail ho) _ id

/-- A container takes no cell: the property has the container itself. -/
theorem collection_bag : listElement.Lists plainExpat (ascii "e:s") (.uri (ascii "e:s")) (.uri (ascii "e:p")) ∧
    (∀ o ∈ objects [] 0 [bagNode], o.Proper plainExpat) ∧
    ∃ r m l, Runs (processPredicate plainExpat [] listElement (Node.children plainExpat [] 0 [bagNode]) (ascii "e:s") false)
        0 r m l ∧
      own [] l = [⟨.uri (ascii "e:s"), .uri (ascii "e:p"), .resource (plainExpat.gen 0), none⟩] ∧
      ¬ WellFormedList plainExpat [] (.uri (ascii "e:s")) (.uri (ascii "e:p")) none (objects [] 0 [bagNode]) l := by
  refine ⟨listElement_lists, List.forall_mem_cons.mpr ⟨proper_of_new (.inl (by decide)), List.forall_mem_nil _⟩,
    _, _, _, rfl, by decide, ?_⟩
  rintro ⟨cells, hl, -, hstands, -⟩
  have hlen := congrArg List.length hl
  rw [length_listStatements, ← hstands.length_eq] at hlen
  exact absurd hlen (by decide)

end RdfStore.SiRPAC
