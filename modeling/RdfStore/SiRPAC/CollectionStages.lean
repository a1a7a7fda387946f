import RdfStore.SiRPAC.CollectionSteps

/-!
# The stages of a collection

Each object of a collection takes a piece of the run: it is called, its cell gets the
next number, and the two statements of the cell are asserted. What the cell gets for
an object depends on what the object is called by, and for the first one on the
statement of the property too.

    a typed node takes a stage                      (linkTypedNode_stage)
    a description takes a stage                     (linkDescription_stage)
-/

namespace RdfStore.SiRPAC

open ByteMem Emission

/-! ## Stages -/

/-- The piece of an object, from the number `n` to `m`: the cell before, its own cell, the identifier that the cell gets,
and what is asserted. -/
structure Stage where
  object : ObjectNode
  prev : Option ℕ
  n : ℕ
  cell : ℕ
  m : ℕ
  id : Bytes
  said : List Assertion

/-- The statement of the property is in the place of the object. -/
def Stage.Replaced (e : Element) (reified : Bool) (s : Stage) : Prop :=
  s.prev = none ∧ s.object.e.isDescription = true ∧ Reifies e reified

/-- What the cell gets. -/
inductive Stage.Value (x : Expat) (path : Path) (e : Element) (reified : Bool) (s : Stage) : Prop
  | named {S : Bytes} (hr : ¬ s.Replaced e reified) (hS : s.object.e.identity = some S)
      (hn : ∀ T, ¬ s.object.Renamed x T) (hid : s.id = S)
  | renamed {S : Bytes} (hr : ¬ s.Replaced e reified) (hS : s.object.Renamed x S)
      (hid : s.id = (given (some (x.normalize S))).getD (x.genid s.cell))
  | new {j : ℕ} (hr : ¬ s.Replaced e reified) (hno : s.object.e.identity = none) (hb : ¬ s.object.Bare x)
      (hn : s.n ≤ j) (hj : j < s.cell) (hid : s.id = x.genid j) (about : AboutAll x s.object.path (x.genid j) s.said)
  | bare (hr : ¬ s.Replaced e reified) (hb : s.object.Bare x) (hid : s.id = x.genid s.cell)
  | statement {j : Option ℕ} (hr : s.Replaced e reified) (hid : StatementID x e reified (s.cell + 1) s.m (some s.id) j)
      (noted : ∀ v, orSource x (buildResource s.id) = some v → ∃ a ∈ s.said, AboutStatement x path s.id a)

/-- The resource is that of the reified statement. -/
def Noted (x : Expat) (e : Element) (n m : ℕ) (v : Resource) : Prop :=
  (∃ id, given e.sID = some id ∧ orSource x (buildResource id) = some v) ∨ ∃ j, n ≤ j ∧ j < m ∧ v = x.gen j

/-- The statement that a cell is linked by, to the property or to the cell before. -/
def linkStatements (x : Expat) (subject p : Resource) (context : Option Resource) : Option ℕ → ℕ → List Statement
  | none, cell => if p.isContext then [] else [⟨subject, p, .resource (x.gen cell), context⟩]
  | some c, cell => [⟨x.gen c, rdfRest, .resource (x.gen cell), context⟩]

/-- The statement that a cell has its object by. -/
def firstStatements (x : Expat) (context : Option Resource) (cell : ℕ) (id : Bytes) : List Statement :=
  ((objectOf x id).map fun v => ⟨x.gen cell, rdfFirst, .resource v, context⟩).toList

structure Stage.Holds (x : Expat) (path : Path) (e : Element) (subject p : Resource) (reified : Bool) (s : Stage) :
    Prop where
  le : s.n ≤ s.cell
  lt : s.cell < s.m
  own : own path s.said = linkStatements x subject p e.context s.prev s.cell ++ firstStatements x e.context s.cell s.id
  places : ∀ a ∈ s.said, Inside s.object.path a ∨ a.role.place = path
  cells : ∀ a ∈ s.said, a.role.place = path → a.role.states = none →
    a.statement.subject = x.gen s.cell ∨ (∃ c, s.prev = some c ∧ a.statement.subject = x.gen c) ∨
      s.prev = none ∧ Noted x e (s.cell + 1) s.m a.statement.subject
  first : (objectOf x s.id).isSome = true →
    ∃ a ∈ s.said, a.role.place = path ∧ a.role.states = none ∧ a.statement.subject = x.gen s.cell
  value : s.Value x path e reified

variable {x : Expat} {path : Path} {e : Element} {reified : Bool} {st st' : LinkState} {n m : ℕ} {l : List Assertion}
  {p subject : Resource}

/-! ## The statements of a cell -/

theorem mem_tripleOf {role : Role} {s o context : Option Resource} {a : Assertion} (h : a ∈ tripleOf x role p s o context) :
    a.role = role ∧ orSource x s = some a.statement.subject := by
  unfold tripleOf at h
  split_ifs at h
  · exact absurd h List.not_mem_nil
  · split at h
    · rename_i hs _
      rw [List.mem_singleton.mp h]
      exact ⟨rfl, hs⟩
    · exact absurd h List.not_mem_nil

theorem own_tripleOf (path : Path) (role : Role) {s o context : Option Resource} (hplace : role.place = path)
    (hrole : role ≠ .reification path) :
    own path (tripleOf x role p s o context) = (tripleOf x role p s o context).map (·.statement) := by
  unfold own
  rw [List.filter_eq_self.mpr fun a ha => ?_]
  rw [(mem_tripleOf ha).1.symm] at hplace hrole
  exact decide_eq_true ⟨hplace, hrole⟩

theorem own_linkOf {sTarget : Bytes} {prev : Option ℕ} {cell : ℕ} (hprev : st.currentID = prev.map x.genid)
    (htarget : st.sTarget = sTarget) (hs : orSource x (buildResource sTarget) = some subject) :
    own path (linkOf x path e p st cell) = linkStatements x subject p e.context prev cell := by
  unfold linkOf
  cases prev with
  | none =>
    rw [hprev, Option.map_none]
    dsimp only
    rw [own_tripleOf path (.list path) rfl (by simp), tripleOf, linkStatements, htarget, hs, Option.bind_some, orSource_gen]
    split_ifs
    · rfl
    · rfl
  | some c =>
    rw [hprev, Option.map_some]
    dsimp only
    rw [own_tripleOf path (.rest path) rfl (by simp), tripleOf, linkStatements, if_neg (show ¬ rdfRest.isContext from rdf_isContext "rest"), buildResource_genid,
      Option.bind_some, orSource_gen, orSource_gen]
    rfl

theorem own_firstOf {q : Path} {cell : ℕ} {id : Bytes} :
    own path (firstOf x path q e cell id) = firstStatements x e.context cell id := by
  unfold firstOf
  rw [own_tripleOf path (.first path q) rfl (by simp), tripleOf, if_neg (show ¬ rdfFirst.isContext from rdf_isContext "first"), orSource_gen, firstStatements, objectOf]
  cases (buildResource id).bind fun r => orSource x (some r) with
  | none => rfl
  | some v => rfl

theorem mem_linkOf {prev : Option ℕ} {cell : ℕ} (hprev : st.currentID = prev.map x.genid) {a : Assertion}
    (h : a ∈ linkOf x path e p st cell) :
    a.role.place = path ∧ (a.role.states = none → ∃ c, prev = some c ∧ a.statement.subject = x.gen c) := by
  unfold linkOf at h
  cases prev with
  | none =>
    rw [hprev, Option.map_none] at h
    obtain ⟨hrole, -⟩ := mem_tripleOf h
    rw [hrole]
    exact ⟨rfl, fun h => absurd h (Option.some_ne_none path)⟩
  | some c =>
    rw [hprev, Option.map_some] at h
    obtain ⟨hrole, hs⟩ := mem_tripleOf h
    rw [buildResource_genid, orSource_gen] at hs
    rw [hrole]
    exact ⟨rfl, fun _ => ⟨c, rfl, (Option.some.inj hs).symm⟩⟩

theorem mem_firstOf {q : Path} {cell : ℕ} {id : Bytes} {a : Assertion} (h : a ∈ firstOf x path q e cell id) :
    a.role.place = path ∧ a.statement.subject = x.gen cell := by
  obtain ⟨hrole, hs⟩ := mem_tripleOf h
  rw [orSource_gen] at hs
  rw [hrole]
  exact ⟨rfl, (Option.some.inj hs).symm⟩

/-! ## A stage -/

/-- What a stage asserts: what the object does, the statements of the cell, and what is said about a reified statement. -/
theorem Stage.holds_of_step {o : ObjectNode} {prev : Option ℕ} {sTarget id : Bytes} {cell : ℕ} {l₁ : List Assertion}
    {statement : Option Bytes} {j : Option ℕ} (hpath : ∃ s, o.path = s :: path)
    (hprev : st.currentID = prev.map x.genid) (htarget : st.sTarget = sTarget)
    (hs : orSource x (buildResource sTarget) = some subject) (hin : ∀ a ∈ l₁, Inside o.path a) (hn : n ≤ cell)
    (h : ObjectStep x path e p reified o.path st n st' m l cell id l₁ statement j)
    (hstatement : prev = none ∧ StatementID x e reified (cell + 1) m statement j ∨ statement = none)
    (hvalue : (⟨o, prev, n, cell, m, statement.getD id, l⟩ : Stage).Value x path e reified) :
    (⟨o, prev, n, cell, m, statement.getD id, l⟩ : Stage).Holds x path e subject p reified := by
  obtain ⟨s, hpath⟩ := hpath
  obtain ⟨l₂, rfl, hreif⟩ := h.said
  have hreified : ∀ a ∈ l₂, a.role = .reification path := fun a ha => by
    obtain ⟨_, -, hab⟩ := hreif.about a ha
    exact hab.1
  have hinside : ∀ a ∈ l₁, Inside (s :: path) a := by rwa [← hpath]
  refine ⟨hn, h.le, ?_, fun a ha => ?_, fun a ha hplace hstates => ?_, fun hsome => ?_, hvalue⟩
  · dsimp only
    rw [own_append, own_append, own_append, own_inside hinside, own_reification hreified, List.nil_append, List.append_nil,
      own_linkOf hprev htarget hs, own_firstOf]
  · rcases List.mem_append.mp ha with ha | ha
    · rcases List.mem_append.mp ha with ha | ha
      · exact .inl (hin a ha)
      · rcases List.mem_append.mp ha with ha | ha
        · exact .inr (mem_linkOf hprev ha).1
        · right
          rw [hreified a ha]
          rfl
    · exact .inr (mem_firstOf ha).1
  · rcases List.mem_append.mp ha with ha | ha
    · rcases List.mem_append.mp ha with ha | ha
      · -- what is asserted inside has its place there
        have hle := List.IsSuffix.length_le (hinside a ha)
        rw [hplace, List.length_cons] at hle
        exact absurd hle (Nat.not_succ_le_self _)
      · rcases List.mem_append.mp ha with ha | ha
        · exact .inr (.inl ((mem_linkOf hprev ha).2 hstates))
        · obtain ⟨id', hid', hab⟩ := hreif.about a ha
          rcases hstatement with ⟨hnone, hstatement⟩ | hnone
          · refine .inr (.inr ⟨hnone, ?_⟩)
            rw [hid'] at hstatement
            cases hstatement with
            | given hgiven => exact .inl ⟨id', hgiven, hab.2⟩
            | @new k _ _ hk hm =>
              refine .inr ⟨k, hk, hm, ?_⟩
              have hsub := hab.2
              rw [buildResource_genid, orSource_gen] at hsub
              exact (Option.some.inj hsub).symm
          · rw [hnone] at hid'
            exact absurd hid' (Option.some_ne_none id').symm
    · exact .inl (mem_firstOf ha).2
  · obtain ⟨v, hv⟩ := Option.isSome_iff_exists.mp hsome
    have hmem : (⟨.first path o.path, ⟨x.gen cell, rdfFirst, .resource v, e.context⟩⟩ : Assertion) ∈
        firstOf x path o.path e cell (statement.getD id) := by
      rw [firstOf, tripleOf, if_neg (show ¬ rdfFirst.isContext from rdf_isContext "first"), orSource_gen,
        show ((buildResource (statement.getD id)).bind fun r => orSource x (some r)) = some v from hv]
      exact List.mem_singleton.mpr rfl
    exact ⟨_, List.mem_append_right _ hmem, rfl, rfl, rfl⟩

theorem place_of_about {q : Path} {a : Assertion} (h : About q a) : a.role.place = q ∨ ∃ s, a.role.place = s :: q := by
  rcases h with h | ⟨s, h⟩
  · rw [h]
    exact .inl rfl
  · exact .inr ⟨s, place_of_states h⟩

/-- What has its place at the property is not about an element in it. -/
theorem not_about_of_place {q : Path} (hq : ∃ s, q = s :: path) {a : Assertion} (hplace : a.role.place = path) :
    ¬ About q a := by
  obtain ⟨s, rfl⟩ := hq
  intro h
  rcases place_of_about h with h | ⟨s', h⟩
  · have hlen := congrArg List.length (hplace.symm.trans h)
    rw [List.length_cons] at hlen
    omega
  · have hlen := congrArg List.length (hplace.symm.trans h)
    rw [List.length_cons, List.length_cons] at hlen
    omega

/-- What is said about the object, its own call says. -/
theorem AboutAll.of_step {o : ObjectNode} {prev : Option ℕ} {S id : Bytes} {cell : ℕ} {l₁ : List Assertion}
    {statement : Option Bytes} {j : Option ℕ} (hpath : ∃ s, o.path = s :: path)
    (hprev : st.currentID = prev.map x.genid)
    (h : ObjectStep x path e p reified o.path st n st' m l cell id l₁ statement j) (habout : AboutAll x o.path S l₁) :
    AboutAll x o.path S l := by
  obtain ⟨l₂, rfl, hreif⟩ := h.said
  intro a ha hab
  rcases List.mem_append.mp ha with ha | ha
  · rcases List.mem_append.mp ha with ha | ha
    · exact habout a ha hab
    · refine absurd hab (not_about_of_place hpath ?_)
      rcases List.mem_append.mp ha with ha | ha
      · exact (mem_linkOf hprev ha).1
      · obtain ⟨_, -, hrole, -⟩ := hreif.about a ha
        rw [hrole]
        rfl
  · exact absurd hab (not_about_of_place hpath (mem_firstOf ha).1)

theorem mem_nodeChildren {i : ℕ} {nodes : List Node} {c : Child} (h : c ∈ Node.children x path i nodes) :
    ∃ k, ∃ node ∈ nodes, c = node.child x (.child k :: path) := by
  induction nodes generalizing i with
  | nil =>
    rw [Node.children] at h
    exact absurd h List.not_mem_nil
  | cons node nodes ih =>
    rw [Node.children] at h
    rcases List.mem_cons.mp h with rfl | h
    · exact ⟨i, node, List.mem_cons_self, rfl⟩
    · obtain ⟨k, node', hmem, hc⟩ := ih h
      exact ⟨k, node', List.mem_cons_of_mem _ hmem, hc⟩

section

variable {o : ObjectNode} {prev : Option ℕ} {sTarget : Bytes}

/-- The children of an object, as the walk over the tree takes them. -/
def ObjectNode.children (x : Expat) (o : ObjectNode) : List Child := Node.children x o.path 0 o.nodes

theorem ObjectNode.children_placed (o : ObjectNode) : ∀ c ∈ o.children x, c.Placed o.path :=
  Node.children_placed x o.path 0 o.nodes

theorem ObjectNode.Proper.children_stated (ho : o.Proper x) : ∀ c ∈ o.children x, c.Stated x := by
  intro c hc
  obtain ⟨k, node, hmem, rfl⟩ := mem_nodeChildren hc
  exact Node.child_stated x _ (ho.lawful node hmem)

/-- The stage of an object, and the state behind it. -/
def Staged (x : Expat) (path : Path) (e : Element) (subject p : Resource) (reified : Bool) (o : ObjectNode)
    (prev : Option ℕ) (st : LinkState) (n : ℕ) (st' : LinkState) (m : ℕ) (l : List Assertion) : Prop :=
  ∃ cell id, (⟨o, prev, n, cell, m, id, l⟩ : Stage).Holds x path e subject p reified ∧
    st' = st.behind id (some (x.genid cell))

theorem linkTypedNode_stage (ho : o.Proper x) (hpath : ∃ s, o.path = s :: path) (hd : o.e.isDescription = false)
    (hcol : e.isCollection = true) (hp : buildQualified e.sNamespace e.tag = some p)
    (hs : orSource x (buildResource sTarget) = some subject) (hprev : st.currentID = prev.map x.genid)
    (htarget : st.sTarget = sTarget)
    (h : Runs (linkTypedNode x path e st o.path (calls x o.path o.e (o.children x))) n st' m l) :
    Staged x path e subject p reified o prev st n st' m l := by
  obtain ⟨id, cell, l₁, hrun, hstep⟩ : ∃ id k l₁, Runs (calls x o.path o.e (o.children x)).processTypedNode n id k l₁ ∧
      ObjectStep x path e p reified o.path st n st' m l k id l₁ none none := linkTypedNode_step hcol hp h
  have hnot : ¬ (⟨o, prev, n, cell, m, id, l⟩ : Stage).Replaced e reified := by
    rintro ⟨-, hdesc, -⟩
    exact absurd (hd.symm.trans hdesc) Bool.false_ne_true
  have hin := says_processTypedNode o.children_placed hrun
  refine ⟨cell, id, Stage.holds_of_step hpath hprev htarget hs hin.2 hin.1 hstep (.inr rfl) ?_, hstep.state⟩
  cases hident : o.e.identity with
  | some S =>
    obtain ⟨_, _, _, _, _, hname, -⟩ := processTypedNode_runs ho.identified hrun
    rcases hname with ⟨hname, -⟩ | ⟨hname, -⟩
    · refine .named hnot hident (fun T hT => ?_) (Option.some.inj (hname.symm.trans hident))
      exact absurd (hd.symm.trans hT.1) Bool.false_ne_true
    · exact absurd (hident.symm.trans hname) (Option.some_ne_none S)
  | none =>
    have hspec := processTypedNode_spec ho.identified
      (fun S hS => absurd (hS.symm.trans hident) (Option.some_ne_none S)) o.children_placed ho.children_stated hrun
    rcases hspec.named with hname | ⟨-, j, hj, hlt, rfl⟩
    · exact absurd (hname.symm.trans hident) (Option.some_ne_none id)
    · refine .new hnot hident (fun hb => ?_) hj hlt rfl (AboutAll.of_step hpath hprev hstep hspec.about)
      exact absurd (hd.symm.trans hb.1) Bool.false_ne_true

/-- The identifier that a description gives its cell. -/
theorem described_value {id : Bytes} {cell : ℕ} {l₁ : List Assertion} {r : Option Bytes} (ho : o.Proper x)
    (hd : o.e.isDescription = true) (hrun : Runs (processDescription x o.path o.e (o.children x) true false false) n r cell l₁)
    (hid : id = ((given r).or ((given o.e.sAbout).or o.e.nodeID)).getD (x.genid cell))
    (hnot : ¬ (⟨o, prev, n, cell, m, id, l⟩ : Stage).Replaced e reified)
    (habout : ∀ S, AboutAll x o.path S l₁ → AboutAll x o.path S l) :
    (⟨o, prev, n, cell, m, id, l⟩ : Stage).Value x path e reified := by
  rcases innerDescription_spec ho.identified ho.bag o.children_placed ho.children_stated hrun with
    ⟨S, hdenotes, hreturned, hbusy⟩ | ⟨hno, hr, -, hquiet⟩
  · rcases hreturned with ⟨ha, hr⟩ | ⟨ha, hs, hr⟩ | ⟨hno, hr⟩
    · -- the identifier of the description is in `rdf:about` or `rdf:nodeID`
      refine .named hnot (identity_of_about ha) (fun T hT => ?_) ?_
      · exact absurd (ha.symm.trans hT.2.1) (Option.some_ne_none S)
      · show id = S
        rw [hid, ha]
        rcases hr with hr | hr
        · rw [hr]
          rfl
        · rw [hr, given_some (given_eq_some ha).2]
          rfl
    · -- it is in `rdf:ID`
      have hnode : o.e.nodeID = none := ho.identified.nodeID ha
      by_cases hone : (described x o.path o.e (o.children x)).countP Child.isProperty = 1
      · rw [if_pos hone] at hr
        refine .renamed hnot ⟨hd, ha, hs, hone⟩ ?_
        show id = (given (some (x.normalize S))).getD (x.genid cell)
        rw [hid, hr, ha, hnode, Option.none_or, Option.or_none]
      · rw [if_neg hone] at hr
        refine .named hnot (identity_of_sID ha hs) (fun T hT => hone hT.2.2.2) ?_
        show id = S
        rw [hid, hr, given_some (given_eq_some hs).2]
        rfl
    · rcases hdenotes.named with hname | ⟨-, j, hj, hlt, rfl⟩
      · exact absurd (hname.symm.trans hno) (Option.some_ne_none S)
      · refine .new hnot hno (fun hb => hbusy hno hb.2.2) hj hlt ?_ (habout _ hdenotes.about)
        show id = _
        rw [hid, hr, given_genid]
        rfl
  · refine .bare hnot ⟨hd, hno, hquiet⟩ ?_
    have ha : given o.e.sAbout = none := (Option.or_eq_none_iff.mp hno).1
    show id = _
    rw [hid, hr, ha, ho.identified.nodeID ha]
    rfl

theorem linkDescription_stage (ho : o.Proper x) (hpath : ∃ s, o.path = s :: path) (hd : o.e.isDescription = true)
    (hcol : e.isCollection = true) (hno : e.nodeID = none) (hp : buildQualified e.sNamespace e.tag = some p)
    (hs : orSource x (buildResource sTarget) = some subject) (hprev : st.currentID = prev.map x.genid)
    (htarget : st.sTarget = sTarget) (hsID : st.sID = e.sID) (hj : st.j = 0 ↔ prev = none)
    (h : Runs (linkDescription x path e reified st o.e o.path (calls x o.path o.e (o.children x))) n st' m l) :
    Staged x path e subject p reified o prev st n st' m l := by
  have hcurrent : st.currentID = none ↔ prev = none := by
    rw [hprev, Option.map_eq_none_iff]
  obtain ⟨r, cell, l₁, statement, j, hrun, hstep, hstatement⟩ :=
    linkDescription_step hcol hno hp hsID (hj.trans hcurrent.symm) h
  have hin := says_processDescription o.children_placed _ _ _ hrun
  refine ⟨cell, _, Stage.holds_of_step hpath hprev htarget hs hin.2 hin.1 hstep ?_ ?_, hstep.state⟩
  · rcases hstatement with ⟨hc, hstatement⟩ | ⟨-, hnone, -⟩
    · exact .inl ⟨hcurrent.mp hc, hstatement⟩
    · exact .inr hnone
  · have hvalue : statement = none → ¬ (prev = none ∧ Reifies e reified) → (⟨o, prev, n, cell, m,
        statement.getD (((given r).or ((given o.e.sAbout).or o.e.nodeID)).getD (x.genid cell)), l⟩ : Stage).Value
          x path e reified := by
      rintro rfl hnot
      refine described_value ho hd hrun rfl (fun hr => hnot ⟨hr.1, hr.2.2⟩) fun S hS => ?_
      exact AboutAll.of_step hpath hprev hstep hS
    rcases hstatement with ⟨hc, hstatement⟩ | ⟨hc, hnone, -⟩
    · have hprev' := hcurrent.mp hc
      obtain ⟨l₂, hl, hreif⟩ := hstep.said
      have hreplaced : ∀ id, statement = some id → Reifies e reified → StatementID x e reified (cell + 1) m (some id) j →
          (⟨o, prev, n, cell, m,
            statement.getD (((given r).or ((given o.e.sAbout).or o.e.nodeID)).getD (x.genid cell)), l⟩ : Stage).Value
              x path e reified := by
        rintro id rfl hr hid
        refine .statement ⟨hprev', hd, hr⟩ hid fun v hv => ?_
        obtain ⟨a, ha, hab⟩ := hreif.some id v rfl hv
        refine ⟨a, ?_, hab⟩
        show a ∈ l
        rw [hl]
        exact List.mem_append_left _ (List.mem_append_right _ (List.mem_append_right _ ha))
      cases hstatement with
      | none hr => exact hvalue rfl fun hnot => hr hnot.2
      | given hid => exact hreplaced _ rfl (.inr (by rw [hid]; rfl)) (.given hid)
      | new hid hr hk hm => exact hreplaced _ rfl (.inl hr) (.new hid hr hk hm)
    · exact hvalue hnone fun hnot => hc (hcurrent.mpr hnot.1)

end

end RdfStore.SiRPAC
