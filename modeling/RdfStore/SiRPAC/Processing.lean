import RdfStore.SiRPAC.Elements

/-!
# The walk over the tree (`processDescription`, `processPredicate` and their kin)

The four functions call each other for the children of an element. Each of them is
defined here for an element whose children already carry the calls that can be made of
them; `Node.child` then ties the knot along the tree. What is passed over: the targets of
references (`vTargets`, which nothing fills since `aboutEach` is refused) and `bDone`
(no element is walked twice).
-/

namespace RdfStore.SiRPAC

open ByteMem Emission

/-! ## Children -/

/-- What can be asked of a child element. -/
structure Calls where
  processDescription : (inPredicate reify createBag : Bool) → Walk (Option Bytes)
  processTypedNode : Walk Bytes
  processContainer : Walk Bytes
  processPredicate : (tag sTarget : Bytes) → (reify : Bool) → Walk (Option Bytes)

inductive Child
  | data (d : DataElement)
  | element (e : Element) (path : Path) (calls : Calls)

def Element.isDescription (e : Element) : Bool := e.name = rdfms "Description"

/-- `rdf:Seq`, `rdf:Alt` or `rdf:Bag` -/
def Element.container (e : Element) : Option String :=
  if e.name = rdfms "Seq" then some "Seq"
  else if e.name = rdfms "Alt" then some "Alt"
  else if e.name = rdfms "Bag" then some "Bag"
  else none

/-- `rdf:li`, `rdf:_1` and what looks like it. -/
def Element.isMember (e : Element) : Bool :=
  startsWith rdfSyntaxNs e.name && ((ascii "li").isSuffixOf e.tag || e.tag.contains 0x5f)

/-- Neither `rdf:resource` nor `rdf:nodeID`. -/
def Element.isOther (e : Element) : Bool := e.name ≠ rdfms "resource" && e.name ≠ rdfms "nodeID" && e.name ≠ []

/-- The tag of a member: its own number, or the next one. -/
def memberTag (tag : Bytes) (counter : ℕ) : Bytes :=
  let digits := (tag.reverse.takeWhile NTriples.isDigit).reverse
  let before := tag.reverse.dropWhile NTriples.isDigit
  0x5f :: if digits ≠ [] ∧ before.head? = some 0x5f then digits else decimal counter

/-- White characters only, those beyond ASCII included. -/
def isBlank : Bytes → Bool
  | [] => true
  | 0xc2 :: 0x85 :: s => isBlank s
  | 0xc2 :: 0xa0 :: s => isBlank s
  | 0xe1 :: 0x9a :: 0x80 :: s => isBlank s
  | 0xe2 :: 0x81 :: 0x9f :: s => isBlank s
  | 0xe2 :: 0x80 :: c :: s => ((0x80 ≤ c && c ≤ 0x8a) || c = 0xa8 || c = 0xa9 || c = 0xaf) && isBlank s
  | 0xe3 :: 0x80 :: 0x80 :: s => isBlank s
  | a :: s => NTriples.isWhite a && isBlank s

/-! ## Property attributes -/

/-- Whether an attribute can be one of the RDF syntax. -/
def Attribute.isSyntax (a : Attribute) : Bool :=
  startsWith rdfSyntaxNs a.full && a.name.head? ≠ some 0x5f && a.name ≠ ascii "value" && a.name ≠ ascii "type"

def Attribute.isResource (predicateNode : Bool) (a : Attribute) : Bool :=
  !startsWith xmlSchema a.full && a.isSyntax && (ascii "resource").isSuffixOf a.name && predicateNode

/-- Whether `expandAttributes` makes a property of an attribute. -/
def Attribute.expands (predicateNode : Bool) (a : Attribute) : Bool :=
  !startsWith xmlSchema a.full &&
    !(a.isSyntax && ((ascii "resource").isSuffixOf a.name && predicateNode || (ascii "ID").isSuffixOf a.name ||
      (ascii "bagID").isSuffixOf a.name || (ascii "about").isSuffixOf a.name ||
      (ascii "aboutEach").isSuffixOf a.name || (ascii "datatype").isSuffixOf a.name ||
      (ascii "parseType").isSuffixOf a.name))

/-- An element made of an attribute, and the text in it. -/
structure Expanded where
  e : Element
  d : DataElement

/-- `expandAttributes`: the properties in the attributes of `ele`; with `rdf:resource` they get the resource. -/
def expandAttributes (ele : Element) (predicateNode : Bool) (resourceValue : Option Bytes) : List Expanded :=
  let resource := if ele.attlist.any (·.isResource predicateNode) then resourceValue else none
  (ele.attlist.filter (·.expands predicateNode)).map fun a =>
    ⟨{ Element.new a.ns a.name [] ele.lang ele.datatype ele.context with sResource := resource },
      DataElement.new ((getAttributeValue ele.attlist a.full).getD []) false ele.lang ele.datatype⟩

/-! ## The statements of a property -/

/-- The statement of a property, reified if the property has an identifier or the description wants it. -/
def assertProperty (x : Expat) (role : Role) (path : Path) (e : Element) (sID : Option Bytes) (reified : Bool)
    (sTarget : Bytes) (object : Option Object) : Walk (Option Bytes) :=
  if reified ∨ (given sID).isSome then do
    let id ← reify x role path (buildQualified e.sNamespace e.tag) (buildResource sTarget) object sID e
    pure (some id)
  else do
    addTriple x role (buildQualified e.sNamespace e.tag) (buildResource sTarget) object e.context
    pure none

/-- The variables of `processPredicate` that its loop changes. -/
structure LinkState where
  sStatementID : Option Bytes
  sTarget : Bytes
  sID : Option Bytes
  currentID : Option Bytes
  j : ℕ
  objectElements : ℕ

def onlyOneObject (e : Element) : Bytes :=
  ascii "Only one object node allowed inside predicate '" ++ e.tag ++ ascii "'"

def resourceOf (id : Bytes) : Option Object := (buildResource id).map .resource

/-- The cell of a collection that is linked to the next one. -/
def linkRest (x : Expat) (path : Path) (e : Element) (currentID : Bytes) (next : Option Object) : Walk Unit :=
  addTriple x (.rest path) (buildRdf "rest") (buildResource currentID) next e.context

/-- A cell of a collection gets its object. -/
def linkFirst (x : Expat) (path q : Path) (e : Element) (collectionID id : Bytes) : Walk Unit :=
  addTriple x (.first path q) (buildRdf "first") (buildResource collectionID) (resourceOf id) e.context

/-- Behind an object with a name; `currentID` is the cell of the object, if there is one. -/
def LinkState.behind (st : LinkState) (id : Bytes) (currentID : Option Bytes) : LinkState :=
  { st with sStatementID := some id, currentID := currentID, j := st.j + 1, objectElements := st.objectElements + 1 }

/-- `$n2` outside a collection: its own identifier, or a new one. -/
def describedID (x : Expat) (n : Element) (described : Option Bytes) : Walk Bytes :=
  orNew x ((given described).or ((given n.sAbout).or n.nodeID))

/-- The first object links the property; the identifier of the reified statement takes the object's place. -/
def linkHead (x : Expat) (role : Role) (path : Path) (e : Element) (reified : Bool) (st : LinkState)
    (object id : Bytes) : Walk Bytes :=
  if st.j = 0 then do
    let statement ← assertProperty x role path e st.sID reified st.sTarget (resourceOf object)
    pure (statement.getD id)
  else pure id

/-- The cell before, if there is one, is linked to the cell. -/
def linkBefore (x : Expat) (path : Path) (e : Element) (currentID : Option Bytes) (collectionID : Bytes) : Walk Unit :=
  match currentID with
  | some currentID => linkRest x path e currentID (resourceOf collectionID)
  | none => pure ()

/-- A description inside a property; in a collection the cell is the name of an object without one. -/
def linkDescription (x : Expat) (path : Path) (e : Element) (reified : Bool) (st : LinkState) (n : Element)
    (q : Path) (calls : Calls) : Walk LinkState :=
  if e.isCollection then do
    let described ← calls.processDescription true false false
    let collectionID ← newReificationID x
    let id := ((given described).or ((given n.sAbout).or n.nodeID)).getD collectionID
    let id ← linkHead x (.list path) path e reified st collectionID id
    linkBefore x path e st.currentID collectionID
    linkFirst x path q e collectionID id
    pure (st.behind id (some collectionID))
  else if 1 < st.objectElements then croak (onlyOneObject e)
  else do
    let described ← calls.processDescription true false false
    let id ← describedID x n described
    let id ← linkHead x (.link path q) path e reified st id id
    pure (st.behind id st.currentID)

/-- The property with the identifier of its reified statement, if it was reified. -/
def LinkState.reified (x : Expat) (st : LinkState) (statement : Option Bytes) : LinkState :=
  match statement with
  | some id => { st with sStatementID := some id, sID := some (x.normalize id) }
  | none => st

/-- What a text stands for as an object. -/
def textObject (e : Element) (d : DataElement) : Option Object :=
  if e.isCollection then resourceOf (rdfms "nil")
  else if e.name = rdfms "type" then resourceOf d.sContent
  else createLiteral d.sContent d.parseType d.lang d.datatype

/-- A text inside a property; `only` says that it is the only child. -/
def linkData (x : Expat) (path : Path) (e : Element) (reified only : Bool) (st : LinkState) (d : DataElement) :
    Walk LinkState :=
  if 1 < st.objectElements ∧ !e.isCollection ∧ !isBlank d.sContent then
    croak (ascii "Expected whitespace found: " ++ d.sContent)
  else
    let sTarget := (given e.sResource).getD st.sTarget
    if !isBlank d.sContent ∨ only then do
      let role := if e.isCollection then .list path else .property path
      let statement ← assertProperty x role path e st.sID reified sTarget (textObject e d)
      pure ({ st with sTarget := sTarget, objectElements := st.objectElements + 1 }.reified x statement)
    else pure { st with sTarget := sTarget }

/-- A container inside a property. -/
def linkContainer (x : Expat) (path : Path) (e : Element) (reified : Bool) (st : LinkState) (q : Path)
    (calls : Calls) : Walk LinkState :=
  if 1 < st.objectElements ∧ !e.isCollection then croak (onlyOneObject e)
  else do
    let container ← calls.processContainer
    let statement ← assertProperty x (.link path q) path e st.sID reified st.sTarget (resourceOf container)
    pure ({ st with sStatementID := some container, objectElements := st.objectElements + 1 }.reified x statement)

/-- The statement of a property with a typed node, which is never reified. -/
def linkPlain (x : Expat) (role : Role) (e : Element) (st : LinkState) (object : Bytes) : Walk Unit :=
  addTriple x role (buildQualified e.sNamespace e.tag) (buildResource st.sTarget) (resourceOf object) e.context

/-- The cell before, or else the property, is linked to the cell. -/
def linkCell (x : Expat) (path : Path) (e : Element) (st : LinkState) (collectionID : Bytes) : Walk Unit :=
  match st.currentID with
  | some currentID => linkRest x path e currentID (resourceOf collectionID)
  | none => linkPlain x (.list path) e st collectionID

/-- A typed node inside a property. -/
def linkTypedNode (x : Expat) (path : Path) (e : Element) (st : LinkState) (q : Path) (calls : Calls) :
    Walk LinkState :=
  if e.isCollection then do
    let id ← calls.processTypedNode
    let collectionID ← newReificationID x
    linkCell x path e st collectionID
    linkFirst x path q e collectionID id
    pure (st.behind id (some collectionID))
  else if 1 < st.objectElements then croak (onlyOneObject e)
  else do
    let id ← calls.processTypedNode
    linkPlain x (.link path q) e st id
    pure (st.behind id st.currentID)

/-- One child of a property. -/
def linkChild (x : Expat) (path : Path) (e : Element) (reified only : Bool) (st : LinkState) :
    Child → Walk LinkState
  | .data d => linkData x path e reified only st d
  | .element n q calls =>
    if n.isDescription then linkDescription x path e reified st n q calls
    else if n.container.isSome then linkContainer x path e reified st q calls
    else if n.isOther then linkTypedNode x path e st q calls
    else pure st

/-- What a property without children has for an object; `described` is the description its attributes imply. -/
def emptyObject (x : Expat) (e : Element) (described : Option Bytes) : Option Object :=
  if e.isCollection then resourceOf (rdfms "nil")
  else
    match given described with
    | some id => resourceOf id
    | none => createLiteral [] false x.lang x.datatype

/-- The last cell of a collection. -/
def closeList (x : Expat) (path : Path) (e : Element) (st : LinkState) : Walk Unit :=
  if 0 < st.j ∧ e.isCollection then
    linkRest x path e (st.currentID.getD []) ((buildRdf "nil").map .resource)
  else pure ()

/-- `processPredicate` behind the expansion of the attributes. -/
def linkPredicate (x : Expat) (path : Path) (e : Element) (children : List Child) (sTarget : Bytes) (reified : Bool)
    (sStatementID described : Option Bytes) : Walk (Option Bytes) :=
  match given e.sResource, children with
  | some resource, [] => do
    let statement ← assertProperty x (.property path) path e e.sID reified sTarget (resourceOf resource)
    pure ((statement.map x.normalize).or e.sID)
  | _, [] => do
    let role := if e.isCollection then .list path else .property path
    let statement ← assertProperty x role path e e.sID reified sTarget (emptyObject x e described)
    pure (statement.or sStatementID)
  | _, children => do
    let st ← children.foldlM (linkChild x path e reified (children.length = 1))
      ⟨sStatementID, sTarget, e.sID, none, 0, 1⟩
    closeList x path e st
    pure st.sStatementID

/-- An element made of an attribute, as a child: it has no attributes to expand itself. -/
def Expanded.child (x : Expat) (path : Path) (a : Expanded) : Child :=
  .element a.e path
    { processDescription := fun _ _ _ => croak []
      processTypedNode := croak []
      processContainer := croak []
      processPredicate := fun tag sTarget reify =>
        linkPredicate x path { a.e with tag := tag } [.data a.d] sTarget reify a.e.sID none }

/-- The children made of attributes, behind the `i` children that are there. -/
def expandedChildren (x : Expat) (path : Path) (i : ℕ) (l : List Expanded) : List Child :=
  l.mapIdx fun k a => a.child x (.child (i + k) :: path)

/-! ## Descriptions -/

/-- The variables of `processDescription` that its loop changes. -/
structure DescriptionState where
  sID : Option Bytes
  sAbout : Option Bytes
  eleID : Option Bytes
  eleBagID : Option Bytes
  bOnce : Bool
  iChildCount : ℕ
  paCounter : ℕ

/-- A description without a name gets one at its first member. -/
def memberSubject (x : Expat) (e : Element) (st : DescriptionState) : Walk DescriptionState :=
  match (given st.sID).or (given st.sAbout) with
  | some _ => pure st
  | none => do
    let id ← orNew x e.nodeID
    pure { st with eleID := some id, sID := some id }

/-- A member of a description. -/
def describeMember (x : Expat) (e : Element) (reify : Bool) (st : DescriptionState) (n : Element) (calls : Calls) :
    Walk DescriptionState := do
  let st ← memberSubject x e st
  let id := ((given st.sID).or (given st.sAbout)).getD []
  let _ ← calls.processPredicate (memberTag n.tag st.paCounter) id reify
  pure { st with paCounter := if (ascii "li").isSuffixOf n.tag then st.paCounter + 1 else st.paCounter }

/-- Whether a property says that it is a literal and refers to a resource at once. -/
def Element.literalReference (n : Element) : Bool :=
  getAttributeValue n.attlist (rdfms "parseType") = some (ascii "Literal") &&
    (isTrue ((getAttributeValue n.attlist (rdfms "resource")).getD []) ||
      isTrue ((getAttributeValue n.attlist (rdfms "nodeID")).getD []))

def literalReferenceText (n : Element) : Bytes :=
  ascii "Can not specify an rdf:parseType of 'Literal' and an rdf:resource attribute at the same time for predicate '" ++
    n.name ++ ascii "' - see http://lists.w3.org/Archives/Public/w3c-rdfcore-wg/2001Jun/0134.html"

/-- The identifier that the element gets at its first property outside a predicate. -/
def topID (x : Expat) (e : Element) (eleID : Option Bytes) : Walk Bytes :=
  match e.nodeID with
  | some id => pure ((given eleID).getD id)
  | none =>
    let about := (getAttributeValue e.attlist (rdfms "about")).getD []
    if nodeIDPrefix.isPrefixOf about then pure about else orNew x (given eleID)

/-- The subject of a property of a description that is not inside a predicate. -/
def topSubject (x : Expat) (e : Element) (st : DescriptionState) : Walk DescriptionState := do
  let id ← topID x e st.eleID
  pure { st with eleID := some id, sAbout := some ((given st.sAbout).getD ((given st.sID).getD id)) }

/-- The subject of a property of a description inside a predicate. -/
def innerSubject (x : Expat) (e : Element) (st : DescriptionState) : Walk DescriptionState :=
  match given st.sAbout, given st.sID with
  | some about, _ => pure { st with eleID := some about }
  | none, some id => pure { st with eleID := some (x.normalize id), sAbout := some id }
  | none, none => do
    let id ← orNew x ((given st.eleID).or e.nodeID)
    pure { st with eleID := some id, sAbout := some id }

/-- The subject of a property of a description. -/
def propertySubject (x : Expat) (e : Element) (inPredicate : Bool) (st : DescriptionState) : Walk DescriptionState :=
  if inPredicate then innerSubject x e st else topSubject x e st

/-- The bag of a description, once. -/
def newBag (x : Expat) (path : Path) (e : Element) (st : DescriptionState) : Walk DescriptionState :=
  if st.bOnce then do
    let bagID ← orNew x ((given st.eleBagID).or e.nodeID)
    addTriple x (.bag path) (buildRdf "type") (buildResource bagID) ((buildRdf "Bag").map .resource) e.context
    pure { st with bOnce := false, eleBagID := some bagID,
                   eleID := (given st.eleID).or (some (x.normalize bagID)) }
  else pure st

/-- The bag of a description gets the statement of a property. -/
def bagProperty (x : Expat) (path : Path) (e : Element) (st : DescriptionState) (sChildID : Option Bytes) :
    Walk DescriptionState :=
  match given sChildID with
  | none => pure st
  | some child => do
    let st ← newBag x path e st
    addTriple x (.bag path) (createQualified rdfSyntaxNs (0x5f :: decimal st.iChildCount))
      (buildResource (st.eleBagID.getD [])) (resourceOf child) e.context
    pure { st with iChildCount := st.iChildCount + 1 }

/-- A property of a description. -/
def describeProperty (x : Expat) (path : Path) (e : Element) (inPredicate reify createBag : Bool)
    (st : DescriptionState) (n : Element) (calls : Calls) : Walk DescriptionState :=
  if !inPredicate ∧ n.literalReference then croak (literalReferenceText n)
  else do
    let st ← propertySubject x e inPredicate st
    let sChildID ← calls.processPredicate n.tag (st.sAbout.getD [])
      (if inPredicate then false else reify || (given e.sBagID).isSome)
    if (given e.sBagID).isSome ∨ (x.bCreateBags ∧ createBag) then bagProperty x path e st sChildID
    else pure st

/-- One child of a description. -/
def describeChild (x : Expat) (path : Path) (e : Element) (inPredicate reify createBag : Bool)
    (st : DescriptionState) : Child → Walk DescriptionState
  | .data _ => pure st
  | .element n _ calls =>
    if n.isDescription then croak (ascii "Cannot nest a Description inside another Description")
    else if n.isMember then describeMember x e reify st n calls
    else if n.isOther then describeProperty x path e inPredicate reify createBag st n calls
    else pure st

/-- `processDescription`, which gives back the identifier of the element. -/
def processDescription (x : Expat) (path : Path) (e : Element) (children : List Child)
    (inPredicate reify createBag : Bool) : Walk (Option Bytes) := do
  let expanded := expandedChildren x path children.length (expandAttributes e false none)
  let st ← (children ++ expanded).foldlM (describeChild x path e inPredicate reify createBag)
    ⟨e.sID, e.sAbout, e.sID, e.sBagID, true, 1, 1⟩
  pure st.eleID

/-! ## Properties -/

/-- The description that the attributes of a property imply: its attributes, and the identifier of the statement. -/
def impliedAttributes (x : Expat) (e : Element) : Walk (Attlist × Option Bytes) :=
  match (given e.sID).or (given e.sResource) with
  | some id => pure ([⟨none, rdfms "about", id⟩], e.sID)
  | none => do
    let id ← orNew x e.nodeID
    pure ([⟨none, rdfms "nodeID", id⟩], some id)

def mustBeEmpty (e : Element) : Bytes :=
  e.name ++ ascii " must be an empty element since it uses propAttr grammar production - see <a href=\"http://www.w3.org/TR/REC-rdf-syntax/#propertyElt\">[6.12]</a>"

def processPredicate (x : Expat) (path : Path) (e : Element) (children : List Child) (sTarget : Bytes)
    (reify : Bool) : Walk (Option Bytes) :=
  match expandAttributes e true e.sResource with
  | [] => linkPredicate x path e children sTarget reify e.sID none
  | expanded =>
    if children ≠ [] then croak (mustBeEmpty e)
    else do
      let attributes ← impliedAttributes x e
      let bagID := match given e.sBagID with
        | some id => [⟨none, rdfms "bagID", id⟩]
        | none => []
      let d := { Element.new none (rdfms "Description") (attributes.1 ++ bagID) x.lang x.datatype x.context with
        sBagID := given e.sBagID }
      let implied := Step.implied :: path
      let described ← processDescription x implied d (expandedChildren x implied 0 expanded) false false x.bCreateBags
      linkPredicate x path e children sTarget reify attributes.2 described

/-! ## Containers -/

/-- One child of a container; the state is the counter and the number of elements so far, from 1. -/
def containChild (sID : Bytes) (st : ℕ × ℕ) : Child → Walk (ℕ × ℕ)
  | .data d =>
    if 1 < st.2 ∧ !isBlank d.sContent then croak (ascii "Expected whitespace found: " ++ d.sContent)
    else pure st
  | .element n _ calls =>
    if n.isMember then do
      let _ ← calls.processPredicate (memberTag n.tag st.1) sID false
      pure (if (ascii "li").isSuffixOf n.tag then st.1 + 1 else st.1, st.2 + 1)
    else do
      let _ ← calls.processPredicate n.tag sID false
      pure (st.1, st.2 + 1)

/-- The type of a container. -/
def containerType (x : Expat) (path : Path) (e : Element) (sID : Bytes) : Walk Unit :=
  match e.container with
  | some name =>
    addTriple x (.type path) (buildRdf "type") (buildResource sID) ((buildRdf name).map .resource) e.context
  | none => pure ()

def processContainer (x : Expat) (path : Path) (e : Element) (children : List Child) : Walk Bytes := do
  let sID ← orNew x ((given e.sID).or ((given e.sAbout).or e.nodeID))
  containerType x path e sID
  let children := children ++ expandedChildren x path children.length (expandAttributes e false none)
  if children = [] ∧ e.container = some "Alt" then
    croak (ascii "An RDF:Alt container must have at least one nested listitem")
  else do
    let _ ← children.foldlM (containChild sID) (1, 1)
    pure sID

/-! ## Typed nodes -/

/-- `s/^([ ])+//g` and `s/([ ])+$//g`; the end is also in front of a last line feed. -/
def trimBlanks (s : Bytes) : Bytes :=
  let s := s.dropWhile (· = 0x20)
  if s.getLast? = some 0x0a then (s.dropLast.reverse.dropWhile (· = 0x20)).reverse ++ [0x0a]
  else (s.reverse.dropWhile (· = 0x20)).reverse

/-- The value of a property attribute of a typed node, if the loop takes it away. -/
def Attribute.moved (attlist : Attlist) (a : Attribute) : Option Bytes :=
  if startsWith rdfSyntaxNs a.full ∨ startsWith xmlSchema a.full then none
  else given ((getAttributeValue attlist a.full).map trimBlanks)

/-- The loop over the attributes of a typed node: from the `n`-th attribute on, at most `fuel` of them. A
property attribute is taken out of the list that the loop goes through. -/
def moveAttributes : ℕ → Attlist → ℕ → Attlist × List (Attribute × Bytes)
  | 0, attlist, _ => (attlist, [])
  | fuel + 1, attlist, n =>
    match attlist[n]? with
    | none => (attlist, [])
    | some a =>
      match a.moved attlist with
      | none => moveAttributes fuel attlist (n + 1)
      | some value =>
        let rest := moveAttributes fuel (attlist.filter (·.full ≠ a.full)) (n + 1)
        (rest.1, (a, value) :: rest.2)

/-- With a `#` in front. -/
def hashed (s : Bytes) : Bytes := if s.head? = some 0x23 then s else 0x23 :: s

/-- The element for a property attribute of a typed node, with the language and the datatype of the moment. -/
def movedAttribute (x : Expat) (e : Element) (a : Attribute) (value : Bytes) : Expanded where
  e := Element.new a.ns a.name
    [⟨none, rdfms "ID", (given e.sAbout).getD ((e.sID.map hashed).getD [])⟩,
     ⟨none, rdfms "bagID", (e.sBagID.map hashed).getD []⟩] x.lang x.datatype x.context
  d := DataElement.new value false x.lang x.datatype

def resourceNotAllowed (e : Element) : Bytes :=
  ascii "'resource' attribute not allowed for a typedNode '" ++ e.name ++
    ascii "' - see <a href=\"http://www.w3.org/TR/REC-rdf-syntax/#typedNode\">[6.13]</a>"

def processTypedNode (x : Expat) (path : Path) (e : Element) (children : List Child) : Walk Bytes :=
  if (given e.sResource).isSome ∧ !nodeIDPrefix.isPrefixOf (e.sResource.getD []) then croak (resourceNotAllowed e)
  else do
    let moved := moveAttributes e.attlist.length e.attlist 0
    let children := children ++
      expandedChildren x path children.length (moved.2.map fun a => movedAttribute x e a.1 a.2)
    let left := { e with attlist := moved.1 }
    let sObject ← orNew x ((given e.sAbout).or ((given e.sID).or left.nodeID))
    let e := { left with sID := some (x.normalize sObject) }
    addTriple x (.type path) (buildRdf "type") (buildResource (x.normalize sObject))
      ((buildQualified e.sNamespace e.tag).map .resource) e.context
    let _ ← processDescription x path e children false x.bCreateBags false
    pure sObject

/-! ## The tree -/

/-- What can be asked of an element with its children. -/
def calls (x : Expat) (path : Path) (e : Element) (children : List Child) : Calls where
  processDescription := processDescription x path e children
  processTypedNode := processTypedNode x path e children
  processContainer := processContainer x path e children
  processPredicate tag := processPredicate x path { e with tag := tag } children

mutual

/-- A node of the tree as a child. -/
def Node.child (x : Expat) (path : Path) : Node → Child
  | .data d => .data d
  | .element e nodes => .element e path (calls x path e (Node.children x path 0 nodes))

/-- The children of an element, from the `i`-th on. -/
def Node.children (x : Expat) (path : Path) (i : ℕ) : List Node → List Child
  | [] => []
  | node :: nodes => node.child x (.child i :: path) :: Node.children x path (i + 1) nodes

end

/-- `processXML` -/
def processXML (x : Expat) (path : Path) (e : Element) (nodes : List Node) : Walk Unit :=
  let children := Node.children x path 0 nodes
  if e.name = rdfms "RDF" then
    children.forM fun c =>
      match c with
      | .data _ => pure ()
      | .element n _ calls =>
        if n.isDescription then do
          let _ ← calls.processDescription false x.bCreateBags x.bCreateBags
          pure ()
        else if n.container.isSome then do
          let _ ← calls.processContainer
          pure ()
        else if n.isOther then do
          let _ ← calls.processTypedNode
          pure ()
        else pure ()
  else if e.isDescription then do
    let _ ← processDescription x path e children false x.bCreateBags x.bCreateBags
    pure ()
  else do
    let _ ← processTypedNode x path e children
    pure ()

end RdfStore.SiRPAC
