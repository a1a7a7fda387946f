import RdfStore.SiRPAC.Processing
import RdfStore.Lib.SavedValues

/-!
# The handlers of the events (`RDFXML_StartElementHandler` and its kin)

From the events of Expat the handlers build the tree of elements, and the elements that are
open stand on a stack. The base, the language and the context are saved under the names of
the open elements when an element sets them. When an outermost node element ends, its tree
is walked. What is passed over: the positions in the messages.
-/

namespace RdfStore.SiRPAC

open ByteMem Emission SavedValues

/-! ## Events -/

/-- A start tag as Expat gives it: the name space of the name, if there is one, and the attributes with theirs. -/
structure StartTag where
  ns : Option Bytes
  name : Bytes
  attlist : Attlist
  name_ne : name ≠ []

/-- `my ($prefix,$suffix) = split(':',$name)` -/
def splitName (s : Bytes) : Bytes × Option Bytes :=
  (s.takeWhile (· ≠ 0x3a),
    if s.contains 0x3a then some (((s.dropWhile (· ≠ 0x3a)).drop 1).takeWhile (· ≠ 0x3a)) else none)

/-- `$XMLSCHEMA_prefix` -/
def xmlPrefix : Bytes := ascii "xml"

/-- `$RDFSTORESCHEMA_prefix` -/
def rdfstorePrefix : Bytes := ascii "rdfstore"

def rdfstoreEmptyContext : Bytes := rdfstoreSchema ++ ascii "EmptyContext"

/-- A name that belongs to a schema: with the usual prefix, with the name space in front, or in the name space. -/
def Attribute.belongs (pre schema ln : Bytes) (a : Attribute) : Bool :=
  a.name = pre ++ ascii ":" ++ ln || a.name = schema ++ ln || (a.ns = some schema && a.name = ln)

def Attribute.isBase (a : Attribute) : Bool := a.belongs xmlPrefix xmlSchema (ascii "base")
def Attribute.isLang (a : Attribute) : Bool := a.belongs xmlPrefix xmlSchema (ascii "lang")
def Attribute.isContext (a : Attribute) : Bool := a.belongs rdfstorePrefix rdfstoreSchema (ascii "context")
def Attribute.isContextnodeID (a : Attribute) : Bool := a.belongs rdfstorePrefix rdfstoreSchema (ascii "contextnodeID")

/-- The attributes that are reserved by XML. -/
def Attribute.isReserved (a : Attribute) : Bool := (ascii "xml").isPrefixOf a.name || a.ns = some xmlSchema

def Attribute.isDatatype (a : Attribute) : Bool := a.ns.isSome && a.full = rdfms "datatype"

/-- The attributes of RDF that may stand without a name space. -/
def unqualified : List Bytes :=
  [ascii "resource", ascii "ID", ascii "about", ascii "aboutEach", ascii "bagID", ascii "nodeID", ascii "datatype",
    ascii "parseType", ascii "type"]

/-! ## The state -/

/-- What hangs on an element: a text, or another element. -/
inductive Content
  | data (d : DataElement)
  | element (ref : ℕ)

/-- An element as it is built. -/
structure TreeElement where
  element : Element
  children : List Content

inductive ScanMode
  | skipping
  | rdf
  | description
  | topDescription
  deriving DecidableEq

/-- `$expat->{SiRPAC}`: the elements made so far are numbered, and the stacks hold their numbers, the top first. -/
structure State where
  elements : List TreeElement
  elementStack : List ℕ
  parseElementStack : List ℕ
  root : Option ℕ
  expectElement : Option ℕ
  scanMode : ScanMode
  sLiteral : Bytes
  base : Saved Bytes Bytes
  lang : Saved Bytes Bytes
  context : Saved Bytes (Option Resource)
  datatype : Option Bytes
  warnings : List Bytes
  iReificationCounter : ℕ
  asserted : List Assertion

/-- What a parser is made with; the three handlers write the markup inside a literal. -/
structure Setup where
  uri : UriModule
  sSource : Bytes
  bCreateBags : Bool
  randSeed : Bytes
  pid : ℕ
  timestamp : ℕ
  genidNumber : ℕ
  startXmlLiteral : Option (State → StartTag → Bytes)
  stopXmlLiteral : Option (State → Bytes → Bytes)
  charLiteral : Option (State → Bytes → Bytes)

/-- The state that `parse` begins with. -/
def Setup.initial (c : Setup) : State where
  elements := []
  elementStack := []
  parseElementStack := []
  root := none
  expectElement := none
  scanMode := .skipping
  sLiteral := []
  base := .init c.sSource
  lang := .init []
  context := .init none
  datatype := none
  warnings := []
  iReificationCounter := c.genidNumber
  asserted := []

/-- A new element gets the next number. -/
def State.make (p : State) (e : Element) : State := { p with elements := p.elements ++ [⟨e, []⟩] }

/-- Something is hung on an element. -/
def State.hang (p : State) (ref : ℕ) (n : Content) : State :=
  { p with elements := p.elements.modify ref fun e => { e with children := e.children ++ [n] } }

/-- The element is hung on the top of the stack. -/
def State.hangOnTop (p : State) (ref : ℕ) : State :=
  match p.elementStack with
  | top :: _ => p.hang top (.element ref)
  | [] => p

def State.parseTypeOf (p : State) (ref : ℕ) : Option Bytes :=
  (p.elements[ref]?).bind fun n => getAttributeValue n.element.attlist (rdfms "parseType")

/-- A value of `rdf:parseType` other than `Resource` and `Collection`. -/
def isLiteralType (parseType : Option Bytes) : Bool :=
  match parseType with
  | some value => value ≠ ascii "Resource" && value ≠ ascii "Collection"
  | none => false

def State.parseLiteral (p : State) : Bool := p.elementStack.any fun ref => isLiteralType (p.parseTypeOf ref)

def State.parseResource (p : State) : Bool := p.elementStack.any fun ref => p.parseTypeOf ref = some (ascii "Resource")

def State.warn (p : State) (message : Bytes) : State := { p with warnings := p.warnings ++ [message] }

/-! ## Attributes -/

/-- The variables that the loop over the attributes changes. -/
structure AttributeState where
  p : State
  rdfAttlist : Attlist
  xmlAtts : ℕ
  rdfAtts : ℕ
  rdfstoreAtts : ℕ

/-- The text behind a white character in front, if there is one. -/
def afterWhite : Bytes → Option Bytes
  | 0xc2 :: 0x85 :: s => some s
  | 0xc2 :: 0xa0 :: s => some s
  | 0xe1 :: 0x9a :: 0x80 :: s => some s
  | 0xe2 :: 0x81 :: 0x9f :: s => some s
  | 0xe2 :: 0x80 :: c :: s => if (0x80 ≤ c && c ≤ 0x8a) || c = 0xa8 || c = 0xa9 || c = 0xaf then some s else none
  | 0xe3 :: 0x80 :: 0x80 :: s => some s
  | a :: s => if NTriples.isWhite a then some s else none
  | [] => none

/-- White characters up to the end of a line, at most `fuel` of them. -/
def whiteToLineEnd : ℕ → Bytes → Bool
  | 0, _ => false
  | fuel + 1, s =>
    match afterWhite s with
    | some t => t = [] || t.head? = some 0x0a || whiteToLineEnd fuel t
    | none => false

/-- `=~ m/^\s+$/m` -/
def hasWhiteLine (s : Bytes) : Bool :=
  (List.range s.length).any fun i => (i = 0 || s[i - 1]? = some 0x0a) && whiteToLineEnd s.length (s.drop i)

/-- The context that `rdfstore:context` sets, against the base of the moment. -/
def contextResource (u : UriModule) (base value : Bytes) : Option Resource :=
  if value = rdfstoreEmptyContext then none else createResource (normalizeResourceIdentifier u base value)

/-- The context that `rdfstore:contextnodeID` sets. -/
def contextNode (value : Bytes) : Option Resource :=
  if value ≠ [] ∧ !hasWhiteLine value then createAnonymousResource value else none

def unresolvedPrefix (pre suffix : Bytes) : Bytes :=
  ascii "Unresolved namespace prefix '" ++ pre ++ ascii "' for '" ++ suffix ++ ascii "'"

def unqualifiedUse (attname : Bytes) : Bytes :=
  ascii "Unqualified use of 'rdf:" ++ attname ++
    ascii "' attribute has been deprecated - see http://www.w3.org/2000/03/rdf-tracking/#rdf-ns-prefix-confusion"

def attributeForbidden (attname : Bytes) : Bytes :=
  ascii "Using property attribute '" ++ attname ++ ascii "' without a namespace is forbidden."

/-- The attribute is kept with the element. -/
def AttributeState.keep (st : AttributeState) (a : Attribute) (ns : Option Bytes) (name : Bytes) : AttributeState :=
  { st with
    rdfAttlist := st.rdfAttlist ++ [⟨ns, name, a.value⟩]
    rdfAtts := if ns = some rdfSyntaxNs ∧ a.name ≠ ascii "nodeID" then st.rdfAtts + 1 else st.rdfAtts }

/-- An attribute that the loop has not used: without a name space it must be one of RDF or stand inside a literal. -/
def keepAttribute (parseLiteral : Bool) (st : AttributeState) (a : Attribute) : Except Bytes AttributeState :=
  match given a.ns with
  | some ns => .ok (st.keep a (some ns) a.name)
  | none =>
    match splitName a.name with
    | (pre, some suffix) =>
      if pre = xmlPrefix then .ok (st.keep a (some xmlSchema) suffix) else .error (unresolvedPrefix pre suffix)
    | (_, none) =>
      if a.name ∈ unqualified then
        .ok ({ st with p := st.p.warn (unqualifiedUse a.name) }.keep a (some rdfSyntaxNs) a.name)
      else if parseLiteral then .ok (st.keep a a.ns a.name)
      else .error (attributeForbidden a.name)

/-- `rdfstore:context` and `rdfstore:contextnodeID`, which are kept with the element as well. -/
def AttributeState.readContext (c : Setup) (key : Bytes) (st : AttributeState) (a : Attribute) : AttributeState :=
  let st :=
    if a.isContext then
      { st with
        p := { st.p with context := st.p.context.enter key (contextResource c.uri st.p.base.current a.value) }
        rdfstoreAtts := st.rdfstoreAtts + 1 }
    else st
  if a.isContextnodeID then
    { st with
      p := { st.p with context := st.p.context.enter key (contextNode a.value) }
      rdfstoreAtts := st.rdfstoreAtts + 1 }
  else st

/-- One attribute; what it sets is saved under the key of the element. -/
def readAttribute (c : Setup) (key : Bytes) (parseLiteral : Bool) (st : AttributeState) (a : Attribute) :
    Except Bytes AttributeState :=
  if a.value ≠ [] ∧ a.isBase then
    .ok { st with p := { st.p with base := st.p.base.enter key a.value }, xmlAtts := st.xmlAtts + 1 }
  else if a.isLang then
    .ok { st with p := { st.p with lang := st.p.lang.enter key a.value }, xmlAtts := st.xmlAtts + 1 }
  else
    let st := st.readContext c key a
    if a.isReserved then .ok st
    else if a.isDatatype then
      .ok { st with p := { st.p with datatype := some (normalizeResourceIdentifier c.uri st.p.base.current a.value) } }
    else keepAttribute parseLiteral st a

/-! ## Start tags -/

def aboutEachNotSupported : Bytes := ascii "aboutEach is not supported on stream parsing "

def bothIDAndAbout : Bytes :=
  ascii "A description block cannot use both 'ID' and 'about' attributes - see <a href=\"http://www.w3.org/TR/REC-rdf-syntax/#idAboutAttr\">[6.5]</a>"

def propertyAttributesNotPermitted : Bytes :=
  ascii "Property attributes and the rdf:nodeID attribute are not permitted on a description using rdf:parseType='Resource'."

/-- The identifiers in the attributes of a new element. -/
def identify (c : Setup) (st : AttributeState) (e : Element) : Except Bytes Element :=
  let value name := getAttributeValue e.attlist (rdfms name)
  let normalize := normalizeResourceIdentifier c.uri st.p.base.current
  if (value "aboutEach").isSome then .error aboutEachNotSupported
  else if (value "ID").isSome ∧ (value "about").isSome then .error bothIDAndAbout
  else if value "parseType" = some (ascii "Resource") ∧ e.attlist.length > st.xmlAtts + st.rdfstoreAtts + st.rdfAtts + 1 then
    .error propertyAttributesNotPermitted
  else
    .ok { e with
      sResource := ((value "resource").map normalize).or e.nodeID
      sAbout := ((value "about").map normalize).or e.nodeID
      sBagID := (value "bagID").map normalize
      sID := (value "ID").map fun id => normalize (0x23 :: id) }

/-- The mode behind a start tag, and whether the element is the outermost one of the mode. -/
def State.enterMode (p : State) (name : Bytes) : State × Bool :=
  match p.scanMode with
  | .skipping => ({ p with scanMode := if name = rdfms "RDF" then .rdf else .topDescription }, true)
  | .rdf => ({ p with scanMode := .description }, true)
  | .description => (p, false)
  | .topDescription => (p, false)

/-- An element with `rdf:parseType="Resource"` gets a description, which is open as well. -/
def State.implyDescription (p : State) (e : Element) : State :=
  let ref := p.elements.length
  let desc := Element.new none (rdfms "Description") e.attlist (some p.lang.current) p.datatype p.context.current
  let p := (p.make desc).hangOnTop ref
  { p with elementStack := ref :: p.elementStack }

/-- An element outside literals; the outermost one of the mode hangs on nothing. -/
def State.placeElement (p : State) (setScanModeElement : Bool) (e : Element) : State :=
  let ref := p.elements.length
  let p := if setScanModeElement then p.make e else (p.make e).hangOnTop ref
  { p with elementStack := ref :: p.elementStack }

/-- The new element is put on the stacks; in front of `return` there are the elements inside a literal, and those that
begin one. -/
def State.place (c : Setup) (t : StartTag) (parseLiteral setScanModeElement : Bool) (p : State) (e : Element) : State :=
  let ref := p.elements.length
  let sLiteralValue := getAttributeValue e.attlist (rdfms "parseType")
  if isLiteralType sLiteralValue then
    let p := (p.make e).hangOnTop ref
    { p with elementStack := ref :: p.elementStack, parseElementStack := ref :: p.parseElementStack, sLiteral := [] }
  else if parseLiteral then
    let p := p.make e
    { p with elementStack := ref :: p.elementStack,
             sLiteral := p.sLiteral ++ (c.startXmlLiteral.map fun f => f p t).getD [] }
  else
    let e := { e with isCollection := sLiteralValue = some (ascii "Collection") }
    let p := p.placeElement setScanModeElement e
    if sLiteralValue = some (ascii "Collection") then { p with sLiteral := [] }
    else if sLiteralValue = some (ascii "Resource") then
      { p with parseElementStack := ref :: p.parseElementStack, sLiteral := [] }.implyDescription e
    else p

/-- The name of an element with its name space; the prefix `xml` needs none. -/
def StartTag.qualified (t : StartTag) : Option Bytes × Bytes :=
  if t.ns = none ∧ (splitName t.name).1 = xmlPrefix then (some xmlSchema, (splitName t.name).2.getD [])
  else (t.ns, t.name)

/-- A start tag with a name that is allowed. -/
def startElement (c : Setup) (key : Bytes) (parseLiteral : Bool) (t : StartTag) (p : State) : Except Bytes State := do
  let (ns, tag) := t.qualified
  let (p, setScanModeElement) := p.enterMode (ns.getD [] ++ tag)
  let st ← t.attlist.foldlM (readAttribute c key parseLiteral) ⟨p, [], 0, 0, 0⟩
  let e ← identify c st (Element.new ns tag st.rdfAttlist (some st.p.lang.current) st.p.datatype st.p.context.current)
  let p := if setScanModeElement then { st.p with expectElement := some st.p.elements.length } else st.p
  pure (p.place c t parseLiteral setScanModeElement e)

def withoutNamespace (tag : Bytes) : Bytes :=
  ascii "Using node element '" ++ tag ++ ascii "' without a namespace is forbidden."

/-- `RDFXML_StartElementHandler`; `context` holds the names of the elements around it, the outermost first. -/
def rdfxmlStartElementHandler (c : Setup) (context : List Bytes) (t : StartTag) (p : State) : Except Bytes State :=
  let parseLiteral := p.scanMode ≠ .skipping && p.parseLiteral
  if t.ns = none ∧ (splitName t.name).1 ≠ xmlPrefix ∧ (splitName t.name).2.isSome then
    .error (unresolvedPrefix (splitName t.name).1 ((splitName t.name).2.getD []))
  else if t.ns = none ∧ (splitName t.name).1 ≠ xmlPrefix ∧ !parseLiteral then .ok (p.warn (withoutNamespace t.name))
  else startElement c (context.flatten ++ t.name) parseLiteral t p

/-! ## End tags -/

/-- `$expat` as the walk over the tree finds it -/
def Setup.expat (c : Setup) (p : State) : Expat where
  base := p.base.current
  sSource := c.sSource
  bCreateBags := c.bCreateBags
  lang := some p.lang.current
  datatype := p.datatype
  context := p.context.current
  randSeed := c.randSeed
  pid := c.pid
  timestamp := c.timestamp
  uri := c.uri

/-- The trees of the elements from the `i`-th on: what hangs on an element has a higher number. -/
def treesFrom (i : ℕ) : List TreeElement → List Node
  | [] => []
  | n :: later =>
    let trees := treesFrom (i + 1) later
    .element n.element (n.children.filterMap fun
      | .data d => some (.data d)
      | .element ref => trees[ref - (i + 1)]?) :: trees

/-- `processXML` of the outermost node element -/
def State.processExpected (c : Setup) (p : State) : Except Bytes State :=
  match p.expectElement.bind fun ref => (treesFrom 0 p.elements)[ref]? with
  | some (.element e nodes) =>
    match processXML (c.expat p) [] e nodes p.iReificationCounter with
    | .ok (_, n, l) => .ok { p with iReificationCounter := n, asserted := p.asserted ++ l }
    | .error message => .error message
  | _ => .error undefinedValue

/-- What the element has set is set back; the datatype is forgotten. -/
def State.setBack (p : State) (key : Bytes) : State :=
  { p with base := p.base.leave key, lang := p.lang.leave key, context := p.context.leave key, datatype := none }

/-- The end of an element inside a literal, of a literal, or of an element with an implied description. -/
def State.closeParseType (c : Setup) (parseLiteral : Bool) (tag : Bytes) (p : State) : State :=
  if parseLiteral then
    if p.parseElementStack.head? ≠ p.root then
      { p with sLiteral := p.sLiteral ++ (c.stopXmlLiteral.map fun f => f p tag).getD [] }
    else
      let d := DataElement.new p.sLiteral true (some p.lang.current) p.datatype
      let p := match p.root with
        | some ref => p.hang ref (.data d)
        | none => p
      { p with parseElementStack := p.parseElementStack.tail }
  else if p.parseResource then
    match p.elementStack with
    | e :: rest =>
      if p.parseElementStack.head? = some e then
        { p with elementStack := rest, parseElementStack := p.parseElementStack.tail }
      else p
    | [] => p
  else p

/-- The element on the top of the stack becomes the root. -/
def State.pop (p : State) : State := { p with root := p.elementStack.head?, elementStack := p.elementStack.tail }

/-- The end of `rdf:RDF`, of an element inside an outermost node element, or of one of these, which is then walked. -/
def State.finish (c : Setup) (key : Bytes) (p : State) : Except Bytes State :=
  if p.scanMode = .rdf then .ok ({ p with scanMode := .skipping }.setBack key)
  else if p.expectElement ≠ p.root then .ok (p.setBack key)
  else
    match p.scanMode with
    | .topDescription => do
      let p ← p.processExpected c
      pure ({ p with scanMode := .skipping }.setBack key)
    | .description => do
      let p ← p.processExpected c
      pure ({ p with scanMode := .rdf }.setBack key)
    | _ => .ok (p.setBack key)

/-- `RDFXML_EndElementHandler` -/
def rdfxmlEndElementHandler (c : Setup) (context : List Bytes) (tag : Bytes) (p : State) : Except Bytes State :=
  let key := context.flatten ++ tag
  if p.pop.scanMode = .skipping then .ok (p.pop.setBack key)
  else (p.pop.closeParseType c p.parseLiteral tag).finish c key

/-! ## Texts -/

/-- A text behind another one of the same element is added to it. -/
def addText (text : Bytes) (d : DataElement) : List Content → List Content
  | [] => [.data d]
  | .data d' :: children => .data { d' with sContent := d'.sContent ++ text } :: children
  | .element ref :: children => .element ref :: addText text d children

/-- `RDFXML_CharacterDataHandler` -/
def rdfxmlCharacterDataHandler (c : Setup) (text : Bytes) (p : State) : State :=
  if p.parseLiteral then { p with sLiteral := p.sLiteral ++ (c.charLiteral.map fun f => f p text).getD [] }
  else
    match p.elementStack with
    | top :: _ =>
      let d := DataElement.new text false (some p.lang.current) p.datatype
      { p with elements := p.elements.modify top fun n => { n with children := addText text d n.children } }
    | [] => p

end RdfStore.SiRPAC
