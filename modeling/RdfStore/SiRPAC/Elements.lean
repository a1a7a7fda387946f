import RdfStore.Lib.Emission
import RdfStore.Query.Components
import Mathlib.Data.Nat.Digits.Defs

/-!
# Elements, nodes and assertions of the RDF/XML parser (`Parser/SiRPAC.pm`)

The parser builds a tree of elements from the events of Expat, and when an outermost
node element ends it walks the tree and asserts statements. Here are the tree, the
nodes that the factory makes, and what the walk is made of: new numbers for bNodes,
identifiers against the base, and assertions.
-/

namespace RdfStore.SiRPAC

open ByteMem Emission

/-! ## Names -/

def rdfSyntaxNs : Bytes := ascii "http://www.w3.org/1999/02/22-rdf-syntax-ns#"
def xmlSchema : Bytes := ascii "http://www.w3.org/XML/1998/namespace"
def rdfstoreSchema : Bytes := ascii "http://rdfstore.sourceforge.net/contexts/"

/-- `$RDFMS_…` -/
def rdfms (name : String) : Bytes := rdfSyntaxNs ++ ascii name

def rdfstoreContext : Bytes := rdfstoreSchema ++ ascii "context"
def rdfstoreContextnodeID : Bytes := rdfstoreSchema ++ ascii "contextnodeID"

/-- `=~ /^$ns/`: a dot of the name space stands for any character but a line feed. -/
def startsWith : Bytes → Bytes → Bool
  | [], _ => true
  | _ :: _, [] => false
  | p :: ps, b :: bs =>
    if p = 0x2e then
      b ≠ 0x0a && startsWith ps (if b < 0xc0 then bs else bs.dropWhile fun c => 0x80 ≤ c && c < 0xc0)
    else p = b && startsWith ps bs

/-- An attribute: the pair `[$namespace, $attname]` and its value. -/
structure Attribute where
  ns : Option Bytes
  name : Bytes
  value : Bytes
  deriving DecidableEq

/-- `$attlist->[$n]->[0].$attlist->[$n]->[1]` -/
def Attribute.full (a : Attribute) : Bytes := a.ns.getD [] ++ a.name

abbrev Attlist := List Attribute

def getAttributeValue (attlist : Attlist) (elName : Bytes) : Option Bytes :=
  (attlist.find? (·.full = elName)).map (·.value)

/-- `(defined $s) && ($s ne '')` -/
def given (s : Option Bytes) : Option Bytes := s.filter (· ≠ [])

/-- A text that is true in Perl. -/
def isTrue (s : Bytes) : Bool := s ≠ [] && s ≠ ascii "0"

/-! ## Nodes -/

inductive Resource
  | uri (identifier : Bytes)
  | bnode (label : Bytes)
  deriving DecidableEq

/-- `toString` -/
def Resource.text : Resource → Bytes
  | .uri s => s
  | .bnode s => s

inductive Object
  | resource (r : Resource)
  | literal (content : Bytes) (parseType : Bool) (lang dataType : Bytes)
  deriving DecidableEq

structure Statement where
  subject : Resource
  predicate : Resource
  object : Object
  context : Option Resource
  deriving DecidableEq

/-- `createResource` of one text -/
def createResource (s : Bytes) : Option Resource := if isTrue s then some (.uri s) else none

/-- `createResource` of a namespace and a local name, which must be an XML name in ASCII. -/
def createQualified (ns localName : Bytes) : Option Resource :=
  if ns = [] then none
  else if localName = [] then some (.uri ns)
  else if Query.isXmlName localName then some (.uri (ns ++ localName)) else none

def createAnonymousResource (label : Bytes) : Option Resource :=
  if label = [] then none else some (.bnode label)

/-- `createLiteral`: no literal with markup of another datatype, no long language. -/
def createLiteral (content : Bytes) (parseType : Bool) (lang dataType : Option Bytes) : Option Object :=
  let xmlLiteral := rdfms "XMLLiteral"
  let lang := lang.getD []
  let dataType := dataType.getD []
  if parseType ∧ dataType ≠ [] ∧ dataType ≠ xmlLiteral then none
  else if maxLangLength < lang.length then none
  else some (.literal content parseType lang (if parseType then xmlLiteral else dataType))

/-! ## The tree -/

/-- `RDFStore::Parser::SiRPAC::Element`, less its children -/
structure Element where
  sNamespace : Option Bytes
  tag : Bytes
  attlist : Attlist
  isCollection : Bool
  lang : Option Bytes
  datatype : Option Bytes
  context : Option Resource
  sID : Option Bytes
  sBagID : Option Bytes
  sAbout : Option Bytes
  sResource : Option Bytes
  deriving DecidableEq

/-- `Element->new` -/
def Element.new (ns : Option Bytes) (tag : Bytes) (attlist : Attlist) (lang datatype : Option Bytes)
    (context : Option Resource) : Element where
  sNamespace := ns
  tag := tag
  attlist := attlist
  isCollection := false
  lang := lang
  datatype := datatype
  context := context
  sID := none
  sBagID := none
  sAbout := none
  sResource := none

/-- `$ele->name()` -/
def Element.name (e : Element) : Bytes := e.sNamespace.getD [] ++ e.tag

/-- `$ele->nodeID`: the attribute `rdf:nodeID`, as the name of a bNode. -/
def Element.nodeID (e : Element) : Option Bytes :=
  (getAttributeValue e.attlist (rdfms "nodeID")).map (ascii "rdf:nodeID:" ++ ·)

/-- `RDFStore::Parser::SiRPAC::DataElement` -/
structure DataElement where
  sContent : Bytes
  parseType : Bool
  lang : Option Bytes
  datatype : Option Bytes
  deriving DecidableEq

/-- `DataElement->new` -/
def DataElement.new (text : Bytes) (parsetype : Bool) (lang datatype : Option Bytes) : DataElement where
  sContent := text
  parseType := parsetype || datatype = some (rdfms "XMLLiteral")
  lang := lang
  datatype := datatype

inductive Node
  | data (d : DataElement)
  | element (e : Element) (children : List Node)

/-! ## Where an element stands -/

/-- From an element to the next inner one: a child, or the description that the attributes of a
property element imply. -/
inductive Step
  | child (i : ℕ)
  | implied
  deriving DecidableEq

/-- Where an element stands, the innermost step first. -/
abbrev Path := List Step

/-- What a statement is asserted for. Nothing in the program depends on it. -/
inductive Role
  | type (node : Path)
  | property (property : Path)
  | link (property object : Path)
  | list (property : Path)
  | first (property object : Path)
  | rest (property : Path)
  | reification (property : Path)
  | bag (node : Path)
  deriving DecidableEq

/-- An `Assert` event. -/
structure Assertion where
  role : Role
  statement : Statement
  deriving DecidableEq

/-! ## The parser while it walks the tree -/

/-- What is used of the URI module. -/
structure UriModule where
  scheme : Bytes → Option Bytes
  path : Bytes → Bytes
  abs : Bytes → Bytes → Bytes

/-- `$expat`, as it stands when the tree is walked. -/
structure Expat where
  base : Bytes
  sSource : Bytes
  bCreateBags : Bool
  lang : Option Bytes
  datatype : Option Bytes
  context : Option Resource
  randSeed : Bytes
  pid : ℕ
  timestamp : ℕ
  uri : UriModule

/-- The walk draws from `iReificationCounter`, asserts, and can die with a message. -/
abbrev Walk := Emit Bytes Assertion

/-- A number as Perl writes it. -/
def decimal (n : ℕ) : Bytes := (Nat.toDigits 10 n).map fun c => c.toNat.toUInt8

/-- The name of the bNode with a number. -/
def Expat.genid (x : Expat) (n : ℕ) : Bytes :=
  ascii "rdf:nodeID:genidrdfstore" ++ (ascii "S" ++ x.randSeed) ++ (ascii "P" ++ decimal x.pid) ++
    (ascii "T" ++ decimal x.timestamp) ++ (ascii "N" ++ decimal n)

def newReificationID (x : Expat) : Walk Bytes := do
  let n ← draw
  pure (x.genid n)

/-- The identifier, or that of a new bNode. -/
def orNew (x : Expat) : Option Bytes → Walk Bytes
  | some id => pure id
  | none => newReificationID x

/-- The last part of a path, if it is `/([^\/]+\.[^\/]+)$/`. -/
def fileName (path : Bytes) : Bytes :=
  let last := (path.reverse.takeWhile (· ≠ 0x2f)).reverse
  if last.tail.dropLast.contains 0x2e then last else []

def nodeIDPrefix : Bytes := ascii "rdf:nodeID:"

def normalizeResourceIdentifier (u : UriModule) (base sURI : Bytes) : Bytes :=
  if nodeIDPrefix.isPrefixOf sURI then sURI
  else if (u.scheme sURI).isSome ∧ u.scheme sURI ≠ some (ascii "file") then sURI
  else if base ≠ [] then
    let xmlBase := base.takeWhile (· ≠ 0x23)
    let fragment := sURI.head? = some 0x23
    let vURI := if fragment then [] else sURI
    let absoluteURL :=
      if (ascii "http:").isPrefixOf xmlBase ∨ (ascii "file:").isPrefixOf xmlBase then
        u.abs (if fragment then fileName (u.path xmlBase) ++ vURI else vURI) xmlBase
      else xmlBase ++ vURI
    absoluteURL ++ if fragment then sURI else []
  else if sURI.head? = some 0x23 then sURI
  else 0x23 :: sURI

/-- `normalizeResourceIdentifier` against the base of the moment. -/
def Expat.normalize (x : Expat) (sURI : Bytes) : Bytes := normalizeResourceIdentifier x.uri x.base sURI

/-- `buildResource` of one text -/
def buildResource (ns : Bytes) : Option Resource :=
  if nodeIDPrefix.isPrefixOf ns then createAnonymousResource (ns.drop nodeIDPrefix.length)
  else createResource ns

/-- `buildResource` of a name space and a local name -/
def buildQualified (ns : Option Bytes) (ln : Bytes) : Option Resource := createQualified (ns.getD []) ln

/-- `rdf:…`, as a predicate or an object. -/
def buildRdf (ln : String) : Option Resource := createQualified rdfSyntaxNs (ascii ln)

/-! ## Assertions -/

def undefinedValue : Bytes := ascii "Can't call method \"toString\" on an undefined value"

/-- The node itself, or the source of the document if its text is not true. -/
def orSource (x : Expat) (r : Option Resource) : Option Resource :=
  match r with
  | some r => if isTrue r.text then some r else buildResource x.sSource
  | none => buildResource x.sSource

/-- `addTriple`; a warning about one node that is missing needs the other two. -/
def addTriple (x : Expat) (role : Role) (predicate subject : Option Resource) (object : Option Object)
    (context : Option Resource) : Walk Unit :=
  match predicate with
  | none => croak undefinedValue
  | some p =>
    if subject = none ∧ object = none then croak undefinedValue
    else
      let object := match object with
        | some (.resource r) => (orSource x (some r)).map .resource
        | o => o
      if p.text = rdfstoreContext ∨ p.text = rdfstoreContextnodeID then pure ()
      else
        match orSource x subject, object with
        | some s, some o => emit ⟨role, ⟨s, p, o, context⟩⟩
        | _, _ => pure ()

/-- A statement about a statement. -/
def aboutStatement (x : Expat) (path : Path) (sNodeID : Bytes) (context : Option Resource) (ln : String)
    (object : Option Object) : Walk Unit :=
  addTriple x (.reification path) (buildRdf ln) (buildResource sNodeID) object context

/-- The subject of a statement, which must be there. -/
def aboutSubject (x : Expat) (path : Path) (sNodeID : Bytes) (context : Option Resource) : Option Resource → Walk Unit
  | none => croak undefinedValue
  | some subject => aboutStatement x path sNodeID context "subject" (some (.resource subject))

/-- `reify`: the statement, and the four statements about it. -/
def reify (x : Expat) (role : Role) (path : Path) (predicate subject : Option Resource)
    (object : Option Object) (sNodeID : Option Bytes) (ele : Element) : Walk Bytes := do
  let id ← orNew x ((given sNodeID).or ele.nodeID)
  addTriple x role predicate subject object ele.context
  aboutStatement x path id ele.context "predicate" (predicate.map .resource)
  aboutSubject x path id ele.context subject
  aboutStatement x path id ele.context "object" object
  aboutStatement x path id ele.context "type" ((buildRdf "Statement").map .resource)
  pure id

end RdfStore.SiRPAC
