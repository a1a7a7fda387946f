import RdfStore.Query.Matching
import RdfStore.Rdql.Lexer

/-!
# The parts of a triple pattern (`_prepareTriplepattern` of `DBD/RDFStore.pm`)

What the text of a part stands for in the search hash: nothing for a variable, a
URI, a bNode or a literal, several of them with commas between them, or words.
-/

namespace RdfStore.Query

open ByteMem

/-! ## Nodes -/

/-- A node as it is created for the search. -/
inductive Term
  | resource (uri : Bytes)
  | bnode (label : Bytes)
  | literal (content : Bytes) (lang : Bytes)
  deriving DecidableEq

/-- Whether a node of a statement is the node. -/
def Term.denotes : Term → Node → Bool
  | .resource uri, .resource r => !r.bnode && r.bytes = uri
  | .bnode label, .resource r => r.bnode && r.bytes = label
  | .literal content lang, .literal l => l.bytes = content && l.lang.bytes = lang && l.dataType.isNone
  | _, _ => false

/-! ## The factory -/

/-- `_rdfstore_is_xml_name` -/
def isXmlName : Bytes → Bool
  | [] => false
  | c :: t =>
    (NTriples.isLetter c || c = 0x5f) && t.all fun d => NTriples.isLabelChar d || d = 0x5f || d = 0x2d || d = 0x2e

/-- `createResource` of a text, which must be true. -/
def createResource (s : Bytes) : Option Term :=
  if s = [] ∨ s = ascii "0" ∨ cstr s = [] then none else some (.resource (cstr s))

/-- `createResource` of a namespace and a local name. -/
def createQualified (ns localName : Bytes) : Option Term :=
  if cstr ns = [] then none
  else if cstr localName = [] then some (.resource (cstr ns))
  else if isXmlName (cstr localName) then some (.resource (cstr ns ++ cstr localName)) else none

/-- `createLiteral`, which refuses a long language. -/
def createLiteral (content lang : Bytes) : Option Term :=
  if maxLangLength < lang.length then none else some (.literal (cstr content) (cstr lang))

/-! ## Splitting -/

/-- `split(/\s+,\s+/, $1)`, up to the empty texts at the end. -/
def splitCommas : ℕ → Bytes → Bytes → List Bytes
  | 0, field, s => [field ++ s]
  | _, field, [] => [field]
  | n + 1, field, a :: s =>
    if NTriples.isWhite a then
      match s.dropWhile NTriples.isWhite with
      | b :: t =>
        if b = 0x2c ∧ (t.head?.map NTriples.isWhite).getD false then
          field :: splitCommas n [] (t.dropWhile NTriples.isWhite)
        else splitCommas n (field ++ [a]) s
      | [] => splitCommas n (field ++ [a]) s
    else splitCommas n (field ++ [a]) s

/-- Empty texts at the end are dropped. -/
def splitOred (s : Bytes) : List Bytes := ((splitCommas s.length [] s).reverse.dropWhile (· = [])).reverse

/-! ## Languages -/

/-- `\@([a-z0-9]+(-[a-z0-9]+)?)\s*`, with `atEnd` in front of the end of a line, and what is left without it. -/
def stripLang (atEnd : Bool) : Bytes → Option (Bytes × Bytes)
  | [] => none
  | a :: s =>
    let here := if a = 0x40 then NTriples.scanLang s else none
    match here with
    | some (lang, rest) =>
      let behind := rest.dropWhile NTriples.isWhite
      let white := rest.takeWhile NTriples.isWhite
      if !atEnd || behind = [] then some (lang, behind)
      else if 0x0a ∈ white then some (lang, 0x0a :: (white.reverse.takeWhile (· ≠ 0x0a)).reverse ++ behind)
      else (stripLang atEnd s).map fun t => (t.1, a :: t.2)
    | none => (stripLang atEnd s).map fun t => (t.1, a :: t.2)

/-- `s/^\s*["']//` and `s/["']\s*$//` -/
def stripOpening (s : Bytes) : Option Bytes :=
  match s.dropWhile NTriples.isWhite with
  | [] => none
  | a :: t => if Rdql.isQuote a then some t else none

def stripClosing (s : Bytes) : Option Bytes := (stripOpening s.reverse).map List.reverse

/-! ## What a part stands for -/

/-- Without a line feed at the end, in front of which `$` stands too. -/
def chomp (s : Bytes) : Bytes := if s.getLast? = some 0x0a then s.dropLast else s

/-- `^_:([A-Za-z][A-Za-z0-9_\-\.]*)$` -/
def bnodeLabel (s : Bytes) : Option Bytes :=
  match chomp s with
  | a :: b :: c :: t =>
    if a = 0x5f ∧ b = 0x3a ∧ NTriples.isLetter c ∧
        t.all (fun d => NTriples.isLabelChar d || d = 0x5f || d = 0x2d || d = 0x2e) then some (c :: t) else none
  | _ => none

/-- `/^(([^\:]+)\:{1,2}(.*))$/`: a bNode, a declared prefix and a local name, or the text as it is. -/
def qualifiedTerm (prefixes : Bytes → Option Bytes) (s : Bytes) : Option Term :=
  let s := chomp s
  let name := s.takeWhile (· ≠ 0x3a)
  match s.dropWhile (· ≠ 0x3a) with
  | [] => none
  | _ :: behind =>
    if name = [] ∨ 0x0a ∈ behind then none
    else
      match bnodeLabel s with
      | some label => some (.bnode label)
      | none =>
        match prefixes name with
        | some uri => createQualified uri (if behind.head? = some 0x3a then behind.tail else behind)
        | none => createResource s

/-- A text that does not begin with a name and a colon: a literal in quotation marks, a bNode, or a URI. -/
def plainTerm (s : Bytes) : Option Term :=
  let lang := (stripLang true s).map (·.1)
  let s := ((stripLang true s).map (·.2)).getD s
  let opened := stripOpening s
  match opened.bind stripClosing with
  | some content => createLiteral content (lang.getD [])
  | none =>
    match bnodeLabel (opened.getD s) with
    | some label => some (.bnode label)
    | none => createResource (opened.getD s)

/-- What is put in the search hash for a part; a node that could not be created is passed over. -/
inductive Component
  | any
  | terms (l : List Term)
  | words (text : Bytes)
  deriving DecidableEq

/-- `^<(([^\:]+)\:{1,2}([^>]+))>$` -/
def isQualified (inner : Bytes) : Bool :=
  let name := inner.takeWhile (· ≠ 0x3a)
  let behind := (inner.dropWhile (· ≠ 0x3a)).tail
  name ≠ [] && behind ≠ [] && !behind.contains 0x3e

/-- A part of a triple pattern; `%…%` is a text with words. -/
def component (prefixes : Bytes → Option Bytes) (s : Bytes) : Component :=
  if isVariable s then .any
  else
    let inner := s.tail.dropLast
    let bracketed := s.head? = some 0x3c ∧ s.getLast? = some 0x3e ∧ 2 ≤ s.length
    if bracketed ∧ isQualified inner then .terms ((splitOred inner).filterMap (qualifiedTerm prefixes))
    else if bracketed ∧ inner ≠ [] ∧ 0x3e ∉ inner then .terms ((splitOred inner).filterMap plainTerm)
    else
      let isWords := s.head? = some 0x25 ∧ s.tail.getLast? = some 0x25
      let s := if isWords then s.tail.dropLast else if s.head? = some 0x25 then s.tail else s
      let lang := ((stripLang false s).map (·.1)).getD []
      let s := ((stripLang false s).map (·.2)).getD s
      let s := (stripOpening s).getD s
      let s := (stripClosing s).getD s
      if isWords then .words s else .terms (createLiteral s lang).toList

/-! ## What is searched for -/

/-- The search hash: what is asked of each position, and the texts with words. -/
structure SearchQuery where
  fields : List (List Term)
  words : List Bytes

def Component.asked : Component → List Term
  | .terms l => l
  | _ => []

def Component.text : Component → Option Bytes
  | .words text => some text
  | _ => none

/-- The components of `_prepareTriplepattern`. -/
def prepareTriplepattern (prefixes : Bytes → Option Bytes) (parts : List Bytes) : SearchQuery where
  fields := parts.map fun s => (component prefixes s).asked
  words := parts.filterMap fun s => (component prefixes s).text

/-- A position for which nothing is asked, or one of the nodes. -/
def termsFit (l : List Term) (n : Option Node) : Bool := l.isEmpty || (n.map fun n => l.any (·.denotes n)).getD false

def SearchQuery.fits (hasWords : List Bytes → Fact → Bool) (q : SearchQuery) (f : Fact) : Bool :=
  (q.fields.zipIdx.all fun e => termsFit e.1 (f.part e.2)) && (q.words.isEmpty || hasWords q.words f)

/-- The statements of a model, each once, and a search that finds exactly those that fit. -/
structure Store where
  facts : List Fact
  nodup : facts.Nodup
  hasWords : List Bytes → Fact → Bool
  find : SearchQuery → List Fact
  find_perm : ∀ q, (find q).Perm (facts.filter (q.fits hasWords))

/-- `$sth->{'source_model'}->{rdfstore}->search( _prepareTriplepattern( … ) )` -/
def Store.search (store : Store) (prefixes : Bytes → Option Bytes) (parts : List Bytes) : List Fact :=
  store.find (prepareTriplepattern prefixes parts)

end RdfStore.Query
