import RdfStore.Rdql.Scans

/-!
# The parser (`RDQL/Parser.pm`)

Every sub, and every loop of one, is a procedure of a machine with a stack.  A
comment is taken a character at a time until `*/` is in front (`Sub.comment`).
-/

namespace RdfStore.Rdql

open ByteMem Scan Tokens NTriples Descent

/-! ## The subs -/

/-- The subs of the parser.  A loop has a name of its own, behind the sub it belongs to. -/
inductive Sub
  | matchAndEat (lit : Token)
  | comment
  | parse | prefixDecls | queryForm | sourceClauses | orderBys
  | select | selectVars
  | orderBy | limit | offset
  | construct | constructTriples
  | describe | describes | delete
  | var | fromNamed | source | uris | uriOrQName | literal
  | graphPattern | unions | graphAndPattern | patternElements | patternElement
  | groupGraphPattern | sourceGraphPattern | optionalGraphPattern | triplePattern
  | varOrURIOrQName | varOrURIOrQNameOrLiteral
  | prefixes | prefixDecl
  | constraint | constraints
  | conditionalOrExpression | conditionalOrs | conditionalAndExpression | conditionalAnds
  | stringEqualityExpression | stringEqualities | patternLiteral
  | equalityExpression | equalities | relationalExpression
  | additiveExpression | additives | multiplicativeExpression | multiplicatives
  | unaryExpression | unaryExpressionNotPlusMinus | primaryExpression
  | functionCall | argList | args

abbrev Code := Prog Parser Bytes Parser.size Sub

namespace Code

/-- `MatchAndEat` -/
def eat (lit : String) (k : Bool → Code) (h : ascii lit ≠ [] := by decide) : Code := .call (.matchAndEat ⟨ascii lit, h⟩) k

/-- The sub is called, and its answer is of no interest. -/
def run (p : Sub) (k : Code) : Code := .call p fun _ => k

/-- The sub is called if the literal is there. -/
def clause (lit : String) (p : Sub) (k : Code) (h : ascii lit ≠ [] := by decide) : Code :=
  eat lit (fun b => if b then run p k else k) h

/-- `A or B` -/
def either (p : Sub) (q : Code) : Code := .call p fun b => if b then .ret true else q

/-- `Var or URIOrQName or Literal` -/
def operand (k : Bool → Code) : Code :=
  .call .var fun b => if b then k true else .call .uriOrQName fun b => if b then k true else .call .literal k

def write (f : Parsed → Parsed) (k : Code) : Code := .update ⟨fun c => { c with parsed := f c.parsed }, fun _ => rfl⟩ k

def error (msg : String) : Code := .fail fun c => errorText (ascii msg) c.queryString

/-- Between a `push` on the context and the `pop`. -/
def within (c : Context) (k : Code → Code) : Code := write (·.push c) (k (write Parsed.pop (.ret false)))

/-- A loop over operators: the literal, what stands behind it, and what is pushed. -/
def operators (loop : Sub) : List (Token × Sub × String) → Code
  | [] => .ret false
  | (lit, operand, op) :: os =>
    .call (.matchAndEat lit) fun b =>
      if b then run operand (write (·.addOperator [ascii op]) (run loop (.ret false))) else operators loop os

/-- An operator that is pushed as it is written. -/
def op (lit : String) (operand : Sub) (h : ascii lit ≠ [] := by decide) : Token × Sub × String := (⟨ascii lit, h⟩, operand, lit)

end Code

open Code

def Sub.body : Sub → Code
  | matchAndEat lit =>
    .scan (substitute lineComment shortens_lineComment fun q _ => q) fun line =>
      if line then .call (.matchAndEat lit) .ret
      else
        .scan (substitute (eatSign (ascii "/*")) (shortens_eatSign ⟨ascii "/*", by decide⟩) fun q _ => q) fun begun =>
          let literal : Code := .scan (substitute (eatToken lit.1) (shortens_eatToken lit) fun q _ => q) .ret
          if begun then run .comment literal else literal
  | comment =>
    .scan (substitute (eatSign (ascii "*/")) (shortens_eatSign ⟨ascii "*/", by decide⟩) fun q _ => q) fun closed =>
      if closed then .ret true else .scan (substitute eatAny shortens_eatAny fun q _ => q) fun _ => .call .comment .ret
  | parse =>
    write (fun q => { q with context := [], graphPatternsPointer := [] }) <|
      run .prefixDecls <| run .queryForm <| run .prefixDecls <| run .sourceClauses <|
        clause "where" .graphPattern <| run .orderBys <|
          clause "limit" .limit <| clause "offset" .offset <| clause "using" .prefixes <|
            .scan finish .ret
  | prefixDecls => eat "prefix" fun b => if b then run .prefixDecl (run .prefixDecls (.ret false)) else .ret false
  | queryForm =>
    let form (t : QueryType) (k : Code) : Code := write (fun q => { q with queryType := some t }) k
    eat "select" fun b => if b then form .select (run .select (.ret false)) else
      eat "construct" fun b => if b then form .construct (run .construct (.ret false)) else
        eat "describe" fun b => if b then form .describe (run .describe (.ret false)) else
          eat "ask" fun b => if b then form .ask (.ret false) else
            eat "delete" fun b => if b then form .delete (run .delete (.ret false)) else
              .scan (require (fun c => c.queryString = [])
                (ascii "Expecting SELECT, CONSTRUCT, DESCRIBE, ASK or DELETE token")) .ret
  | sourceClauses =>
    let clause : Code :=
      eat "named" fun b => run (if b then .fromNamed else .source) (run .sourceClauses (.ret false))
    eat "source" fun b => if b then clause else eat "from" fun b => if b then clause else .ret false
  | orderBys =>
    eat "order" fun b => if b then eat "by" fun b => if b then run .orderBy (run .orderBys (.ret false)) else .ret false
      else .ret false
  | select =>
    eat "distinct" fun distinct => write (fun q => { q with distinct }) <| within .select fun pop =>
      eat "*" fun b => if b then write (fun q => { q with resultVars := q.resultVars ++ [ascii "*"] }) pop
        else .call .var fun b => if b then run .selectVars pop else pop
  | selectVars => eat "," fun _ => .call .var fun b => if b then run .selectVars (.ret false) else .ret false
  | orderBy =>
    let direction (d : String) (pop : Code) : Code := write (fun q => { q with orderBy := q.orderBy ++ [ascii d] }) pop
    within .orderBy fun pop =>
      eat "asc" fun b => if b then run .conditionalOrExpression (direction "ASC" pop) else
        eat "desc" fun b => if b then run .conditionalOrExpression (direction "DESC" pop) else
          .call .var fun b => if b then direction "ASC" pop else
            .call .functionCall fun b => if b then direction "ASC" pop
              else run .conditionalOrExpression (direction "ASC" pop)
  | limit =>
    within .limit fun pop => .call .literal fun b =>
      if b then .scan (require (fun c => notBelowZero c.parsed.limit) (ascii "limit is invalid")) fun _ => pop
      else error "limit requires an integer value"
  | offset =>
    within .offset fun pop => .call .literal fun b =>
      if b then .scan (require (fun c => notBelowZero c.parsed.offset) (ascii "offset is invalid")) fun _ => pop
      else error "offset requires an integer value"
  | construct =>
    write (fun q => { q with distinct := false }) <| within .construct fun pop =>
      eat "*" fun b => if b then write (fun q => { q with constructPatterns := q.constructPatterns ++ [.everything] }) pop
        else .call .triplePattern fun b => if b then pop
          else eat "\x7b" fun b => if b then
              run .constructTriples (eat "\x7d" fun b => if b then pop else error "missing right brace")
            else error "missing left brace"
  | constructTriples =>
    .call .triplePattern fun b => if b then eat "," fun _ => run .constructTriples (.ret false) else .ret false
  | describe =>
    write (fun q => { q with distinct := false }) <| within .describe fun pop =>
      eat "*" fun b => if b then write (fun q => { q with describes := q.describes ++ [ascii "*"] }) pop
        else .call .varOrURIOrQName fun b => if b then run .describes pop else pop
  | describes => eat "," fun _ => .call .varOrURIOrQName fun b => if b then run .describes (.ret false) else .ret false
  | delete =>
    write (fun q => { q with distinct := false }) <|
      eat "*" fun b => if b then write (fun q => { q with resultVars := q.resultVars ++ [ascii "*"] }) (.ret false)
        else .ret false
  | var => .scan (substitute scanVar shortens_scanVar Parsed.addVar) .ret
  | fromNamed =>
    within .fromNamed fun pop => .call .uriOrQName fun b =>
      if b then run .uris pop else error "malformed URI or QName"
  | source =>
    within .source fun pop => .call .uriOrQName fun b =>
      if b then run .uris pop else error "malformed URI or QName"
  | uris => eat "," fun _ => .call .uriOrQName fun b => if b then run .uris (.ret false) else .ret false
  | uriOrQName => .scan scanUri .ret
  | literal => .scan (substitute scanLiteral shortens_scanLiteral Parsed.addLiteral) .ret
  | graphPattern => run .graphAndPattern (run .unions (.ret false))
  | unions =>
    eat "UNION" fun b =>
      if b then run .graphAndPattern (write (·.addGraph .union) (run .unions (.ret false))) else .ret false
  | graphAndPattern => write Parsed.beginBlock (run .patternElements (write Parsed.endBlock (.ret false)))
  | patternElements =>
    .call .patternElement fun b => if b then eat "," fun _ => run .patternElements (.ret false) else .ret false
  | patternElement =>
    either .triplePattern <| either .groupGraphPattern <| either .sourceGraphPattern <| either .optionalGraphPattern <|
      eat "and" fun b => if b then run .constraint (.scan markOptional fun _ => .ret true) else .ret false
  | groupGraphPattern =>
    eat "\x7b" fun b =>
      if b then
        run .graphPattern (eat "\x7d" fun b =>
          if b then write (·.addGraph .and) (.ret true) else error "missing right brace")
      else .ret false
  | sourceGraphPattern =>
    eat "graph" fun b =>
      if b then
        write (·.push .namedGraph) <| .call .varOrURIOrQName fun b =>
          if b then
            run .patternElement (write (fun q => { q with graphName := none }) (write Parsed.pop (.ret true)))
          else error "malformed GRAPH clause"
      else .ret false
  | optionalGraphPattern =>
    eat "optional" fun b =>
      if b then write (·.push .optional) (run .patternElement (write Parsed.pop (.ret true))) else .ret false
  | triplePattern =>
    let close : Code := eat ")" fun b =>
      if b then write Parsed.endTriple (.ret true) else error "missing right round bracket"
    eat "(" fun b => if b then
        write Parsed.beginTriple <| .call .varOrURIOrQName fun b => if b then
            eat "," fun _ => .call .varOrURIOrQName fun b => if b then
                eat "," fun _ => .call .varOrURIOrQNameOrLiteral fun b => if b then
                    eat "," fun _ => .call .varOrURIOrQNameOrLiteral fun b => if b then close
                      else write Parsed.addGraphName close
                  else error "malformed object variable, URI, QName or literal"
              else error "malformed predicate variable, URI or QName"
          else error "malformed subject variable, URI or QName"
      else .ret false
  | varOrURIOrQName => either .var (.call .uriOrQName .ret)
  | varOrURIOrQNameOrLiteral => either .var (either .uriOrQName (.call .literal .ret))
  | prefixes => .call .prefixDecl fun b => if b then eat "," fun _ => run .prefixes (.ret false) else .ret false
  | prefixDecl => .scan scanPrefixDecl .ret
  | constraint => within .constraints fun pop => run .conditionalOrExpression (run .constraints pop)
  | constraints =>
    let more : Code := run .conditionalOrExpression (run .constraints (.ret false))
    eat "," fun b => if b then more else eat "and" fun b => if b then more else .ret false
  | conditionalOrExpression => run .conditionalAndExpression (run .conditionalOrs (.ret false))
  | conditionalOrs => operators .conditionalOrs [op "||" .conditionalAndExpression]
  | conditionalAndExpression => run .stringEqualityExpression (run .conditionalAnds (.ret false))
  | conditionalAnds => operators .conditionalAnds [op "&&" .stringEqualityExpression]
  | stringEqualityExpression => run .equalityExpression (run .stringEqualities (.ret false))
  | stringEqualities =>
    operators .stringEqualities [op "eq" .equalityExpression, op "ne" .equalityExpression, op "=~" .patternLiteral,
      (⟨ascii "LIKE", by decide⟩, .patternLiteral, "=~"), op "!~" .patternLiteral]
  | patternLiteral => .scan (substitute takePattern shortens_takePattern Parsed.addPatternLiteral) .ret
  | equalityExpression => run .relationalExpression (run .equalities (.ret false))
  | equalities => operators .equalities [op "==" .relationalExpression, op "!=" .relationalExpression]
  | relationalExpression =>
    let behind (o : String) : Code := run .additiveExpression (write (·.addOperator [ascii o]) (.ret false))
    -- the first two are looked for twice
    run .additiveExpression <|
      eat ">=" fun b => if b then behind ">=" else eat ">=" fun b => if b then behind ">=" else
        eat "<=" fun b => if b then behind "<=" else eat "<=" fun b => if b then behind "<=" else
          eat "<" fun b => if b then behind "<" else eat ">" fun b => if b then behind ">" else .ret false
  | additiveExpression => run .multiplicativeExpression (run .additives (.ret false))
  | additives => operators .additives [op "+" .multiplicativeExpression, op "-" .multiplicativeExpression]
  | multiplicativeExpression => run .unaryExpression (run .multiplicatives (.ret false))
  | multiplicatives =>
    operators .multiplicatives [op "*" .unaryExpression, op "/" .unaryExpression, op "%" .unaryExpression]
  | unaryExpression => .call .unaryExpressionNotPlusMinus .ret
  | unaryExpressionNotPlusMinus =>
    let behind (o : String) : Code := run .unaryExpression (write (·.addOperator [ascii o]) (.ret false))
    eat "~" fun b => if b then behind "~" else eat "!" fun b => if b then behind "!" else .call .primaryExpression .ret
  | primaryExpression =>
    eat "(" fun b =>
      if b then
        run .conditionalOrExpression (eat ")" fun b => if b then .ret true else error "missing right round bracket")
      else either .var (either .uriOrQName (either .literal (.call .functionCall .ret)))
  | functionCall =>
    eat "&" fun b => if b then .scan scanFunctionName fun b => if b then
          eat "(" fun b => if b then
              run .argList (eat ")" fun b =>
                if b then
                  .update ⟨fun c => { c with parsed := c.parsed.addOperator [ascii "&", c.parsed.functionName] }, fun _ => rfl⟩
                    (.ret true)
                else error "missing right round bracket")
            else .ret true
        else .ret false
      else .ret false
  | argList => operand fun b => if b then run .args (.ret false) else .ret false
  | args =>
    eat "," fun b => if b then operand fun b => if b then run .args (.ret false) else .ret false else .ret false

/-! ## A run of the parser -/

/-- `%RDQL::Parser::default_prefixes`, by prefix. -/
def defaultPrefixes : List (Bytes × Bytes) :=
  [(ascii "rdf", ascii "http://www.w3.org/1999/02/22-rdf-syntax-ns#"),
    (ascii "rdfs", ascii "http://www.w3.org/2000/01/rdf-schema#"),
    (ascii "rss", ascii "http://purl.org/rss/1.0/"),
    (ascii "daml", ascii "http://www.daml.org/2001/03/daml+oil#"),
    (ascii "dc", ascii "http://purl.org/dc/elements/1.1/"),
    (ascii "dcq", ascii "http://purl.org/dc/terms/"),
    (ascii "foaf", ascii "http://xmlns.com/foaf/0.1/"),
    (ascii "xsd", ascii "http://www.w3.org/2001/XMLSchema#"),
    (ascii "owl", ascii "http://www.w3.org/2002/07/owl#"),
    (ascii "op", ascii "http://www.w3.org/2001/sw/DataAccess/operations"),
    (ascii "fn", ascii "http://www.w3.org/2004/07/xpath-functions")]

theorem defaultPrefixes_word : ∀ e ∈ defaultPrefixes, e.1 ≠ [] ∧ ∀ a ∈ e.1, isWordChar a = true := by
  have hall : ∀ e ∈ defaultPrefixes, e.1 ≠ [] ∧ e.1.all isWordChar = true := by decide
  intro e he
  obtain ⟨hne, hchars⟩ := hall e he
  exact ⟨hne, List.all_eq_true.1 hchars⟩

/-- `new` -/
def Parsed.new : Parsed where
  prefixes :=
    { lookup := fun p => (defaultPrefixes.find? fun e => e.1 = p).map Prod.snd
      word := fun p u h => by
        obtain ⟨e, he, -⟩ := Option.map_eq_some_iff.1 h
        have hp : e.1 = p := by simpa using List.find?_some he
        exact Or.inr (hp ▸ defaultPrefixes_word e (List.mem_of_find?_eq_some he)) }
  sources := []
  fromNamed := []
  resultVars := []
  constructPatterns := []
  describes := []
  graphPatterns := []
  orderBy := []
  queryType := none
  distinct := false
  limit := none
  offset := none
  context := []
  graphPatternsPointer := []
  triplePattern := none
  graphName := none
  functionName := []

/-- `parse` is called with a query. -/
def parse (self : Parsed) (query : Bytes) : Config Parser Bytes Parser.size Sub :=
  .running (Sub.body .parse) [] ⟨query, self⟩

end RdfStore.Rdql
