import RdfStore.Rdql.Lexer
import RdfStore.NTriples.Literals
import RdfStore.Lib.Descent
import RdfStore.Query.Matching

/-!
# What the parser takes and keeps (`RDQL/Parser.pm`)

What the parser scans it takes from the front of the query string; a pattern is
taken out of the middle.  Where a scan answers 1 the query string gets shorter.
-/

namespace RdfStore.Rdql

open ByteMem Scan Tokens NTriples Descent

/-! ## What a query is parsed into -/

/-- The elements of `$class->{'context'}`. -/
inductive Context
  | select | orderBy | limit | offset | construct | describe | fromNamed | source | namedGraph | optional | triples
  | constraints
  deriving DecidableEq

/-- A hash of `$class->{'graphPatterns'}`. -/
structure Block where
  triplePatterns : List Query.TriplePattern
  constraints : List Bytes
  optional : Bool
  constraintsOptional : Option Bool

/-- An element of `$class->{'graphPatterns'}`. -/
inductive Graph
  | block (b : Block)
  | union
  | and

inductive QueryType
  | select | construct | describe | ask | delete
  deriving DecidableEq

/-- An element of `$class->{'constructPatterns'}`. -/
inductive Construct
  | everything
  | pattern (t : Query.TriplePattern)

/-- The keys of the parser, but for the query string.  The lists that are used as stacks have their top in front. -/
structure Parsed where
  prefixes : Prefixes
  sources : List Bytes
  fromNamed : List Bytes
  resultVars : List Bytes
  constructPatterns : List Construct
  describes : List Bytes
  graphPatterns : List Graph
  orderBy : List Bytes
  queryType : Option QueryType
  distinct : Bool
  limit : Option Bytes
  offset : Option Bytes
  context : List Context
  graphPatternsPointer : List ℕ
  triplePattern : Option Query.TriplePattern
  graphName : Option Bytes
  -- `my $qn` of `FunctionCall`, which is not called again by `ArgList`
  functionName : Bytes

structure Parser where
  queryString : Bytes
  parsed : Parsed

def Parser.size (c : Parser) : ℕ := c.queryString.length

/-- The text of an error. -/
def errorText (msg rest : Bytes) : Bytes := ascii "error: " ++ msg ++ ascii ": " ++ rest ++ [0x0a]

namespace Parsed

variable (q : Parsed)

/-- `eq` with the top of the stack. -/
def within (c : Context) : Bool := q.context.head? = some c

/-- The block to which the pointer leads. -/
def modifyBlock (f : Block → Block) : Parsed :=
  { q with graphPatterns := q.graphPatterns.modify (q.graphPatternsPointer.headD 0) fun g =>
      match g with
      | .block b => .block (f b)
      | g => g }

def addConstraints (es : List Bytes) : Parsed := q.modifyBlock fun b => { b with constraints := b.constraints ++ es }

/-- What an operator pushes. -/
def addOperator (es : List Bytes) : Parsed :=
  if q.within .orderBy then { q with orderBy := q.orderBy ++ es } else q.addConstraints es

/-- A part of the triple pattern. -/
def addPart (e : Bytes) : Parsed :=
  { q with triplePattern := q.triplePattern.map fun t => { t with parts := t.parts ++ [e] } }

def addNew (e : Bytes) (es : List Bytes) : List Bytes := if es.contains e then es else es ++ [e]

/-- Where `Var` pushes the variable. -/
def addVar (e : Bytes) : Parsed :=
  if q.within .select then { q with resultVars := addNew e q.resultVars }
  else if q.within .describe then { q with describes := addNew e q.describes }
  else if q.within .triples then q.addPart e
  else if q.within .constraints then q.addConstraints [e]
  else if q.within .orderBy then { q with orderBy := q.orderBy ++ [e] }
  else if q.within .namedGraph then { q with graphName := some e }
  else q

/-- Where `URIOrQName` pushes the URI. -/
def addUri (e : Bytes) : Parsed :=
  if q.within .triples then q.addPart e
  else if q.within .fromNamed then { q with fromNamed := q.fromNamed ++ [e] }
  else if q.within .source then { q with sources := q.sources ++ [e] }
  else if q.within .constraints then q.addConstraints [e]
  else if q.within .orderBy then { q with orderBy := q.orderBy ++ [e] }
  else if q.within .namedGraph then { q with graphName := some e }
  else if q.within .describe then { q with describes := addNew e q.describes }
  else q

/-- Where `Literal` pushes the literal. -/
def addLiteral (e : Bytes) : Parsed :=
  if q.within .triples then q.addPart e
  else if q.within .constraints then q.addConstraints [e]
  else if q.within .orderBy then { q with orderBy := q.orderBy ++ [e] }
  else if q.within .namedGraph then { q with graphName := some e }
  else if q.within .limit then { q with limit := some e }
  else if q.within .offset then { q with offset := some e }
  else q

/-- Where `PatternLiteral` pushes the pattern. -/
def addPatternLiteral (e : Bytes) : Parsed :=
  if q.within .constraints then q.addConstraints [e]
  else if q.within .orderBy then { q with orderBy := q.orderBy ++ [e] }
  else q

def push (c : Context) : Parsed := { q with context := c :: q.context }

def pop : Parsed := { q with context := q.context.tail }

/-- The block that `GraphAndPattern` begins. -/
def beginBlock : Parsed :=
  { q with
    graphPatterns := q.graphPatterns ++ [.block ⟨[], [], q.within .optional, none⟩]
    graphPatternsPointer := q.graphPatterns.length :: q.graphPatternsPointer }

def endBlock : Parsed := { q with graphPatternsPointer := q.graphPatternsPointer.tail }

def addGraph (g : Graph) : Parsed := { q with graphPatterns := q.graphPatterns ++ [g] }

def beginTriple : Parsed := { q with triplePattern := some ⟨q.within .optional, []⟩ }.push .triples

/-- A triple pattern without a context has the one of `GRAPH`. -/
def addGraphName : Parsed :=
  match q.graphName with
  | some e => q.addPart e
  | none => q

/-- `CONSTRUCT` has patterns of its own, unless it has `*`. -/
def ownPatterns : Bool :=
  q.context.tail.head? = some .construct && match q.constructPatterns.head? with
    | some .everything => false
    | _ => true

def endTriple : Parsed :=
  match q.triplePattern with
  | none => q.pop
  | some t =>
    let q := if q.ownPatterns then { q with constructPatterns := q.constructPatterns ++ [.pattern t] }
      else q.modifyBlock fun b => { b with triplePatterns := b.triplePatterns ++ [t] }
    { q with triplePattern := none }.pop

end Parsed

/-! ## Scans -/

/-- What an expression takes, it takes from a query string that gets shorter. -/
def Shortens (f : Bytes → Option (Bytes × Bytes)) : Prop := ∀ s t r, f s = some (t, r) → r.length < s.length

/-- `=~ s/...//`, with what is made of the text that was matched. -/
def substitute (f : Bytes → Option (Bytes × Bytes)) (hf : Shortens f) (g : Parsed → Bytes → Parsed) :
    Scan Parser Bytes Parser.size where
  run c :=
    match f c.queryString with
    | some (t, r) => .ok (true, ⟨r, g c.parsed t⟩)
    | none => .ok (false, c)
  le {c b c'} h := by
    cases hrun : f c.queryString with
    | none =>
      rw [hrun] at h
      cases h
      exact le_rfl
    | some t =>
      rw [hrun] at h
      cases h
      exact (hf _ _ _ hrun).le
  lt {c c'} h := by
    cases hrun : f c.queryString with
    | none =>
      rw [hrun] at h
      cases h
    | some t =>
      rw [hrun] at h
      cases h
      exact hf _ _ _ hrun

/-- A text of at least one character, whatever the case. -/
abbrev Token := { lit : Bytes // lit ≠ [] }

theorem length_skipWhite (s : Bytes) : (skipWhite s).length ≤ s.length := (List.dropWhile_suffix _).length_le

theorem stripLiteral_length {lit s t : Bytes} (h : stripLiteral lit s = some t) : t.length + lit.length = s.length := by
  induction lit generalizing s with
  | nil =>
    cases h
    rfl
  | cons a lit ih =>
    cases s with
    | nil => cases h
    | cons b s =>
      by_cases hab : toLower a = toLower b
      · rw [stripLiteral, if_pos hab] at h
        rw [List.length_cons, List.length_cons, ← ih h]
        rfl
      · rw [stripLiteral, if_neg hab] at h
        cases h

/-- `s/^\s*\Q$lit\E\s*//i` -/
def eatToken (lit s : Bytes) : Option (Bytes × Bytes) :=
  (stripLiteral lit (skipWhite s)).map fun t => (lit, skipWhite t)

theorem shortens_eatToken (lit : Token) : Shortens (eatToken lit.1) := by
  intro s t r h
  obtain ⟨u, hu, heq⟩ := Option.map_eq_some_iff.1 h
  cases heq
  have hlen := stripLiteral_length hu
  have hpos := List.length_pos_of_ne_nil lit.2
  have h₁ := length_skipWhite s
  have h₂ := length_skipWhite u
  omega

/-- `s/^\s*(.)\s*//`: white space alone is matched up to a character that `.` matches. -/
def eatAny (s : Bytes) : Option (Bytes × Bytes) :=
  match skipWhite s with
  | a :: t => some ([a], skipWhite t)
  | [] => if s.all (· = 0x0a) then none else some (s, [])

theorem shortens_eatAny : Shortens eatAny := by
  intro s t r h
  have hle := length_skipWhite s
  unfold eatAny at h
  cases hs : skipWhite s with
  | cons a u =>
    rw [hs] at h hle
    cases h
    exact lt_of_le_of_lt (length_skipWhite u) hle
  | nil =>
    simp only [hs] at h
    split_ifs at h with hall
    cases h
    exact List.length_pos_of_ne_nil fun hnil => hall (by rw [hnil]; rfl)

theorem eatLineComment_length {s r : Bytes} (h : eatLineComment s = some r) : r.length < s.length := by
  have hle := length_skipWhite s
  unfold eatLineComment at h
  cases hs : skipWhite s with
  | nil =>
    rw [hs] at h
    cases h
  | cons a u =>
    rw [hs] at h hle
    have hu : (u.dropWhile (· ≠ 0x0a)).length ≤ u.length := (List.dropWhile_suffix _).length_le
    have htail : (u.tail.dropWhile (· ≠ 0x0a)).length ≤ u.tail.length := (List.dropWhile_suffix _).length_le
    rw [List.length_tail] at htail
    rw [List.length_cons] at hle
    simp only at h
    split_ifs at h <;> cases h <;> omega

def lineComment (s : Bytes) : Option (Bytes × Bytes) := (eatLineComment s).map fun r => ([], r)

theorem shortens_lineComment : Shortens lineComment := by
  intro s t r h
  obtain ⟨u, hu, heq⟩ := Option.map_eq_some_iff.1 h
  cases heq
  exact eatLineComment_length hu

/-- `s/^\s*\/\*//` and `s/^\s*\*\///`, which leave the white space behind them. -/
def eatSign (sign s : Bytes) : Option (Bytes × Bytes) := (stripLiteral sign (skipWhite s)).map fun r => (sign, r)

theorem shortens_eatSign (sign : Token) : Shortens (eatSign sign.1) := by
  intro s t r h
  obtain ⟨u, hu, heq⟩ := Option.map_eq_some_iff.1 h
  cases heq
  have hlen := stripLiteral_length hu
  have hpos := List.length_pos_of_ne_nil sign.2
  have hle := length_skipWhite s
  omega

/-- With white space on both sides. -/
def padded (f : Bytes → Option (Bytes × Bytes)) (s : Bytes) : Option (Bytes × Bytes) :=
  (f (skipWhite s)).map fun u => (u.1, skipWhite u.2)

theorem shortens_padded {f : Bytes → Option (Bytes × Bytes)} (hf : Shortens f) : Shortens (padded f) := by
  intro s t r h
  obtain ⟨u, hu, heq⟩ := Option.map_eq_some_iff.1 h
  cases heq
  exact ((length_skipWhite _).trans_lt (hf _ _ _ hu)).trans_le (length_skipWhite s)

theorem shortens_scanVar : Shortens scanVar := by
  intro s t r h
  have hle := length_skipWhite s
  unfold scanVar at h
  cases hs : skipWhite s with
  | nil =>
    rw [hs] at h
    cases h
  | cons a u =>
    rw [hs] at h hle
    rw [List.length_cons] at hle
    simp only at h
    split_ifs at h
    cases h
    have hdrop : (u.dropWhile isVarChar).length ≤ u.length := (List.dropWhile_suffix _).length_le
    have hwhite := length_skipWhite (u.dropWhile isVarChar)
    omega

theorem scanQName_length {s r : Bytes} {n : Bytes × Bytes} (h : scanQName s = some (n, r)) : r.length < s.length := by
  have hle : (s.dropWhile isNameChar).length ≤ s.length := (List.dropWhile_suffix _).length_le
  unfold scanQName at h
  cases hs : s.dropWhile isNameChar with
  | nil =>
    rw [hs] at h
    cases h
  | cons a u =>
    rw [hs] at h hle
    rw [List.length_cons] at hle
    simp only at h
    split_ifs at h
    cases h
    have hdrop : (u.dropWhile isNameChar).length ≤ u.length := (List.dropWhile_suffix _).length_le
    omega

theorem scanUriref_length {s t r : Bytes} (h : scanUriref s = some (t, r)) : r.length < s.length := by
  cases s with
  | nil => cases h
  | cons a s =>
    by_cases ha : a = 0x3c ∧ 0x3e ∈ s
    · rw [scanUriref, if_pos ha] at h
      cases h
      have hdrop : (s.dropWhile (· ≠ 0x3e)).length ≤ s.length := (List.dropWhile_suffix _).length_le
      rw [List.length_tail, List.length_cons]
      omega
    · rw [scanUriref, if_neg ha] at h
      cases h

theorem scanURIOrQName_length {prefixes : Prefixes} {s t r : Bytes} (h : scanURIOrQName prefixes s = some (some (t, r))) :
    r.length < s.length := by
  have hle := length_skipWhite s
  unfold scanURIOrQName at h
  cases huri : scanUriref (skipWhite s) with
  | some u =>
    rw [huri] at h
    cases h
    exact ((length_skipWhite _).trans_lt (scanUriref_length huri)).trans_le hle
  | none =>
    rw [huri] at h
    cases hname : scanQName (skipWhite s) with
    | none =>
      rw [hname] at h
      cases h
    | some n =>
      rw [hname] at h
      obtain ⟨uri, -, heq⟩ := Option.map_eq_some_iff.1 h
      cases heq
      exact ((length_skipWhite _).trans_lt (scanQName_length hname)).trans_le hle

theorem exact_scanString : Exact fun s => some (scanString s) := by
  intro s x r h
  have heq := Option.some.inj h
  rw [Prod.ext_iff] at heq
  obtain ⟨rfl, rfl⟩ := heq
  clear h
  induction s using scanString.induct with
  | case1 => rfl
  | case2 a ha => simp [scanString, ha]
  | case3 a ha => simp [scanString, ha]
  | case4 a b s ha ih =>
    rw [scanString, if_pos ha, List.cons_append, ← ih]
  | case5 a b s ha hesc ih =>
    rw [scanString, if_neg ha, if_pos hesc, List.cons_append, List.cons_append, ← ih]
  | case6 a b s ha hesc => simp [scanString, ha, hesc]

theorem exact_scanLang : Exact scanLang := fun _ _ _ h => (scanLang_append h).1

theorem exact_scanDecimal : Exact scanDecimal :=
  have hexponent : Exact scanExponent := exact_one.seq (exact_one.opt.seq exact_many1)
  (exact_many1.seq (exact_one.seq (exact_many.seq (hexponent.opt.seq exact_one.opt)))).orElse
    ((exact_one.seq (exact_many1.seq (hexponent.opt.seq exact_one.opt))).orElse
      ((exact_many1.seq (hexponent.seq exact_one.opt)).orElse (exact_many1.seq (hexponent.opt.seq exact_one))))

theorem takes_scanDecimal : Takes scanDecimal :=
  takes_many1.seq_left.orElse (takes_one.seq_left.orElse (takes_many1.seq_left.orElse takes_many1.seq_left))

theorem exact_scanQuotedString : Exact scanQuotedString :=
  exact_one.opt.seq (exact_one.seq (exact_scanString.seq (exact_one.seq
    ((exact_one.seq exact_scanLang).opt.seq exact_one.opt))))

theorem exact_scanWord (word : Bytes) : Exact (scanWord word) := by
  intro s x r h
  unfold scanWord at h
  split_ifs at h with hprefix
  cases h
  exact (List.prefix_iff_eq_append.1 (List.isPrefixOf_iff_prefix.1 hprefix)).symm

theorem takes_scanWord {word : Bytes} (hword : word ≠ []) : Takes (scanWord word) := by
  intro s x r h
  unfold scanWord at h
  split_ifs at h
  cases h
  exact hword

/-- The expressions of `Literal`, without the white space. -/
def literalToken (t : Bytes) : Option (Bytes × Bytes) :=
  scanDecimal t <|> scanQuotedString t <|> scanInteger t <|> scanHex t <|> scanWord (ascii "true") t <|>
    scanWord (ascii "false") t <|> scanWord (ascii "null") t

theorem scanLiteral_eq : scanLiteral = padded literalToken := rfl

theorem shortens_scanLiteral : Shortens scanLiteral := by
  rw [scanLiteral_eq]
  refine shortens_padded fun s x r h => ?_
  have hexact : Exact literalToken :=
    exact_scanDecimal.orElse (exact_scanQuotedString.orElse (exact_many1.orElse
      ((exact_one.seq (exact_one.seq exact_many1)).orElse ((exact_scanWord _).orElse
        ((exact_scanWord _).orElse (exact_scanWord _))))))
  have htakes : Takes literalToken :=
    takes_scanDecimal.orElse (takes_one.seq_left.seq_right.orElse (takes_many1.orElse (takes_one.seq_left.orElse
      ((takes_scanWord (by decide)).orElse ((takes_scanWord (by decide)).orElse (takes_scanWord (by decide)))))))
  exact hexact.shorter htakes h

theorem exact_scanSlashes : Exact scanSlashes := by
  intro s x r h
  cases s with
  | nil => cases h
  | cons a t =>
    by_cases ha : a = 0x2f
    · rw [scanSlashes, if_pos ha] at h
      obtain ⟨u, hu, h⟩ := Option.bind_eq_some_iff.1 h
      obtain ⟨v, hv, heq⟩ := Option.map_eq_some_iff.1 h
      cases heq
      have hflags : Exact scanFlags := exact_one.opt.seq (exact_one.opt.seq (exact_one.opt.seq exact_one.opt))
      obtain ⟨y, hy, hsome⟩ := lastSplit_split (x := u.1.1) (c := u.1.2) hu
      cases hsome
      have ht : t = u.1.1 ++ 0x2f :: (u.2 ++ t.dropWhile (· ≠ 0x0a)) := calc
        t = t.takeWhile (· ≠ 0x0a) ++ t.dropWhile (· ≠ 0x0a) := List.takeWhile_append_dropWhile.symm
        _ = u.1.1 ++ 0x2f :: (u.2 ++ t.dropWhile (· ≠ 0x0a)) := by rw [hy, List.append_assoc, List.cons_append]
      rw [List.cons_append, List.append_assoc, List.cons_append, ← hflags _ _ _ hv, ← ht]
    · rw [scanSlashes, if_neg ha] at h
      cases h

theorem takes_scanSlashes : Takes scanSlashes := by
  intro s x r h
  cases s with
  | nil => cases h
  | cons a t =>
    by_cases ha : a = 0x2f
    · rw [scanSlashes, if_pos ha] at h
      obtain ⟨u, -, h⟩ := Option.bind_eq_some_iff.1 h
      obtain ⟨v, -, heq⟩ := Option.map_eq_some_iff.1 h
      cases heq
      exact List.cons_ne_nil _ _
    · rw [scanSlashes, if_neg ha] at h
      cases h

theorem shortens_takePattern : Shortens takePattern := by
  intro s
  induction s with
  | nil =>
    intro t r h
    cases h
  | cons a s ih =>
    intro t r h
    have hexact : Exact scanPattern := exact_one.opt.seq exact_scanSlashes
    unfold takePattern at h
    cases hscan : scanPattern (a :: s) with
    | some u =>
      rw [hscan] at h
      cases h
      exact hexact.shorter takes_scanSlashes.seq_right hscan
    | none =>
      rw [hscan] at h
      obtain ⟨u, hu, heq⟩ := Option.map_eq_some_iff.1 h
      cases heq
      exact Nat.succ_lt_succ (ih u.1 u.2 hu)

/-- `(\w[\w\d]*)?` as a key of the prefixes; a name that is false counts as none. -/
abbrev PrefixName := { p : Bytes // p = ascii "#default" ∨ p ≠ [] ∧ ∀ a ∈ p, isWordChar a = true }

def prefixName (s : Bytes) : PrefixName :=
  if h : s.takeWhile isWordChar = [] ∨ s.takeWhile isWordChar = ascii "0" then ⟨ascii "#default", Or.inl rfl⟩
  else ⟨s.takeWhile isWordChar, Or.inr ⟨fun hnil => h (Or.inl hnil), fun _ ha => List.mem_takeWhile_imp ha⟩⟩

def Prefixes.set (prefixes : Prefixes) (name : PrefixName) (uri : Bytes) : Prefixes where
  lookup p := if p = name.1 then some uri else prefixes.lookup p
  word p u h := by
    split_ifs at h with hp
    · exact hp ▸ name.2
    · exact prefixes.word p u h

/-- `\<([A-Za-z][^>]*)\>\s*` -/
def scanNamespace (s : Bytes) : Option (Bytes × Bytes) :=
  (scanUriref s).bind fun u => if u.1.head?.any isLetter then some (u.1, skipWhite u.2) else none

/-- `\s+` and something behind it -/
def behindWhite (s : Bytes) : Option Bytes := if s.head?.any isWhite then some (skipWhite s) else none

/-- `^\s*(\w[\w\d]*)?:\s+\<([A-Za-z][^>]*)\>\s*` -/
def scanColonDecl (s : Bytes) : Option ((PrefixName × Bytes) × Bytes) :=
  let t := skipWhite s
  (stripLiteral (ascii ":") (t.dropWhile isWordChar)).bind fun u =>
    (behindWhite u).bind fun v => (scanNamespace v).map fun w => ((prefixName t, w.1), w.2)

/-- `^\s*(\w[\w\d]*)\s+FOR\s+\<([A-Za-z][^>]*)\>\s*`, where the name may be `0`. -/
def scanForDecl (s : Bytes) : Option ((PrefixName × Bytes) × Bytes) :=
  let t := skipWhite s
  if h : t.takeWhile isWordChar = [] then none
  else
    (behindWhite (t.dropWhile isWordChar)).bind fun u =>
      (stripLiteral (ascii "FOR") u).bind fun v =>
        (behindWhite v).bind fun w => (scanNamespace w).map fun x =>
          ((⟨t.takeWhile isWordChar, Or.inr ⟨h, fun _ ha => List.mem_takeWhile_imp ha⟩⟩, x.1), x.2)

theorem scanNamespace_length {s t r : Bytes} (h : scanNamespace s = some (t, r)) : r.length < s.length := by
  obtain ⟨u, hu, h⟩ := Option.bind_eq_some_iff.1 h
  split_ifs at h
  cases h
  exact (length_skipWhite _).trans_lt (scanUriref_length hu)

theorem behindWhite_length {s t : Bytes} (h : behindWhite s = some t) : t.length ≤ s.length := by
  unfold behindWhite at h
  split_ifs at h
  cases h
  exact length_skipWhite s

theorem scanColonDecl_length {s r : Bytes} {d : PrefixName × Bytes} (h : scanColonDecl s = some (d, r)) :
    r.length < s.length := by
  obtain ⟨u, hu, h⟩ := Option.bind_eq_some_iff.1 h
  obtain ⟨v, hv, h⟩ := Option.bind_eq_some_iff.1 h
  obtain ⟨w, hw, heq⟩ := Option.map_eq_some_iff.1 h
  cases heq
  have hlit := stripLiteral_length hu
  have hdrop : ((skipWhite s).dropWhile isWordChar).length ≤ (skipWhite s).length := (List.dropWhile_suffix _).length_le
  have h₁ := length_skipWhite s
  have h₂ := behindWhite_length hv
  have h₃ := scanNamespace_length hw
  omega

theorem scanForDecl_length {s r : Bytes} {d : PrefixName × Bytes} (h : scanForDecl s = some (d, r)) :
    r.length < s.length := by
  unfold scanForDecl at h
  simp only at h
  split_ifs at h
  obtain ⟨u, hu, h⟩ := Option.bind_eq_some_iff.1 h
  obtain ⟨v, hv, h⟩ := Option.bind_eq_some_iff.1 h
  obtain ⟨w, hw, h⟩ := Option.bind_eq_some_iff.1 h
  obtain ⟨x, hx, heq⟩ := Option.map_eq_some_iff.1 h
  cases heq
  have hlit := stripLiteral_length hv
  have hdrop : ((skipWhite s).dropWhile isWordChar).length ≤ (skipWhite s).length := (List.dropWhile_suffix _).length_le
  have h₁ := length_skipWhite s
  have h₂ := behindWhite_length hu
  have h₃ := behindWhite_length hw
  have h₄ := scanNamespace_length hx
  omega

/-- A scan by its outcome: an error, or an answer with what is left. -/
def scanOf (f : Parser → Except Bytes (Bool × Parser))
    (hf : ∀ c b c', f c = .ok (b, c') → c'.size < c.size ∨ b = false ∧ c'.size ≤ c.size) : Scan Parser Bytes Parser.size where
  run := f
  le {c b c'} h := (hf c b c' h).elim le_of_lt And.right
  lt {c c'} h := (hf c true c' h).resolve_right fun hfalse => by cases hfalse.1

/-- `URIOrQName` -/
def scanUri : Scan Parser Bytes Parser.size :=
  scanOf
    (fun c =>
      match scanURIOrQName c.parsed.prefixes c.queryString with
      | some (some (e, r)) => .ok (true, ⟨r, c.parsed.addUri e⟩)
      | some none => .ok (false, c)
      | none =>
        -- the name has been taken when the error is reported
        match scanQName (skipWhite c.queryString) with
        | some (n, r) => .error (errorText (ascii "Unbound prefix " ++ n.1 ++ ascii " ") (skipWhite r))
        | none => .ok (false, c))
    (by
      intro c b c' h
      split at h
      · next e r hscan =>
        cases h
        exact Or.inl (scanURIOrQName_length hscan)
      · cases h
        exact Or.inr ⟨rfl, le_rfl⟩
      · split at h
        · cases h
        · cases h
          exact Or.inr ⟨rfl, le_rfl⟩)

/-- `PrefixDecl`: what is taken stays taken where `0` is returned. -/
def scanPrefixDecl : Scan Parser Bytes Parser.size :=
  scanOf
    (fun c =>
      let special (name : PrefixName) (uri : Option Bytes) (p : Bytes) : Bool :=
        name.1 = p && (uri = none || uri ≠ c.parsed.prefixes.lookup p)
      let declare (name : PrefixName) (uri r : Bytes) : Parser :=
        ⟨r, { c.parsed with prefixes := c.parsed.prefixes.set name uri }⟩
      match scanColonDecl c.queryString with
      | some ((name, uri), r) =>
        if special name none (ascii "fn") || special name none (ascii "op") then .ok (false, ⟨r, c.parsed⟩)
        else .ok (true, declare name uri r)
      | none =>
        match scanForDecl c.queryString with
        | some ((name, uri), r) =>
          if special name (some uri) (ascii "fn") || special name (some uri) (ascii "op") then .ok (false, ⟨r, c.parsed⟩)
          else .ok (true, declare name uri r)
        | none => .ok (false, c))
    (by
      intro c b c' h
      simp only at h
      split at h
      · next name uri r hscan =>
        have hlt := scanColonDecl_length hscan
        split_ifs at h <;> cases h <;> exact Or.inl hlt
      · split at h
        · next name uri r hscan =>
          have hlt := scanForDecl_length hscan
          split_ifs at h <;> cases h <;> exact Or.inl hlt
        · cases h
          exact Or.inr ⟨rfl, le_rfl⟩)

/-- The name of a function, which must have a prefix. -/
def scanFunctionName : Scan Parser Bytes Parser.size :=
  scanOf
    (fun c =>
      match scanQName (skipWhite c.queryString) with
      | none => .ok (false, c)
      | some (n, r) =>
        match c.parsed.prefixes.lookup (if n.1 = [] ∨ n.1 = ascii "0" then ascii "#default" else n.1) with
        | some uri => .ok (true, ⟨skipWhite r, { c.parsed with functionName := uri ++ n.2 }⟩)
        | none =>
          .error (errorText (ascii "Unsupported function call " ++ n.1 ++ ascii ":" ++ n.2) (skipWhite r)))
    (by
      intro c b c' h
      simp only at h
      split at h
      · cases h
        exact Or.inr ⟨rfl, le_rfl⟩
      · next n r hscan =>
        split at h
        · cases h
          exact Or.inl (((length_skipWhite r).trans_lt (scanQName_length hscan)).trans_le (length_skipWhite _))
        · cases h)

/-- Nothing is taken, and an error reported unless the test holds. -/
def require (test : Parser → Bool) (msg : Bytes) : Scan Parser Bytes Parser.size :=
  scanOf (fun c => if test c then .ok (false, c) else .error (errorText msg c.queryString))
    (by
      intro c b c' h
      split_ifs at h
      cases h
      exact Or.inr ⟨rfl, le_rfl⟩)

/-- `>= 0`: a text that has no minus sign in front is no number below zero. -/
def notBelowZero (e : Option Bytes) : Bool := ((e.getD []).dropWhile isWhite).head? ≠ some 0x2d

/-- The last element of the graph patterns must be a hash when it is marked. -/
def markOptional : Scan Parser Bytes Parser.size :=
  scanOf
    (fun c =>
      match c.parsed.graphPatterns.getLast? with
      | some .union => .error (ascii "Can't use string (\"UNION\") as a HASH ref while \"strict refs\" in use")
      | some .and => .error (ascii "Can't use string (\"AND\") as a HASH ref while \"strict refs\" in use")
      | some (.block b) =>
        let b := { b with constraintsOptional := some (c.parsed.within .optional) }
        .ok (false, { c with parsed := { c.parsed with graphPatterns := c.parsed.graphPatterns.dropLast ++ [.block b] } })
      | none => .ok (false, c))
    (by
      intro c b c' h
      simp only at h
      split at h <;> cases h <;> exact Or.inr ⟨rfl, le_rfl⟩)

/-- The end of `parse`: white space may be left, and nothing else. -/
def finish : Scan Parser Bytes Parser.size :=
  scanOf
    (fun c =>
      let s := ((skipWhite c.queryString).reverse.dropWhile isWhite).reverse
      if s = [] then .ok (false, ⟨[], { c.parsed with context := [], graphPatternsPointer := [] }⟩)
      else .error (errorText (ascii "illegal input") s))
    (by
      intro c b c' h
      simp only at h
      split_ifs at h
      cases h
      exact Or.inr ⟨rfl, Nat.zero_le _⟩)

end RdfStore.Rdql
