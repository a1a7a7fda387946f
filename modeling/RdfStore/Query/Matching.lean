import RdfStore.Query.Fetch

/-!
# Matching triple patterns (`_nextMatch` and `_each_other` of `DBD/RDFStore.pm`)

A depth-first search with one iterator for each triple pattern.  After every
result it is left, with the bindings of each level on a stack; the next call
goes down again with the bindings from the stack, and on with the iterators.

What the store finds for a triple pattern, after the values of its variables
were put in, is a parameter.
-/

namespace RdfStore.Query

open ByteMem

/-! ## Statements and triple patterns -/

/-- A statement that an iterator gives. -/
structure Fact where
  subject : Resource
  predicate : Resource
  object : Node
  context : Option Resource
  deriving DecidableEq

/-- Subject, predicate and object; behind them the context. -/
def Fact.part (f : Fact) : ℕ → Option Node
  | 0 => some (.resource f.subject)
  | 1 => some (.resource f.predicate)
  | 2 => some f.object
  | _ => f.context.map .resource

/-- A triple pattern: whether it is optional, and its parts as they are written. -/
structure TriplePattern where
  optional : Bool
  parts : List Bytes

/-- `/^([\?\$].+)$/` of a part, which has no line feed when it begins so. -/
def isVariable (s : Bytes) : Bool := (s.head? = some 0x3f || s.head? = some 0x24) && !s.tail.isEmpty

/-! ## Values in place of variables -/

/-- `"…"@lang` -/
def literalText (l : Literal) : Bytes :=
  0x22 :: (Node.toString (.literal l) ++ 0x22 ::
    (if isTrueText l.lang.bytes then 0x40 :: l.lang.bytes else []))

/-- `<…>`, or `<_:…>` for a bNode. -/
def resourceText (r : Resource) : Bytes :=
  0x3c :: ((if r.bnode then ascii "_:" else []) ++ Node.toString (.resource r) ++ [0x3e])

/-- What stands for the value of a variable at a position; nothing does for a literal that is no object, or for
a variable without a value. -/
def valueText (n : Option Node) (j : ℕ) : Option Bytes :=
  match n with
  | some (.literal l) => if j = 2 then some (literalText l) else none
  | some (.resource r) => some (resourceText r)
  | none => none

/-- The parts from position `j` on, and the positions of the variables that are not there yet; of one that is
there several times, the last. -/
def substitute (bind : Result) : ℕ → List Bytes → Option (List Bytes × List (Bytes × ℕ))
  | _, [] => some ([], [])
  | j, s :: parts =>
    (substitute bind (j + 1) parts).bind fun t =>
      if isVariable s then
        match bind.lookup s with
        | some n => (valueText n j).map fun u => (u :: t.1, t.2)
        | none => some (s :: t.1, if s ∈ t.2.map (·.1) then t.2 else (s, j) :: t.2)
      else some (s :: t.1, t.2)

/-- `$bind{ $var } = …` -/
def Result.set (bind : Result) (v : Bytes) (n : Option Node) : Result :=
  if v ∈ bind.map (·.1) then bind.map fun e => if e.1 = v then (v, n) else e else bind ++ [(v, n)]

/-- The variables of a triple pattern take their values from a statement. -/
def bindFact (vars : List (Bytes × ℕ)) (f : Fact) (bind : Result) : Result :=
  vars.foldl (fun bind v => bind.set v.1 (f.part v.2)) bind

/-- `fill up holes` -/
def fillHoles (vars : List (Bytes × ℕ)) (bind : Result) : Result :=
  vars.foldl (fun bind v => if v.1 ∈ bind.map (·.1) then bind else bind.set v.1 none) bind

/-- `delete( $bind{$_} )` -/
def forget (vars : List (Bytes × ℕ)) (bind : Result) : Result := bind.filter fun e => !(vars.map (·.1)).contains e.1

/-! ## The search -/

/-- An iterator: the statements that are left, and the variables that take values from them. -/
structure Level where
  items : List Fact
  vars : List (Bytes × ℕ)

/-- `binds` with the last one first, the iterators from a level on, and `result`. -/
structure Progress where
  binds : List Result
  iterators : List (Option Level)
  result : Result

/-- Bindings without variables are not saved. -/
def pushBind (bind : Result) (binds : List Result) : List Result := if bind = [] then binds else bind :: binds

/-- Behind the last triple pattern the bindings are the result, unless some are left on the stack. -/
def copyResult : List Result → Result → Progress → Progress
  | [], bind, s => if s.result = [] then ⟨[], s.iterators, bind⟩ else ⟨pushBind bind [], s.iterators, s.result⟩
  | saved :: binds, bind, s =>
    let s := copyResult binds saved s
    if s.result = [] then ⟨s.binds, s.iterators, bind⟩ else ⟨pushBind bind s.binds, s.iterators, s.result⟩

/-- `while ( my $c = $itr->each )`, where `deeper` is the search behind this triple pattern. -/
def eachFact (deeper : Result → Progress → Progress) (vars : List (Bytes × ℕ)) : List Fact → Result → Progress → Progress
  | [], _, s => ⟨s.binds, none :: s.iterators, s.result⟩
  | f :: items, bind, s =>
    let bind := bindFact vars f bind
    let s := deeper bind s
    if s.result ≠ [] then ⟨pushBind (forget vars bind) s.binds, some ⟨items, vars⟩ :: s.iterators, s.result⟩
    else eachFact deeper vars items bind s

variable (search : List Bytes → List Fact)

/-- `_nextMatch` from a triple pattern on. -/
def nextMatch : List TriplePattern → Result → Progress → Progress
  | [], bind, s => copyResult s.binds bind s
  | t :: patterns, bind, s =>
    let own := s.iterators.head?.join
    -- a previous state is recovered
    let s :=
      match s.binds with
      | [] => ⟨[], s.iterators.tail, s.result⟩
      | saved :: binds => nextMatch patterns saved ⟨binds, s.iterators.tail, s.result⟩
    if s.result ≠ [] then ⟨pushBind bind s.binds, own :: s.iterators, s.result⟩
    else
      match own with
      | some level => eachFact (nextMatch patterns) level.vars level.items bind s
      | none =>
        match substitute bind 0 t.parts with
        | none => ⟨s.binds, none :: s.iterators, s.result⟩
        | some (parts, vars) =>
          let items := search parts
          if t.optional = true ∧ items = [] then
            let bind := fillHoles vars bind
            let s := nextMatch patterns bind s
            if s.result ≠ [] then ⟨pushBind (forget vars bind) s.binds, some ⟨[], vars⟩ :: s.iterators, s.result⟩
            else eachFact (nextMatch patterns) vars [] bind s
          else eachFact (nextMatch patterns) vars items bind s

/-- `_each_other` of a graph pattern without constraints. -/
def eachOther (patterns : List TriplePattern) (s : Progress) : Result × Progress :=
  let s := nextMatch search patterns [] { s with result := [] }
  (s.result, s)

/-- Before the first call. -/
def Progress.start : Progress := ⟨[], [], []⟩

/-- `_do_optimize_level0`: optional triple patterns are behind the others. -/
def optimizeLevel0 (patterns : List TriplePattern) : List TriplePattern :=
  patterns.mergeSort fun t u => decide (t.optional.toNat ≤ u.optional.toNat)

end RdfStore.Query
