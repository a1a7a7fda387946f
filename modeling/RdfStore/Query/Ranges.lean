import RdfStore.Query.Components
import RdfStore.Query.Values
import RdfStore.Concrete

/-!
# Comparisons as ranges (`_prepareTriplepattern` of `DBD/RDFStore.pm`)

The comparison patterns of a graph pattern that mention a variable of a triple
pattern are put into its search hash, as one range of values and one operator.

    exactly the comparisons when at most two are there          (ranges_describe_iff)

What the store makes of a single comparison is a parameter.
-/

namespace RdfStore.Query

open ByteMem

/-! ## Comparison patterns -/

inductive Comparator
  | less
  | lessEqual
  | equal
  | notEqual
  | greaterEqual
  | greater
  deriving DecidableEq

def Comparator.name : Comparator → Bytes
  | .less => ascii "less-than"
  | .lessEqual => ascii "less-than-or-equal"
  | .equal => ascii "equal"
  | .notEqual => ascii "not-equal"
  | .greaterEqual => ascii "greater-than-or-equal"
  | .greater => ascii "greater-than"

/-- The comparison with its sides exchanged. -/
def Comparator.flip : Comparator → Comparator
  | .less => .greater
  | .lessEqual => .greaterEqual
  | .greaterEqual => .lessEqual
  | .greater => .less
  | c => c

/-- `'<'.$prefixes->{'op'}.'numeric-less-than>'` and the seventeen others. -/
def operators (ops : Bytes) : List (Bytes × Comparator) :=
  [Comparator.less, .lessEqual, .equal, .notEqual, .greaterEqual, .greater].flatMap fun c =>
    [ascii "numeric-", ascii "date-", ascii "dateTime-"].map fun kind => (0x3c :: (ops ++ kind ++ c.name ++ [0x3e]), c)

/-- A pattern of `constraints_triplePatterns`. -/
structure Comparison where
  left : Bytes
  operator : Bytes
  right : Bytes

/-- A constant without its quotation marks. -/
def constantText (s : Bytes) : Bytes :=
  let s := (stripOpening s).getD s
  (stripClosing s).getD s

/-- `%vars` -/
def variablesOf (parts : List Bytes) : List Bytes := parts.filter isVariable

/-- The variable that is compared, with the operator as seen from its side and the constant. -/
def sided (ops : Bytes) (parts : List Bytes) (c : Comparison) : Option (Bytes × Option (Comparator × Bytes)) :=
  if c.left ∈ variablesOf parts then
    some (c.left, ((operators ops).lookup c.operator).map fun o => (o, constantText c.right))
  else if c.right ∈ variablesOf parts then
    some (c.right, ((operators ops).lookup c.operator).map fun o => (o.flip, constantText c.left))
  else none

/-! ## Collecting -/

/-- `vals` and `op` of a variable, which are pushed together. -/
abbrev Collected := List (Comparator × Bytes)

/-- A variable gets an entry when it has none. -/
def pushRange (key : Bytes) (e : Option (Comparator × Bytes)) (ranges : List (Bytes × Collected)) :
    List (Bytes × Collected) :=
  if key ∈ ranges.map (·.1) then ranges.map fun r => if r.1 = key then (r.1, r.2 ++ e.toList) else r
  else ranges ++ [(key, e.toList)]

/-- `%ranges` -/
def collectRanges (ops : Bytes) (parts : List Bytes) (comparisons : List Comparison) : List (Bytes × Collected) :=
  comparisons.foldl (fun ranges c =>
    match sided ops parts c with
    | some (key, e) => pushRange key e ranges
    | none => ranges) []

/-! ## Combining -/

/-- `ranges_op`: one bound, or two with whether the lower and the upper one belong to the range. -/
inductive RangesOperator
  | one (c : Comparator)
  | two (lower upper : Bool)
  deriving DecidableEq

/-- `ranges` and `ranges_op` of the search hash. -/
structure RangesQuery where
  ranges : List Bytes
  operator : Option RangesOperator
  deriving DecidableEq

/-- Two operators that make a range with two bounds, and whether the upper one comes first. -/
def pairOf : Comparator → Comparator → Option (Bool × RangesOperator)
  | .less, .greater => some (true, .two false false)
  | .lessEqual, .greater => some (true, .two false true)
  | .lessEqual, .greaterEqual => some (true, .two true true)
  | .less, .greaterEqual => some (true, .two true false)
  | .greater, .less => some (false, .two false false)
  | .greaterEqual, .less => some (false, .two true false)
  | .greaterEqual, .lessEqual => some (false, .two true true)
  | .greater, .lessEqual => some (false, .two false true)
  | _, _ => none

/-- The entry of a variable goes into the search hash, by its first two operators; `none` is the return. -/
def combineRange (q : RangesQuery) (e : Collected) : Option RangesQuery :=
  let vals := e.map Prod.snd
  match e with
  | [] => none
  | c :: rest =>
    match rest.head?.bind fun d => pairOf c.1 d.1 with
    | some (reversed, operator) => some ⟨q.ranges ++ (if reversed then vals.reverse else vals), some operator⟩
    | none => some ⟨q.ranges ++ vals, some (.one c.1)⟩

/-- `foreach my $key ( keys %ranges )`, for the entries in the order of the hash. -/
def combineRanges : RangesQuery → List (Bytes × Collected) → Option RangesQuery
  | q, [] => some q
  | q, e :: entries => (combineRange q e.2).bind fun q => combineRanges q entries

/-! ## What the store makes of it -/

/-- Which texts are read as an integer, a double or a date, and what a single comparison means. -/
structure RangeReading where
  reads : Fin 3 → Bytes → Bool
  test : Comparator → Bytes → Node → Prop

/-- The first kind that reads a text. -/
def RangeReading.kind (R : RangeReading) (s : Bytes) : Option (Fin 3) := [0, 1, 2].find? (R.reads · s)

/-- The range that is searched: a bound that is empty or 0 is not handed over, two bounds are of one kind, and `none`
is the error of a search. -/
def RangesQuery.meaning (R : RangeReading) (q : RangesQuery) : Option (Node → Prop) :=
  match q.ranges.filter isTrueText with
  | [] => some fun _ => True
  | a :: rest =>
    (R.kind a).bind fun kind =>
      match q.operator with
      | none => none
      | some (.one c) => some (R.test c a)
      | some (.two lower upper) =>
        match rest with
        | [] => none
        | b :: _ =>
          if R.reads kind b then
            some fun n => R.test (if lower then .greaterEqual else .greater) a n ∧
              R.test (if upper then .lessEqual else .less) b n
          else none

/-! ## What was asked for -/

/-- The value of a variable of a triple pattern in a statement: the one at its last position. -/
def valueOf (parts : List Bytes) (f : Fact) (v : Bytes) : Option Node :=
  (parts.zipIdx.reverse.find? fun e => e.1 = v).bind fun e => f.part e.2

/-- The statement satisfies a comparison. -/
def Satisfies (R : RangeReading) (ops : Bytes) (parts : List Bytes) (f : Fact) (c : Comparison) : Prop :=
  ∀ v o s, sided ops parts c = some (v, some (o, s)) → ∃ n ∈ valueOf parts f v, R.test o s n

/-- In whatever order the hash is, the search is refused or finds exactly what satisfies the comparisons. -/
def RangesDescribe (R : RangeReading) (ops : Bytes) (parts : List Bytes) (comparisons : List Comparison) : Prop :=
  ∀ entries, entries.Perm (collectRanges ops parts comparisons) → ∀ q, combineRanges ⟨[], none⟩ entries = some q →
    ∀ m, q.meaning R = some m → ∀ f : Fact, m f.object ↔ ∀ c ∈ comparisons, Satisfies R ops parts f c

end RdfStore.Query
