import RdfStore.Query.Constraints
import RdfStore.Externals
import RdfStore.Lib.Streams

/-!
# Fetching rows (`_each`, `_each_distinct` and `fetchrow_arrayref` of `DBD/RDFStore.pm`)

The matching machine is a parameter.  It answers one result after the other; a
result without variables is the end.  The loops are run through `fuel` times at
most, and `none` is a loop that goes on.
-/

namespace RdfStore.Query

open ByteMem

/-! ## Results and rows -/

/-- `$sth->{'result'}`: the variables, of which one may be there and have no value. -/
abbrev Result := List (Bytes × Option Node)

abbrev Row := List (Option Node)

/-- What constraints see of a result. -/
def Result.binding {P : Perl} (r : Result) : Binding P := fun v => (r.lookup v).map fun n => n.elim .undef .node

/-- The values of the columns. -/
def Result.row (columns : List Bytes) (r : Result) : Row := columns.map fun v => (r.lookup v).join

/-- `_result_digest`: where `$digest` is true, the next digest takes its place. -/
def resultDigest (digest : Node → Digest) (row : Row) : Option Bytes :=
  row.foldl (fun d n =>
    match n with
    | none => d
    | some n => if isTrueText (d.getD []) then some (digest n).toList else some (d.getD [] ++ (digest n).toList)) none

/-- The key under which a row is kept. -/
def resultKey (digest : Node → Digest) (row : Row) : Bytes := (resultDigest digest row).getD []

/-! ## The statement handle -/

/-- What is asked for; rows without columns cannot be fetched with DBI. -/
structure Select where
  distinct : Bool
  limit : Option ℕ
  offset : Option ℕ
  /-- an expression and its direction -/
  orderBy : List Bytes
  columns : List Bytes
  column : columns ≠ []

/-- `$sth`, with the machine that matches. -/
structure Handle (σ : Type) where
  source : σ
  /-- `result_cache`, with `undef` at the end -/
  cache : List (Option Result)
  /-- `total_matches` -/
  total : ℕ
  /-- `previous_results` -/
  previous : List Bytes
  /-- `order_by`, from which the direction is popped -/
  orderBy : List Bytes

/-- `execute` -/
def execute {σ : Type} (q : Select) (source : σ) : Handle σ := ⟨source, [], 0, [], q.orderBy⟩

section

variable {σ : Type} (P : Perl) (digest : Node → Digest) (next : σ → Result × σ) (q : Select)

/-- `_each` -/
def each (s : Handle σ) : Result × Handle σ :=
  match s.cache with
  | r :: cache => (r.getD [], { s with cache })
  | [] => ((next s.source).1, { s with source := (next s.source).2 })

/-- The rows that were there before are passed over. -/
def purge : ℕ → Result → Handle σ → Option (Result × Handle σ)
  | n, r, s =>
    if r ≠ [] ∧ resultKey digest (r.row q.columns) ∈ s.previous then
      match n with
      | 0 => none
      | n + 1 => purge n (each next s).1 (each next s).2
    else some (r, s)

/-- `_each_distinct` -/
def eachDistinct (fuel : ℕ) (s : Handle σ) : Option (Result × Handle σ) :=
  if q.distinct = true ∧ s.previous ≠ [] then purge digest next q fuel (each next s).1 (each next s).2
  else some (each next s)

/-- `while( my $r = _each_distinct( $sth ) )` -/
def collect (fuel : ℕ) : ℕ → List Result → Handle σ → Option (List Result × Handle σ)
  | n, all, s =>
    (eachDistinct digest next q fuel s).bind fun t =>
      if t.1 = [] then some (all, t.2)
      else
        match n with
        | 0 => none
        | n + 1 => collect fuel n (all ++ [t.1]) t.2

/-- What the results are sorted by. -/
def orderKey (orderBy : List Bytes) (r : Result) : Bytes := (eval (P := P) r.binding orderBy).string

/-- `sort { … cmp … }`, and `reverse` for `DESC`. -/
def sortResults (orderBy : List Bytes) (direction : Option Bytes) (all : List Result) : List Result :=
  let sorted := all.mergeSort fun a b => decide (orderKey P orderBy a ≤ orderKey P orderBy b)
  if direction = some (ascii "DESC") then sorted.reverse else sorted

/-- All results are fetched and sorted when the cache is empty. -/
def prefetch (fuel : ℕ) (s : Handle σ) : Option (Handle σ) :=
  if s.orderBy ≠ [] ∧ s.cache = [] then
    (collect digest next q fuel fuel [] s).map fun t =>
      let orderBy := t.2.orderBy.dropLast
      { t.2 with cache := (sortResults P orderBy t.2.orderBy.getLast? t.1).map some ++ [none], orderBy }
  else some s

/-- The rows up to the offset are passed over. -/
def fetchLoop (fuel : ℕ) : ℕ → Handle σ → Option (Result × Handle σ)
  | n, s =>
    (prefetch P digest next q fuel s).bind fun s =>
      (eachDistinct digest next q fuel s).bind fun t =>
        if t.1 = [] then some t
        else
          let s := { t.2 with total := t.2.total + 1 }
          if q.offset.getD 0 < s.total then some (t.1, s)
          else
            match n with
            | 0 => none
            | n + 1 => fetchLoop fuel n s

/-- `fetchrow_arrayref` -/
def fetchrow (fuel : ℕ) (s : Handle σ) : Option (Option Row × Handle σ) :=
  if ∃ n ∈ q.limit, ¬s.total < n then some (none, s)
  else
    (fetchLoop P digest next q fuel fuel s).map fun t =>
      if t.1 = [] then (none, t.2)
      else (some (t.1.row q.columns), { t.2 with previous := resultKey digest (t.1.row q.columns) :: t.2.previous })

/-- The rows of successive calls, up to the first `undef`. -/
def Fetches (s : Handle σ) (rows : List Row) : Prop :=
  ∃ n, ∀ fuel ≥ n, Streams.Yields (fetchrow P digest next q fuel) s rows

/-- The machine answers these results, and then an empty one. -/
def Matches (source : σ) (results : List Result) : Prop :=
  Streams.Yields (fun s => some (if (next s).1 = [] then none else some (next s).1, (next s).2)) source results

end

end RdfStore.Query
