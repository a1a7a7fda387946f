import RdfStore.FetchObject

/-!
# Going through an iterator (`rdfstore_iterator.c`)

An iterator holds a bitmap of statement ids, the number of the ids, and where it
stands: a counter and a position in the bitmap.  `first` and `next` leave the
position at the statement they return, `each` leaves it one behind; the counter
is the number of statements that are done with.  The two loops a caller writes
end on the counter, and take the statements from the position.

    for (s = first; hasnext; s = next)    the statements of the ids, in ascending order   (forStatements_first)
    while ((s = each) != NULL)            the same, and then again the same               (eachStatements_start)
    while ((s = each) != NULL) anywhere   ends, and the iterator stands at its start      (eachStatements_ends)
-/

namespace RdfStore

open ByteMem

/-! ## Ids in ascending order -/

/-- The ids from a position on, in ascending order. -/
def ascendingFrom (s : Finset Nat) (pos : Nat) : List Nat := (s.filter (pos ≤ ·)).sort

theorem ascendingFrom_zero (s : Finset Nat) : ascendingFrom s 0 = s.sort := by
  unfold ascendingFrom
  rw [Finset.filter_true_of_mem fun i _ => Nat.zero_le i]

theorem length_ascendingFrom (s : Finset Nat) (pos : Nat) :
    (ascendingFrom s pos).length = (s.filter (pos ≤ ·)).card := Finset.length_sort _

theorem ascendingFrom_eq_nil {s : Finset Nat} {pos : Nat} (h : ∀ q ∈ s, q < pos) : ascendingFrom s pos = [] := by
  unfold ascendingFrom
  rw [Finset.filter_false_of_mem fun q hq => not_le.2 (h q hq), Finset.sort_empty]

/-- The first id from a position on, and those behind it. -/
theorem ascendingFrom_ones {size : Nat} {bits : Buf} {pos p : Nat} (hmem : p ∈ ones size bits) (hle : pos ≤ p)
    (hfirst : ∀ q ∈ ones size bits, pos ≤ q → p ≤ q) :
    ascendingFrom (ones size bits) pos = p :: ascendingFrom (ones size bits) (p + 1) := by
  have hnot : p ∉ (ones size bits).filter (p + 1 ≤ ·) := fun h => by
    have := (Finset.mem_filter.1 h).2
    omega
  have hmin : ∀ q ∈ (ones size bits).filter (p + 1 ≤ ·), p ≤ q := fun q hq => by
    have := (Finset.mem_filter.1 hq).2
    omega
  unfold ascendingFrom
  rw [filter_ones_eq_insert hmem hle hfirst, Finset.sort_insert _ hmin hnot]

/-! ## Where an iterator stands -/

/-- `rdfstore_iterator`: what it holds, the pointer to its store, and where it stands. -/
structure Cursor extends Iterator where
  store : Nat
  stCounter : Nat
  pos : Nat

/-- An iterator as it is handed out. -/
def Cursor.start (it : Iterator) (store : Nat) : Cursor := { it with store, stCounter := 0, pos := 0 }

/-- "reset and return undef" -/
def Cursor.reset (me : Cursor) : Cursor := { me with stCounter := 0, pos := 0 }

/-- The position moves to the first id from `pos` on. -/
def Cursor.seek (me : Cursor) (pos : Nat) : Cursor :=
  { me with pos := rdfstoreBitsGetfirstsetafter me.idsSize me.ids pos }

/-- The position is behind the last id. -/
def Cursor.AtEnd (me : Cursor) : Prop := 8 * me.idsSize ≤ me.pos

instance (me : Cursor) : Decidable me.AtEnd := inferInstanceAs (Decidable (_ ≤ _))

/-- `rdfstore_iterator_hasnext` -/
def rdfstoreIteratorHasnext (me : Cursor) : Bool := decide (me.stCounter < me.size)

section

variable (store : Store)

/-- `rdfstore_iterator_current` -/
def rdfstoreIteratorCurrent (me : Cursor) : Option Statement :=
  rdfstoreIteratorFetchStatement me.toIterator store me.pos

/-- `rdfstore_iterator_first` -/
def rdfstoreIteratorFirst (me : Cursor) : Cursor × Option Statement :=
  let me := { me with stCounter := 0 }.seek 0
  if me.AtEnd then (me, none) else (me, rdfstoreIteratorCurrent store me)

/-- `rdfstore_iterator_next` -/
def rdfstoreIteratorNext (me : Cursor) : Cursor × Option Statement :=
  let me := { me with stCounter := me.stCounter + 1 }.seek (me.pos + 1)
  if me.AtEnd then (me, none) else (me, rdfstoreIteratorCurrent store me)

/-- `rdfstore_iterator_each` -/
def rdfstoreIteratorEach (me : Cursor) : Cursor × Option Statement :=
  if ¬ rdfstoreIteratorHasnext me then (me.reset, none)
  else
    let me := me.seek me.pos
    if me.AtEnd then (me.reset, none)
    else
      match rdfstoreIteratorCurrent store me with
      | none => (me.reset, none)
      | some s => ({ me with stCounter := me.stCounter + 1, pos := me.pos + 1 }, some s)

/-! ## The two loops -/

/-- `for (…; hasnext; s = next)`: what its body sees, and the iterator afterwards; `none` when the
fuel is used up. -/
def forStatements : Nat → Cursor × Option Statement → Option (List (Option Statement) × Cursor)
  | 0, _ => none
  | fuel + 1, r =>
    if rdfstoreIteratorHasnext r.1 then
      (forStatements fuel (rdfstoreIteratorNext store r.1)).map fun x => (r.2 :: x.1, x.2)
    else some ([], r.1)

/-- `while ((s = each) != NULL)` -/
def eachStatements : Nat → Cursor → Option (List Statement × Cursor)
  | 0, _ => none
  | fuel + 1, me =>
    match rdfstoreIteratorEach store me with
    | (me, none) => some ([], me)
    | (me, some s) => (eachStatements fuel me).map fun x => (s :: x.1, x.2)

/-- The statements of an iterator's ids from a position on, in ascending order. -/
def Iterator.statementsFrom (it : Iterator) (pos : Nat) : List (Option Statement) :=
  (ascendingFrom it.found pos).map (rdfstoreIteratorFetchStatement it store)

/-- The statements of an iterator's ids, in ascending order. -/
def Iterator.statements (it : Iterator) : List (Option Statement) :=
  it.found.sort.map (rdfstoreIteratorFetchStatement it store)

end

/-! ## Moving the position -/

section

variable {store : Store}

@[simp] theorem Cursor.seek_toIterator (me : Cursor) (pos : Nat) : (me.seek pos).toIterator = me.toIterator := rfl

@[simp] theorem Cursor.seek_stCounter (me : Cursor) (pos : Nat) : (me.seek pos).stCounter = me.stCounter := rfl

@[simp] theorem Cursor.reset_toIterator (me : Cursor) : me.reset.toIterator = me.toIterator := rfl

theorem Iterator.statementsFrom_zero (it : Iterator) : it.statementsFrom store 0 = it.statements store := by
  unfold Iterator.statementsFrom Iterator.statements
  rw [ascendingFrom_zero]

/-- The position moves to an id, or there is none from there on. -/
theorem Cursor.seek_cases (me : Cursor) (pos : Nat) :
    ((me.seek pos).AtEnd ∧ ∀ q ∈ me.found, q < pos) ∨
      (¬ (me.seek pos).AtEnd ∧ (me.seek pos).pos ∈ me.found ∧ pos ≤ (me.seek pos).pos ∧
        ascendingFrom me.found pos = (me.seek pos).pos :: ascendingFrom me.found ((me.seek pos).pos + 1)) := by
  obtain ⟨hin, hout⟩ := rdfstoreBitsGetfirstsetafter_spec me.idsSize me.ids pos
  by_cases hend : (me.seek pos).AtEnd
  · have hle : me.idsSize * 8 ≤ rdfstoreBitsGetfirstsetafter me.idsSize me.ids pos := by
      rw [Nat.mul_comm]
      exact hend
    exact Or.inl ⟨hend, hout hle⟩
  · have hlt : rdfstoreBitsGetfirstsetafter me.idsSize me.ids pos < me.idsSize * 8 := by
      rw [Nat.mul_comm]
      exact not_le.1 hend
    obtain ⟨hmem, hle, hfirst⟩ := hin hlt
    exact Or.inr ⟨hend, hmem, hle, ascendingFrom_ones hmem hle hfirst⟩

/-- Nothing in the record but the counter and the position decides what is fetched. -/
theorem rdfstoreIteratorCurrent_seek (me : Cursor) (pos : Nat) : rdfstoreIteratorCurrent store (me.seek pos) =
    rdfstoreIteratorFetchStatement me.toIterator store (me.seek pos).pos := rfl

/-- `next`: behind the last id it returns NULL, else the first statement behind the position. -/
theorem rdfstoreIteratorNext_cases (me : Cursor) :
    (rdfstoreIteratorNext store me).1.toIterator = me.toIterator ∧
      (rdfstoreIteratorNext store me).1.stCounter = me.stCounter + 1 ∧
      ((ascendingFrom me.found (me.pos + 1) = [] ∧ (rdfstoreIteratorNext store me).2 = none) ∨
        ascendingFrom me.found (me.pos + 1) = (rdfstoreIteratorNext store me).1.pos ::
            ascendingFrom me.found ((rdfstoreIteratorNext store me).1.pos + 1) ∧
          (rdfstoreIteratorNext store me).2 =
            rdfstoreIteratorFetchStatement me.toIterator store (rdfstoreIteratorNext store me).1.pos) := by
  unfold rdfstoreIteratorNext
  rcases ({ me with stCounter := me.stCounter + 1 } : Cursor).seek_cases (me.pos + 1) with
    ⟨hend, hnone⟩ | ⟨hmore, -, -, hcons⟩
  · simp only [if_pos hend]
    exact ⟨rfl, rfl, Or.inl ⟨ascendingFrom_eq_nil hnone, trivial⟩⟩
  · simp only [if_neg hmore]
    exact ⟨rfl, rfl, Or.inr ⟨hcons, rfl⟩⟩

/-- `first` is `next` from before the first id. -/
theorem rdfstoreIteratorFirst_cases (me : Cursor) :
    (rdfstoreIteratorFirst store me).1.toIterator = me.toIterator ∧
      (rdfstoreIteratorFirst store me).1.stCounter = 0 ∧
      ((ascendingFrom me.found 0 = [] ∧ (rdfstoreIteratorFirst store me).2 = none) ∨
        ascendingFrom me.found 0 = (rdfstoreIteratorFirst store me).1.pos ::
            ascendingFrom me.found ((rdfstoreIteratorFirst store me).1.pos + 1) ∧
          (rdfstoreIteratorFirst store me).2 =
            rdfstoreIteratorFetchStatement me.toIterator store (rdfstoreIteratorFirst store me).1.pos) := by
  unfold rdfstoreIteratorFirst
  rcases ({ me with stCounter := 0 } : Cursor).seek_cases 0 with ⟨hend, hnone⟩ | ⟨hmore, -, -, hcons⟩
  · simp only [if_pos hend]
    exact ⟨rfl, rfl, Or.inl ⟨ascendingFrom_eq_nil hnone, trivial⟩⟩
  · simp only [if_neg hmore]
    exact ⟨rfl, rfl, Or.inr ⟨hcons, rfl⟩⟩

/-- `each` over ids that can be fetched: at the end, by the counter or by the bitmap, it resets and
returns NULL; else it returns the first statement from the position on and goes behind it. -/
theorem rdfstoreIteratorEach_cases {me : Cursor}
    (hfetch : ∀ i ∈ me.found, (rdfstoreIteratorFetchStatement me.toIterator store i).isSome) :
    ((me.size ≤ me.stCounter ∨ ascendingFrom me.found me.pos = []) ∧
        rdfstoreIteratorEach store me = (me.reset, none)) ∨
      ∃ p s, me.stCounter < me.size ∧
        ascendingFrom me.found me.pos = p :: ascendingFrom me.found (p + 1) ∧
        rdfstoreIteratorFetchStatement me.toIterator store p = some s ∧
        rdfstoreIteratorEach store me = ({ me with stCounter := me.stCounter + 1, pos := p + 1 }, some s) := by
  unfold rdfstoreIteratorEach
  by_cases hnext : me.stCounter < me.size
  · have hhas : ¬ ¬ rdfstoreIteratorHasnext me = true := by simpa [rdfstoreIteratorHasnext] using hnext
    rw [if_neg hhas]
    rcases me.seek_cases me.pos with ⟨hend, hnone⟩ | ⟨hmore, hmem, -, hcons⟩
    · simp only [if_pos hend]
      exact Or.inl ⟨Or.inr (ascendingFrom_eq_nil hnone), rfl⟩
    · obtain ⟨s, hs⟩ := Option.isSome_iff_exists.1 (hfetch _ hmem)
      simp only [if_neg hmore, rdfstoreIteratorCurrent_seek, hs]
      exact Or.inr ⟨_, s, hnext, hcons, hs, rfl⟩
  · have hhas : ¬ rdfstoreIteratorHasnext me = true := by simpa [rdfstoreIteratorHasnext] using hnext
    rw [if_pos hhas]
    exact Or.inl ⟨Or.inl (not_lt.1 hnext), rfl⟩

/-! ## The loops -/

theorem forStatements_end {fuel : Nat} {r : Cursor × Option Statement} (h : r.1.size ≤ r.1.stCounter) :
    forStatements store (fuel + 1) r = some ([], r.1) := by
  have hhas : ¬ rdfstoreIteratorHasnext r.1 = true := by simpa [rdfstoreIteratorHasnext] using h
  rw [forStatements, if_neg hhas]

theorem forStatements_step {fuel : Nat} {r : Cursor × Option Statement} (h : r.1.stCounter < r.1.size) :
    forStatements store (fuel + 1) r =
      (forStatements store fuel (rdfstoreIteratorNext store r.1)).map fun x => (r.2 :: x.1, x.2) := by
  have hhas : rdfstoreIteratorHasnext r.1 = true := by simpa [rdfstoreIteratorHasnext] using h
  rw [forStatements, if_pos hhas]

/-- The loop with a statement in hand: the counter counts the statements before it, and behind the
position are the ids still to come. -/
theorem forStatements_rest (l : List Nat) (me : Cursor) (s : Option Statement) (fuel : Nat)
    (hl : ascendingFrom me.found (me.pos + 1) = l) (hcount : me.stCounter + 1 + l.length = me.size)
    (hfuel : l.length + 1 < fuel) :
    ∃ me', forStatements store fuel (me, s) =
        some (s :: l.map (rdfstoreIteratorFetchStatement me.toIterator store), me') ∧
      me'.toIterator = me.toIterator ∧ rdfstoreIteratorHasnext me' = false := by
  induction l generalizing me s fuel with
  | nil =>
    obtain ⟨fuel, rfl⟩ : ∃ k, fuel = k + 2 := ⟨fuel - 2, by simp at hfuel; omega⟩
    rw [List.length_nil] at hcount
    obtain ⟨hit, hcounter, hcase⟩ := @rdfstoreIteratorNext_cases store me
    have hsize : (rdfstoreIteratorNext store me).1.size = me.size := by rw [hit]
    have hend : (rdfstoreIteratorNext store me).2 = none ∧
        (rdfstoreIteratorNext store me).1.size ≤ (rdfstoreIteratorNext store me).1.stCounter := by
      refine ⟨?_, by omega⟩
      rcases hcase with ⟨-, hnone⟩ | ⟨hcons, -⟩
      · exact hnone
      · rw [hl] at hcons
        cases hcons
    rw [forStatements_step (by show me.stCounter < me.size; omega), forStatements_end hend.2]
    refine ⟨_, rfl, hit, ?_⟩
    simpa [rdfstoreIteratorHasnext] using hend.2
  | cons p l ih =>
    obtain ⟨fuel, rfl⟩ : ∃ k, fuel = k + 1 := ⟨fuel - 1, by omega⟩
    rw [List.length_cons] at hcount hfuel
    obtain ⟨hit, hcounter, hcase⟩ := @rdfstoreIteratorNext_cases store me
    rcases hcase with ⟨hnil, -⟩ | ⟨hcons, hs⟩
    · rw [hl] at hnil
      cases hnil
    · rw [hl] at hcons
      obtain ⟨hp, hrest⟩ := List.cons.inj hcons
      have hfound : (rdfstoreIteratorNext store me).1.found = me.found := by rw [hit]
      have hsize : (rdfstoreIteratorNext store me).1.size = me.size := by rw [hit]
      obtain ⟨me', hrun, hit', hend⟩ := ih (rdfstoreIteratorNext store me).1
        (rdfstoreIteratorNext store me).2 fuel (by rw [hfound]; exact hrest.symm)
        (by rw [hcounter, hsize]; omega) (by omega)
      rw [forStatements_step (by show me.stCounter < me.size; omega)]
      refine ⟨me', ?_, hit'.trans hit, hend⟩
      rw [hrun, hs, ← hp, hit]
      rfl

/-- The loop of `first` and `next`, from wherever the iterator stood. -/
theorem forStatements_first {me : Cursor} (hsize : me.size = me.found.card) {fuel : Nat}
    (hfuel : me.size + 1 < fuel) :
    ∃ me', forStatements store fuel (rdfstoreIteratorFirst store me) =
        some (me.toIterator.statements store, me') ∧
      me'.toIterator = me.toIterator ∧ rdfstoreIteratorHasnext me' = false := by
  have hlen : (ascendingFrom me.found 0).length = me.size := by
    rw [length_ascendingFrom, Finset.filter_true_of_mem fun i _ => Nat.zero_le i, hsize]
  rw [← Iterator.statementsFrom_zero, Iterator.statementsFrom]
  obtain ⟨hit, hcounter, hcase⟩ := @rdfstoreIteratorFirst_cases store me
  have hfound : (rdfstoreIteratorFirst store me).1.found = me.found := by rw [hit]
  have hsame : (rdfstoreIteratorFirst store me).1.size = me.size := by rw [hit]
  rcases hcase with ⟨hnil, -⟩ | ⟨hcons, hs⟩
  · -- there are no ids
    obtain ⟨fuel, rfl⟩ : ∃ k, fuel = k + 1 := ⟨fuel - 1, by omega⟩
    rw [hnil, List.length_nil] at hlen
    have hend : (rdfstoreIteratorFirst store me).1.size ≤ (rdfstoreIteratorFirst store me).1.stCounter := by
      omega
    rw [forStatements_end hend, hnil]
    refine ⟨_, rfl, hit, ?_⟩
    simpa [rdfstoreIteratorHasnext] using hend
  · rw [hcons, List.length_cons] at hlen
    obtain ⟨me', hrun, hit', hend⟩ := forStatements_rest
      (ascendingFrom me.found ((rdfstoreIteratorFirst store me).1.pos + 1))
      (rdfstoreIteratorFirst store me).1 (rdfstoreIteratorFirst store me).2 fuel
      (by rw [hfound]) (by rw [hcounter, hsame]; omega) (by omega)
    refine ⟨me', ?_, hit'.trans hit, hend⟩
    rw [hcons, List.map_cons, ← hs, ← hit, hfound]
    exact hrun

/-- The loop of `each`: as long as the counter leaves room for them, the statements of the ids from
the position on; then the iterator stands at its start. -/
theorem eachStatements_rest (me : Cursor)
    (hfetch : ∀ i ∈ me.found, (rdfstoreIteratorFetchStatement me.toIterator store i).isSome) (l : List Nat)
    (hl : ascendingFrom me.found me.pos = l) (hcount : me.stCounter + l.length = me.size) (fuel : Nat)
    (hfuel : l.length < fuel) :
    ∃ sts : List Statement, eachStatements store fuel me = some (sts, me.reset) ∧
      sts.map some = l.map (rdfstoreIteratorFetchStatement me.toIterator store) := by
  induction l generalizing me fuel with
  | nil =>
    obtain ⟨fuel, rfl⟩ : ∃ k, fuel = k + 1 := ⟨fuel - 1, by simp at hfuel; omega⟩
    rcases rdfstoreIteratorEach_cases hfetch with ⟨-, heach⟩ | ⟨p, s, -, hcons, -, -⟩
    · exact ⟨[], by rw [eachStatements, heach], rfl⟩
    · rw [hl] at hcons
      cases hcons
  | cons p l ih =>
    obtain ⟨fuel, rfl⟩ : ∃ k, fuel = k + 1 := ⟨fuel - 1, by omega⟩
    rw [List.length_cons] at hcount hfuel
    rcases rdfstoreIteratorEach_cases hfetch with ⟨hend, -⟩ | ⟨p', s, hlt, hcons, hs, heach⟩
    · rcases hend with hend | hend
      · omega
      · rw [hl] at hend
        cases hend
    · rw [hl] at hcons
      obtain ⟨hp, hrest⟩ := List.cons.inj hcons
      obtain ⟨sts, hrun, hsts⟩ := ih { me with stCounter := me.stCounter + 1, pos := p' + 1 } hfetch
        hrest.symm (by show me.stCounter + 1 + l.length = me.size; omega) fuel (by omega)
      refine ⟨s :: sts, ?_, ?_⟩
      · rw [eachStatements, heach]
        simp only [hrun]
        rfl
      · rw [List.map_cons, List.map_cons, hsts, hp, hs]

/-- The loop of `each` from wherever the iterator stands: it ends, and the iterator stands at its
start. -/
theorem eachStatements_ends (me : Cursor)
    (hfetch : ∀ i ∈ me.found, (rdfstoreIteratorFetchStatement me.toIterator store i).isSome) {fuel : Nat}
    (hfuel : me.size - me.stCounter < fuel) :
    ∃ sts, eachStatements store fuel me = some (sts, me.reset) := by
  induction fuel generalizing me with
  | zero => exact absurd hfuel (Nat.not_lt_zero _)
  | succ fuel ih =>
    rcases rdfstoreIteratorEach_cases hfetch with ⟨-, heach⟩ | ⟨p, s, hlt, -, -, heach⟩
    · exact ⟨[], by rw [eachStatements, heach]⟩
    · obtain ⟨sts, hrun⟩ := ih { me with stCounter := me.stCounter + 1, pos := p + 1 } hfetch
        (by show me.size - (me.stCounter + 1) < fuel; omega)
      refine ⟨s :: sts, ?_⟩
      rw [eachStatements, heach]
      simp only [hrun]
      rfl

/-- The loop of `each` over an iterator that stands at its start. -/
theorem eachStatements_start (me : Cursor) (hsize : me.size = me.found.card)
    (hfetch : ∀ i ∈ me.found, (rdfstoreIteratorFetchStatement me.toIterator store i).isSome)
    (hstart : me.reset = me) (fuel : Nat) (hfuel : me.size < fuel) :
    ∃ sts : List Statement, eachStatements store fuel me = some (sts, me) ∧
      sts.map some = me.toIterator.statements store := by
  have hcounter : me.stCounter = 0 := by rw [← hstart]; rfl
  have hpos : me.pos = 0 := by rw [← hstart]; rfl
  have hlen : (ascendingFrom me.found 0).length = me.size := by
    rw [ascendingFrom_zero, Finset.length_sort, hsize]
  rw [← Iterator.statementsFrom_zero, Iterator.statementsFrom]
  have hrest := eachStatements_rest me hfetch (ascendingFrom me.found 0) (by rw [hpos]) (by omega)
    fuel (by omega)
  rwa [hstart] at hrest

end

/-- Of any iterator that counts its ids, all of which can be fetched, whatever is in its buffer behind
the ids: from any state the loop of `first` and `next` sees the statements of the ids in ascending
order; the loop of `each` returns them from the start; and wherever it begins it ends at the start,
so that the next one returns them all. -/
theorem iteration_visits (store : Store) (it : Iterator) (hsize : it.size = it.found.card)
    (hfetch : ∀ i ∈ it.found, (rdfstoreIteratorFetchStatement it store i).isSome) :
    (∀ me : Cursor, me.toIterator = it → ∀ fuel, it.size + 1 < fuel →
      ∃ me', forStatements store fuel (rdfstoreIteratorFirst store me) = some (it.statements store, me') ∧
        rdfstoreIteratorHasnext me' = false) ∧
    ∃ sts : List Statement, sts.map some = it.statements store ∧
      (∀ ptr fuel, it.size < fuel →
        eachStatements store fuel (Cursor.start it ptr) = some (sts, Cursor.start it ptr)) ∧
      ∀ me : Cursor, me.toIterator = it → ∀ fuel, it.size < fuel →
        (∃ l, eachStatements store fuel me = some (l, me.reset)) ∧
          eachStatements store fuel me.reset = some (sts, me.reset) := by
  have hend : ∀ me : Cursor, me.toIterator = it → ∀ fuel, it.size < fuel →
      eachStatements store fuel me.reset = some ((it.statements store).filterMap id, me.reset) := by
    rintro me rfl fuel hfuel
    obtain ⟨sts, hrun, hsts⟩ := eachStatements_start me.reset hsize hfetch rfl fuel hfuel
    have hlist : (me.toIterator.statements store).filterMap id = sts := by
      rw [← Cursor.reset_toIterator, ← hsts]
      simp
    rw [hrun, hlist]
  obtain ⟨sts, -, hsts⟩ := eachStatements_start (Cursor.start it 0) hsize hfetch rfl
    (it.size + 1) (Nat.lt_succ_self _)
  have hlist : (it.statements store).filterMap id = sts := by
    have hsame : (Cursor.start it 0).toIterator = it := rfl
    rw [hsame] at hsts
    rw [← hsts]
    simp
  rw [hlist] at hend
  refine ⟨?_, sts, hsts, fun ptr fuel hfuel => hend (Cursor.start it ptr) rfl fuel hfuel, ?_⟩
  · rintro me rfl fuel hfuel
    obtain ⟨me', hrun, -, hstop⟩ := forStatements_first hsize hfuel
    exact ⟨me', hrun, hstop⟩
  · rintro me rfl fuel hfuel
    exact ⟨eachStatements_ends me hfetch (by omega), hend me rfl fuel hfuel⟩

/-- A store with the record of one statement, under the id 3. -/
def storeOfRecord : Store :=
  { rdfstoreConnect false false [] with
    nodes := rdfstoreFlatStoreStore ∅ (packInt 3)
      (statementRecord ⟨uri 97, uri 98, .resource (uri 99)⟩ (triple (uri 97) (uri 98) (.resource (uri 99))) none) }

/-- An iterator with that id, and with bits behind its last byte. -/
def oneId : Iterator := ⟨fun k => if k = 0 then 8 else 255, 1, 1⟩

theorem iteration_visits_oneId :
    oneId.size = oneId.found.card ∧
      (∀ i ∈ oneId.found, (rdfstoreIteratorFetchStatement oneId storeOfRecord i).isSome) ∧
      ∃ sts : List Statement, sts.map some = oneId.statements storeOfRecord ∧ sts.length = 1 ∧
        eachStatements storeOfRecord 2 (Cursor.start oneId 0) = some (sts, Cursor.start oneId 0) := by
  have hsize : oneId.size = oneId.found.card := by decide
  have hfetch : ∀ i ∈ oneId.found, (rdfstoreIteratorFetchStatement oneId storeOfRecord i).isSome := by
    decide
  obtain ⟨-, sts, hsts, heach, -⟩ := iteration_visits storeOfRecord oneId hsize hfetch
  refine ⟨hsize, hfetch, sts, hsts, ?_, heach 0 2 (by decide)⟩
  have hlen := congrArg List.length hsts
  rw [List.length_map] at hlen
  rw [hlen, Iterator.statements, List.length_map, Finset.length_sort, ← hsize]
  rfl

end RdfStore
