import RdfStore.LiveIds
import RdfStore.SearchRanges

/-!
# Taking statements out of an iterator (`rdfstore_iterator_remove`)

`remove` clears the bit at the position of the iterator.  After `first` and
`next` that is the statement they returned; after `each` it is the id behind it,
after the end of a loop of `each` it is the id 0, and at the end of the bitmap
there is nothing to clear, or the process ends.  A bit that was not set is left
alone, and so is the size.

    the size is the number of ids in every run                                  (walk_counted)
    every remove of a run takes out the statement last returned
      ↔ at each of them the position is at that statement, or neither is there  (removal_iff)
-/

namespace RdfStore

open ByteMem

/-! ## `remove` -/

/-- `rdfstore_iterator_remove`: the iterator and the answer; `none` when the process ends on a
position that is too large. -/
def rdfstoreIteratorRemove (me : Cursor) : Option (Cursor × Int) :=
  match rdfstoreBitsSetmask me.idsSize me.ids me.pos 1 0 maxRecordsBytesSize with
  | none => none
  | some (idsSize, ids, change) =>
    -- nothing changed, but the bitmap may have grown
    if change = 0 then some ({ me with idsSize, ids }, 0)
    else
      -- `size` is unsigned
      let size := if me.size = 0 then 2 ^ 32 - 1 else me.size - 1
      some ({ me with ids, size, idsSize := rdfstoreBitsShorten idsSize ids }, 1)

/-- The id at the position goes, if it is there. -/
theorem rdfstoreIteratorRemove_spec {me : Cursor} (hpos : me.pos < maxRecords) (hcount : me.Counted) :
    ∃ me' r, rdfstoreIteratorRemove me = some (me', r) ∧ me'.found = me.found.erase me.pos ∧ me'.Counted ∧
      me'.pos = me.pos ∧ me'.stCounter = me.stCounter ∧ (r = 1 ↔ me.pos ∈ me.found) := by
  obtain ⟨idsSize, ids, change, hset, -, -, hones, hchange⟩ :=
    rdfstoreBitsSetmask_bit me.idsSize maxRecordsBytesSize me.pos me.ids false (byte_lt_max hpos) STEP_dvd_max
  have hset0 : rdfstoreBitsSetmask me.idsSize me.ids me.pos 1 0 maxRecordsBytesSize =
      some (idsSize, ids, change) := hset
  have herase : ones idsSize ids = me.found.erase me.pos := hones
  have hsame : change = 0 ↔ me.pos ∉ me.found :=
    hchange.trans ⟨fun h hin => Bool.false_ne_true (h.1 hin),
      fun hout => ⟨fun hin => absurd hin hout, fun h => absurd h Bool.false_ne_true⟩⟩
  unfold rdfstoreIteratorRemove
  rw [hset0]
  by_cases hc : change = 0
  · have hout := hsame.1 hc
    refine ⟨_, 0, if_pos hc, herase, ?_, rfl, rfl, ?_⟩
    · show me.size = (ones idsSize ids).card
      rw [herase, Finset.erase_eq_of_notMem hout]
      exact hcount
    · exact ⟨fun h => absurd h (by decide), fun h => absurd h hout⟩
  · have hin : me.pos ∈ me.found := by
      by_contra hout
      exact hc (hsame.2 hout)
    have hshort : ones (rdfstoreBitsShorten idsSize ids) ids = me.found.erase me.pos :=
      (ones_rdfstoreBitsShorten _ _).trans herase
    refine ⟨_, 1, if_neg hc, hshort, ?_, rfl, rfl, ?_⟩
    · show (if me.size = 0 then 2 ^ 32 - 1 else me.size - 1) = (ones (rdfstoreBitsShorten idsSize ids) ids).card
      have hpositive : 0 < me.found.card := Finset.card_pos.2 ⟨_, hin⟩
      have hsize : me.size = me.found.card := hcount
      rw [hshort, Finset.card_erase_of_mem hin, if_neg (by omega), hsize]
    · exact ⟨fun _ => hin, fun _ => rfl⟩

/-- Behind the largest bitmap there is nothing to clear. -/
theorem rdfstoreIteratorRemove_exits {me : Cursor} (hpos : maxRecords ≤ me.pos) :
    rdfstoreIteratorRemove me = none := by
  have hbyte : maxRecordsBytesSize ≤ me.pos / 8 := (Nat.le_div_iff_mul_le (by decide)).2 hpos
  have hset : rdfstoreBitsSetmask me.idsSize me.ids me.pos 1 0 maxRecordsBytesSize = none := by
    unfold rdfstoreBitsSetmask
    rw [if_neg (by decide)]
    by_cases hgrow : me.idsSize ≤ me.pos / 8
    · have hstep : maxRecordsBytesSize < STEP * (1 + me.pos / 8 / STEP) := by
        simp only [STEP]
        omega
      rw [if_pos ⟨hgrow, hstep⟩]
    · rw [if_neg fun h => hgrow h.1]
      simp only [setmaskLoop, if_pos hbyte, Option.map_none]
  rw [rdfstoreIteratorRemove, hset]

/-! ## Calls on an iterator -/

/-- The calls; each finds the store in some state. -/
inductive WalkOp
  | first (store : Store)
  | next (store : Store)
  | each (store : Store)
  | remove

/-- An iterator and the id of the statement it returned last. -/
structure Walk where
  cursor : Cursor
  last : Option Nat

/-- A call came back with a statement, the one under `id`, or with NULL. -/
def Walk.returned (w : Walk) (r : Cursor × Option Statement) (id : Nat) : Walk :=
  ⟨r.1, if r.2.isSome then some id else w.last⟩

/-- One call; `none` when the process ends. -/
def Walk.step (w : Walk) : WalkOp → Option Walk
  | .first store =>
    let r := rdfstoreIteratorFirst store w.cursor
    some (w.returned r r.1.pos)
  | .next store =>
    let r := rdfstoreIteratorNext store w.cursor
    some (w.returned r r.1.pos)
  | .each store =>
    let r := rdfstoreIteratorEach store w.cursor
    -- the position is behind the statement
    some (w.returned r (r.1.pos - 1))
  | .remove => (rdfstoreIteratorRemove w.cursor).map fun r => ⟨r.1, w.last⟩

def Walk.run (w : Walk) : List WalkOp → Option Walk
  | [] => some w
  | op :: ops => (w.step op).bind fun w => w.run ops

/-- The ids without the one of the statement returned last. -/
def Walk.withoutLast (w : Walk) : Finset Nat := w.last.elim w.cursor.found w.cursor.found.erase

/-- At every point of the run the size is the number of ids; every call comes back; and every remove
takes out the statement returned last and no other. -/
def Walk.RunsRight (w : Walk) : List WalkOp → Prop
  | [] => w.cursor.Counted
  | op :: ops => w.cursor.Counted ∧ ∃ w', w.step op = some w' ∧
      (op = .remove → w'.cursor.found = w.withoutLast) ∧ w'.RunsRight ops

/-- The position is one that fits, and it is at the statement returned last, or neither that
statement is in the iterator any more nor the id at the position. -/
def Walk.AtLast (w : Walk) : Prop :=
  w.cursor.pos < maxRecords ∧
    (w.last = some w.cursor.pos ∨ (w.cursor.pos ∉ w.cursor.found ∧ ∀ id ∈ w.last, id ∉ w.cursor.found))

/-- So it is at every remove of the run. -/
def Walk.RunsAtLast (w : Walk) : List WalkOp → Prop
  | [] => True
  | op :: ops => (op = .remove → w.AtLast) ∧ ∀ w' ∈ w.step op, w'.RunsAtLast ops

/-! ## One call -/

section

variable {store : Store}

theorem rdfstoreIteratorEach_toIterator (me : Cursor) :
    (rdfstoreIteratorEach store me).1.toIterator = me.toIterator := by
  unfold rdfstoreIteratorEach
  split
  · rfl
  · simp only
    split
    · rfl
    · split <;> rfl

/-- Every call leaves an iterator that counts its ids. -/
theorem Walk.step_counted {w w' : Walk} {op : WalkOp} (h : w.step op = some w') (hcount : w.cursor.Counted) :
    w'.cursor.Counted := by
  have hsame {r : Cursor × Option Statement} (hr : r.1.toIterator = w.cursor.toIterator) : r.1.Counted := by
    unfold Iterator.Counted
    rw [hr]
    exact hcount
  cases op with
  | first store =>
    cases h
    exact hsame (rdfstoreIteratorFirst_cases w.cursor).1
  | next store =>
    cases h
    exact hsame (rdfstoreIteratorNext_cases w.cursor).1
  | each store =>
    cases h
    exact hsame (rdfstoreIteratorEach_toIterator w.cursor)
  | remove =>
    obtain ⟨r, hr, rfl⟩ := Option.map_eq_some_iff.1 h
    by_cases hpos : w.cursor.pos < maxRecords
    · obtain ⟨me', r', hr', -, hcount', -⟩ := rdfstoreIteratorRemove_spec hpos hcount
      rw [hr] at hr'
      cases hr'
      exact hcount'
    · rw [rdfstoreIteratorRemove_exits (not_lt.1 hpos)] at hr
      cases hr

end

theorem erase_eq_erase_iff {s : Finset Nat} {a b : Nat} :
    s.erase a = s.erase b ↔ b = a ∨ (a ∉ s ∧ b ∉ s) := by
  constructor
  · intro h
    by_cases ha : a ∈ s
    · exact Or.inl ((Finset.erase_inj s ha).1 h).symm
    · by_cases hb : b ∈ s
      · exact Or.inl ((Finset.erase_inj s hb).1 h.symm)
      · exact Or.inr ⟨ha, hb⟩
  · rintro (rfl | ⟨ha, hb⟩)
    · rfl
    · rw [Finset.erase_eq_of_notMem ha, Finset.erase_eq_of_notMem hb]

/-- Clearing the position takes out the last statement exactly when the position is at it. -/
theorem Walk.erase_pos_iff (w : Walk) : w.cursor.found.erase w.cursor.pos = w.withoutLast ↔
    w.last = some w.cursor.pos ∨ (w.cursor.pos ∉ w.cursor.found ∧ ∀ id ∈ w.last, id ∉ w.cursor.found) := by
  unfold Walk.withoutLast
  cases w.last with
  | none => simp
  | some id => simp [erase_eq_erase_iff]

/-- A remove does what is asked of it exactly when the position is at the last statement. -/
theorem Walk.remove_iff {w : Walk} (hcount : w.cursor.Counted) :
    (∃ w', w.step .remove = some w' ∧ w'.cursor.found = w.withoutLast) ↔ w.AtLast := by
  unfold Walk.AtLast
  rw [← w.erase_pos_iff]
  constructor
  · rintro ⟨w', h, hfound⟩
    obtain ⟨r, hr, rfl⟩ := Option.map_eq_some_iff.1 h
    by_cases hpos : w.cursor.pos < maxRecords
    · obtain ⟨me', r', hr', hfound', -⟩ := rdfstoreIteratorRemove_spec hpos hcount
      rw [hr] at hr'
      cases hr'
      exact ⟨hpos, hfound'.symm.trans hfound⟩
    · rw [rdfstoreIteratorRemove_exits (not_lt.1 hpos)] at hr
      cases hr
  · rintro ⟨hpos, hset⟩
    obtain ⟨me', r, hr, hfound, -⟩ := rdfstoreIteratorRemove_spec hpos hcount
    refine ⟨⟨me', w.last⟩, ?_, hfound.trans hset⟩
    show (rdfstoreIteratorRemove w.cursor).map _ = _
    rw [hr]
    rfl

/-! ## Runs -/

theorem Walk.runsRight_iff {ops : List WalkOp} {w : Walk} (hcount : w.cursor.Counted) :
    w.RunsRight ops ↔ w.RunsAtLast ops := by
  induction ops generalizing w with
  | nil => exact ⟨fun _ => trivial, fun _ => hcount⟩
  | cons op ops ih =>
    constructor
    · rintro ⟨-, w', hstep, hremove, hrest⟩
      refine ⟨?_, fun w'' hw'' => ?_⟩
      · rintro rfl
        exact (Walk.remove_iff hcount).1 ⟨w', hstep, hremove rfl⟩
      · cases hstep.symm.trans hw''
        exact (ih (Walk.step_counted hstep hcount)).1 hrest
    · rintro ⟨hat, hrest⟩
      refine ⟨hcount, ?_⟩
      obtain ⟨w', hstep, hright⟩ : ∃ w', w.step op = some w' ∧ (op = .remove → w'.cursor.found = w.withoutLast) := by
        cases op with
        | first store => exact ⟨_, rfl, fun h => by cases h⟩
        | next store => exact ⟨_, rfl, fun h => by cases h⟩
        | each store => exact ⟨_, rfl, fun h => by cases h⟩
        | remove =>
          obtain ⟨w', hstep, hfound⟩ := (Walk.remove_iff hcount).2 (hat rfl)
          exact ⟨w', hstep, fun _ => hfound⟩
      exact ⟨w', hstep, hright, (ih (Walk.step_counted hstep hcount)).2 (hrest w' hstep)⟩

/-- The size is the number of ids after every run that comes back. -/
theorem walk_counted {ops : List WalkOp} {w w' : Walk} (hcount : w.cursor.Counted) (h : w.run ops = some w') :
    w'.cursor.Counted := by
  induction ops generalizing w with
  | nil =>
    cases h
    exact hcount
  | cons op ops ih =>
    obtain ⟨w₁, hstep, hrun⟩ := Option.bind_eq_some_iff.1 h
    exact ih (Walk.step_counted hstep hcount) hrun

/-! ## Iterators that are handed out -/

section

variable (ext : Externals)

/-- The iterators that a search, `rdfstore_elements` or a set operation hands out. -/
inductive HandedOut : Cursor → Prop
  | search {me me' : Store} {tp : Option TriplePattern} {tp' : TriplePattern} {results : Iterator} (ptr : Nat)
      (h : rdfstoreSearch ext me tp = .found results me' tp') : HandedOut (Cursor.start results ptr)
  | searchRanges {κ : Type} [LinearOrder κ] {t : RangeTable κ} {me me' : Store} {tp tp' : TriplePattern}
      {operator : Nat} {bounds : List κ} {results : Iterator} (ptr : Nat)
      (h : rdfstoreSearchRanges ext t me tp operator bounds = .found results me' tp') :
      HandedOut (Cursor.start results ptr)
  | elements {me : Store} (hme : ReachedStore ext me) (walk : KeyWalk me.statements) (ptr : Nat) (ids : Buf)
      {r : Cursor} (h : rdfstoreElements me walk ptr ids = .ok r) : HandedOut r
  | intersect (A B : Cursor) (ids : Buf) {r : Cursor} (h : rdfstoreIteratorIntersect A B ids = some r) : HandedOut r
  | unite (A B : Cursor) (ids : Buf) {r : Cursor} (h : rdfstoreIteratorUnite A B ids = some r) : HandedOut r
  | subtract (A B : Cursor) (not ids : Buf) {r : Cursor} (h : rdfstoreIteratorSubtract A B not ids = some r) :
      HandedOut r
  | exor (A B : Cursor) (ids : Buf) {r : Cursor} (h : rdfstoreIteratorExor A B ids = some r) : HandedOut r
  | complement {me : Store} (hme : ReachedStore ext me) (walk : KeyWalk me.statements) (A : Cursor)
      (ids ids1 ids2 : Buf) {r : Cursor} (h : rdfstoreIteratorComplement me walk A ids ids1 ids2 = .ok r) :
      HandedOut r

variable {ext}

theorem empty_counted : Iterator.empty.Counted := by
  show 0 = (ones 0 _).card
  rw [ones_zero, Finset.card_empty]

/-- The iterator at the end of a search. -/
theorem copied_counted (outsize : Nat) (bits : Buf) :
    (⟨copyBytes outsize bits fun _ => 0, outsize, countBits outsize bits⟩ : Iterator).Counted := by
  show countBits outsize bits = (ones outsize (copyBytes outsize bits fun _ => 0)).card
  rw [countBits_eq, ones_copyBytes]

theorem search_counted {me me' : Store} {tp : Option TriplePattern} {tp' : TriplePattern} {results : Iterator}
    (h : rdfstoreSearch ext me tp = .found results me' tp') : results.Counted := by
  unfold rdfstoreSearch at h
  cases tp with
  | none => cases h
  | some tp =>
    simp only at h
    split at h
    · cases h
    · split at h
      · cases h
      · split at h
        · cases h
        · split at h
          · cases h
            exact empty_counted
          · cases h
            exact copied_counted _ _

theorem searchRanges_counted {κ : Type} [LinearOrder κ] {t : RangeTable κ} {me me' : Store}
    {tp tp' : TriplePattern} {operator : Nat} {bounds : List κ} {results : Iterator}
    (h : rdfstoreSearchRanges ext t me tp operator bounds = .found results me' tp') : results.Counted := by
  unfold rdfstoreSearchRanges at h
  split at h
  · cases h
  · split at h
    · cases h
    · split at h
      · cases h
      · split at h
        · cases h
        · cases h
          exact empty_counted
        · cases h
          exact copied_counted _ _

theorem ofBits_of_eq {A r : Cursor} {c : Prop} [Decidable c] {bits : Nat × Buf}
    (h : (if c then none else some (A.ofBits bits)) = some r) : r.Counted := by
  split at h
  · cases h
  · cases h
    exact Cursor.ofBits_counted A bits

/-- What is handed out counts its ids. -/
theorem HandedOut.counted {c : Cursor} (h : HandedOut ext c) : c.Counted := by
  cases h with
  | search ptr h => exact search_counted h
  | searchRanges ptr h => exact searchRanges_counted h
  | elements hme walk ptr ids h =>
    obtain ⟨r, hr, -, hcount, -⟩ := rdfstoreElements_spec hme.idsIssued walk ptr ids
    rw [h] at hr
    cases hr
    exact hcount
  | intersect A B ids h => exact ofBits_of_eq h
  | unite A B ids h => exact ofBits_of_eq h
  | subtract A B not ids h => exact ofBits_of_eq h
  | exor A B ids h => exact ofBits_of_eq h
  | complement hme walk A ids ids1 ids2 h =>
    obtain ⟨r, hr, -, hcount⟩ := rdfstoreIteratorComplement_spec hme.idsIssued walk A ids ids1 ids2
    rw [h] at hr
    cases hr
    exact hcount

end

/-- Of every iterator that is handed out: after any calls that come back its size is the number of
its ids; and calls are all right if and only if at each remove the position is at the statement
returned last, or neither is in the iterator. -/
theorem removal_iff {ext : Externals} {c : Cursor} (h : HandedOut ext c) :
    (∀ ops w, (⟨c, none⟩ : Walk).run ops = some w → w.cursor.Counted) ∧
      ∀ ops, (⟨c, none⟩ : Walk).RunsRight ops ↔ (⟨c, none⟩ : Walk).RunsAtLast ops :=
  ⟨fun _ _ hrun => walk_counted h.counted hrun, fun _ => Walk.runsRight_iff h.counted⟩

/-- The ids 0 and 1. -/
def zeroAndOne : Cursor :=
  (rdfstoreIteratorUnite idZero (Cursor.start ⟨fun k => if k = 0 then 2 else 0, 1, 1⟩ 0) fun _ => 0).getD idZero

theorem zeroAndOne_handedOut : HandedOut asciiExternals zeroAndOne :=
  .unite idZero (Cursor.start ⟨fun k => if k = 0 then 2 else 0, 1, 1⟩ 0) (fun _ => 0) rfl

theorem removal_iff_zeroAndOne :
    (∀ ops w, (⟨zeroAndOne, none⟩ : Walk).run ops = some w → w.cursor.Counted) ∧
      ∀ ops, (⟨zeroAndOne, none⟩ : Walk).RunsRight ops ↔ (⟨zeroAndOne, none⟩ : Walk).RunsAtLast ops :=
  removal_iff zeroAndOne_handedOut

/-- `each` returns the statement 0, and `remove` then takes out the id 1. -/
theorem removal_after_each :
    HandedOut asciiExternals zeroAndOne ∧
      ((⟨zeroAndOne, none⟩ : Walk).run [.each storeOfOne, .remove]).map (fun w => (w.last, w.cursor.found)) =
        some (some 0, {0}) ∧
      ¬ (⟨zeroAndOne, none⟩ : Walk).RunsRight [.each storeOfOne, .remove] := by
  have hrun : ((⟨zeroAndOne, none⟩ : Walk).run [.each storeOfOne, .remove]).map
      (fun w => (w.last, w.cursor.found)) = some (some 0, {0}) := by
    decide
  refine ⟨zeroAndOne_handedOut, hrun, ?_⟩
  rintro ⟨-, w, hstep, -, -, w', hstep', hfound, -⟩
  have hfinal : (⟨zeroAndOne, none⟩ : Walk).run [.each storeOfOne, .remove] = some w' := by
    simp only [Walk.run, hstep, hstep', Option.bind_some]
  rw [hfinal] at hrun
  simp only [Option.map_some, Option.some.injEq, Prod.mk.injEq] at hrun
  obtain ⟨hlast, hids⟩ := hrun
  have hsame : w'.last = w.last := by
    obtain ⟨r, -, rfl⟩ := Option.map_eq_some_iff.1 hstep'
    rfl
  have hset := hfound rfl
  rw [hids, Walk.withoutLast, ← hsame, hlast, Option.elim_some] at hset
  have hmem : 0 ∈ w.cursor.found.erase 0 := by
    rw [← hset]
    exact Finset.mem_singleton_self 0
  exact Finset.ne_of_mem_erase hmem rfl

end RdfStore
