import RdfStore.Iterators

/-!
# Set operations on iterators (`rdfstore_iterator.c`)

Two iterators over one store are combined bitmap by bitmap into a new one, whose
size is counted afterwards.  `subtract` takes the complement of the second
bitmap over its own bytes and intersects with that, so that it keeps nothing
behind the last byte of the second; `exor` gives the difference over the longer
of the two.

    intersect / unite / exor                   ids = A ∩ B / A ∪ B / A \ B         (rdfstoreIteratorIntersect_spec, …)
    subtract is the difference, as exor is  ↔  A has no id from 8 * B.ids_size on  (rdfstoreIteratorSubtract_iff)
-/

namespace RdfStore

open ByteMem

/-! ## Complement of a bitmap -/

/-- `rdfstore_bits_not` -/
def rdfstoreBitsNot (la : Nat) (ba : Buf) (bb : Buf) : Nat × Buf := bitsLoop (fun i => ~~~ byteAt la ba i) la bb

theorem byteBit_not (c : UInt8) {k : Nat} (hk : k < 8) : byteBit (~~~ c) k = !byteBit c k := by
  rw [byteBit_eq_getLsbD, byteBit_eq_getLsbD, UInt8.toBitVec_not, BitVec.getLsbD_not]
  simp [hk]

/-- The ids below the length that are not in the bitmap. -/
theorem mem_ones_rdfstoreBitsNot {la : Nat} {ba bb : Buf} {i : Nat} :
    i ∈ ones (rdfstoreBitsNot la ba bb).1 (rdfstoreBitsNot la ba bb).2 ↔ i < 8 * la ∧ i ∉ ones la ba := by
  unfold rdfstoreBitsNot
  rw [ones_bitsLoop, mem_ones, mem_ones]
  refine and_congr_right fun hi => ?_
  have hin : ¬ la ≤ i / 8 := by omega
  simp only [bit, byteAt, if_neg hin]
  rw [byteBit_not _ (Nat.mod_lt i (by decide))]
  simp [hi]

/-! ## The operations -/

/-- A new iterator over the store of `me` from a result in its buffer, shortened and counted. -/
def Cursor.ofBits (me : Cursor) (bits : Nat × Buf) : Cursor :=
  let idsSize := rdfstoreBitsShorten bits.1 bits.2
  Cursor.start ⟨bits.2, idsSize, countBits idsSize bits.2⟩ me.store

/-- `rdfstore_iterator_intersect`; `ids` is what the allocated memory holds. -/
def rdfstoreIteratorIntersect (me you : Cursor) (ids : Buf) : Option Cursor :=
  if me.store ≠ you.store then none
  else some (me.ofBits (rdfstoreBitsAnd me.idsSize me.ids you.idsSize you.ids ids))

/-- `rdfstore_iterator_unite` -/
def rdfstoreIteratorUnite (me you : Cursor) (ids : Buf) : Option Cursor :=
  if me.store ≠ you.store then none
  else some (me.ofBits (rdfstoreBitsOr me.idsSize me.ids you.idsSize you.ids ids))

/-- `rdfstore_iterator_exor` -/
def rdfstoreIteratorExor (me you : Cursor) (ids : Buf) : Option Cursor :=
  if me.store ≠ you.store then none
  else some (me.ofBits (rdfstoreBitsExor me.idsSize me.ids you.idsSize you.ids ids))

/-- The loop of `rdfstore_iterator_subtract`: `not[i] = ~ you->ids[i]` below `n`. -/
def notLoop (ids : Buf) : Nat → Buf → Buf
  | 0, b => b
  | n + 1, b => poke (notLoop ids n b) n (~~~ ids n)

/-- `rdfstore_iterator_subtract`; `not` is what the buffer on the stack holds. -/
def rdfstoreIteratorSubtract (me you : Cursor) (not ids : Buf) : Option Cursor :=
  if me.store ≠ you.store then none
  else
    let not := notLoop you.ids you.idsSize not
    some (me.ofBits (rdfstoreBitsAnd me.idsSize me.ids you.idsSize not ids))

/-! ## What they find -/

/-- An iterator counts its ids. -/
def Iterator.Counted (it : Iterator) : Prop := it.size = it.found.card

theorem Cursor.ofBits_found (me : Cursor) (bits : Nat × Buf) :
    (me.ofBits bits).found = ones bits.1 bits.2 := ones_rdfstoreBitsShorten _ _

theorem Cursor.ofBits_counted (me : Cursor) (bits : Nat × Buf) : (me.ofBits bits).Counted := countBits_eq _ _

theorem notLoop_apply (ids : Buf) (n : Nat) (b : Buf) (k : Nat) :
    notLoop ids n b k = if k < n then ~~~ ids k else b k := by
  induction n with
  | zero => rfl
  | succ n ih =>
    simp only [notLoop, poke]
    by_cases hk : k = n
    · rw [if_pos hk, if_pos (by omega), hk]
    · rw [if_neg hk, ih]
      by_cases hlt : k < n
      · rw [if_pos hlt, if_pos (by omega)]
      · rw [if_neg hlt, if_neg (by omega)]

theorem mem_ones_notLoop {ids b : Buf} {n i : Nat} :
    i ∈ ones n (notLoop ids n b) ↔ i < 8 * n ∧ i ∉ ones n ids := by
  rw [mem_ones, mem_ones]
  refine and_congr_right fun hi => ?_
  have hin : i / 8 < n := by omega
  simp only [bit]
  rw [notLoop_apply, if_pos hin, byteBit_not _ (Nat.mod_lt i (by decide))]
  simp [hi]

section

variable {A B : Cursor} (h : A.store = B.store) (ids : Buf)

include h

theorem rdfstoreIteratorIntersect_spec :
    ∃ r, rdfstoreIteratorIntersect A B ids = some r ∧ r.found = A.found ∩ B.found ∧ r.Counted ∧
      r.store = A.store := by
  refine ⟨_, if_neg (not_not.2 h), ?_, Cursor.ofBits_counted A _, rfl⟩
  rw [Cursor.ofBits_found, ones_rdfstoreBitsAnd]
  rfl

theorem rdfstoreIteratorUnite_spec :
    ∃ r, rdfstoreIteratorUnite A B ids = some r ∧ r.found = A.found ∪ B.found ∧ r.Counted ∧
      r.store = A.store := by
  refine ⟨_, if_neg (not_not.2 h), ?_, Cursor.ofBits_counted A _, rfl⟩
  rw [Cursor.ofBits_found, ones_rdfstoreBitsOr]
  rfl

theorem rdfstoreIteratorExor_spec :
    ∃ r, rdfstoreIteratorExor A B ids = some r ∧ r.found = A.found \ B.found ∧ r.Counted ∧
      r.store = A.store := by
  refine ⟨_, if_neg (not_not.2 h), ?_, Cursor.ofBits_counted A _, rfl⟩
  rw [Cursor.ofBits_found, ones_rdfstoreBitsExor]
  rfl

/-- `subtract` keeps the ids of the difference that lie within the second bitmap. -/
theorem rdfstoreIteratorSubtract_spec (not : Buf) :
    ∃ r, rdfstoreIteratorSubtract A B not ids = some r ∧
      r.found = (A.found \ B.found).filter (· < 8 * B.idsSize) ∧ r.Counted ∧ r.store = A.store := by
  refine ⟨_, if_neg (not_not.2 h), ?_, Cursor.ofBits_counted A _, rfl⟩
  rw [Cursor.ofBits_found, ones_rdfstoreBitsAnd]
  ext i
  rw [Finset.mem_inter, mem_ones_notLoop, Finset.mem_filter, Finset.mem_sdiff]
  constructor
  · rintro ⟨hA, hlt, hB⟩
    exact ⟨⟨hA, hB⟩, hlt⟩
  · rintro ⟨⟨hA, hB⟩, hlt⟩
    exact ⟨hA, hlt, hB⟩

end

/-! ## Subtraction -/

/-- `subtract` gives the ids of `A` that are not in `B`, counts them, and agrees with `exor`; `not`,
`ids` and `ids'` are what the memory held before. -/
def SubtractsAsSets (A B : Cursor) (not ids ids' : Buf) : Prop :=
  ∃ r x, rdfstoreIteratorSubtract A B not ids = some r ∧ rdfstoreIteratorExor A B ids' = some x ∧
    r.found = A.found \ B.found ∧ r.size = (A.found \ B.found).card ∧ r.found = x.found ∧ r.size = x.size

/-- Subtraction is set difference exactly when no id of the first lies behind the last byte of the
second. -/
theorem rdfstoreIteratorSubtract_iff (A B : Cursor) (h : A.store = B.store) (not ids ids' : Buf) :
    SubtractsAsSets A B not ids ids' ↔ ∀ i ∈ A.found, i < 8 * B.idsSize := by
  obtain ⟨r, hr, hfound, hcount, -⟩ := rdfstoreIteratorSubtract_spec h ids not
  obtain ⟨x, hx, hxfound, hxcount, -⟩ := rdfstoreIteratorExor_spec h ids'
  constructor
  · rintro ⟨r', x', hr', -, hset, -⟩ i hi
    rw [hr] at hr'
    cases hr'
    by_contra hge
    have hout : i ∉ B.found := fun hB => hge (mem_ones.1 hB).1
    have hmem : i ∈ r.found := by
      rw [hset]
      exact Finset.mem_sdiff.2 ⟨hi, hout⟩
    rw [hfound] at hmem
    exact hge (Finset.mem_filter.1 hmem).2
  · intro hall
    have hset : r.found = A.found \ B.found := by
      rw [hfound, Finset.filter_true_of_mem fun i hi => hall i (Finset.mem_sdiff.1 hi).1]
    refine ⟨r, x, hr, hx, hset, ?_, hset.trans hxfound.symm, ?_⟩
    · rw [hcount, hset]
    · rw [hcount, hxcount, hset, hxfound]

/-- One id, in the second byte. -/
def idNine : Cursor := Cursor.start ⟨fun k => if k = 1 then 2 else 0, 2, 1⟩ 0

/-- One id, in the first byte. -/
def idZero : Cursor := Cursor.start ⟨fun k => if k = 0 then 1 else 0, 1, 1⟩ 0

theorem rdfstoreIteratorSubtract_iff_idZero :
    SubtractsAsSets idZero idNine (fun _ => 0) (fun _ => 0) (fun _ => 0) ↔
      ∀ i ∈ idZero.found, i < 8 * idNine.idsSize :=
  rdfstoreIteratorSubtract_iff idZero idNine rfl (fun _ => 0) (fun _ => 0) (fun _ => 0)

/-- 9 without 0 is nothing, where `exor` has 9. -/
theorem rdfstoreIteratorSubtract_longer :
    (rdfstoreIteratorSubtract idNine idZero (fun _ => 0) (fun _ => 0)).map (·.size) = some 0 ∧
      (rdfstoreIteratorExor idNine idZero (fun _ => 0)).map (·.size) = some 1 ∧
      ¬ SubtractsAsSets idNine idZero (fun _ => 0) (fun _ => 0) (fun _ => 0) := by
  have hnone : (rdfstoreIteratorSubtract idNine idZero (fun _ => 0) (fun _ => 0)).map (·.size) = some 0 := by
    decide
  have hone : (rdfstoreIteratorExor idNine idZero (fun _ => 0)).map (·.size) = some 1 := by
    decide
  refine ⟨hnone, hone, ?_⟩
  rintro ⟨r, x, hr, hx, -, -, -, hsize⟩
  rw [hr] at hnone
  rw [hx] at hone
  have hzero : r.size = 0 := Option.some.inj hnone
  have hsome : x.size = 1 := Option.some.inj hone
  omega

end RdfStore
