import RdfStore.Calls
import RdfStore.Concrete

/-!
# An insert that is refused

`rdfstore_insert` answers 1 for a statement that is already there and -1 when
one of its own checks fails.  It increments the statement counter before it
compares the parse type with the datatype of a literal, and that way out does
not undo it: the store grows by a statement nobody can find.  Every other
refusal leaves the store as it was.

    InsertAllOrNothing … ↔ ¬ ReachesMismatch …                  (insertAllOrNothing_iff)
-/

namespace RdfStore

open ByteMem

/-- Every table and both counters are the same. -/
structure SameTables (me me' : Store) : Prop where
  index : me'.index = me.index
  nodes : me'.nodes = me.nodes
  statements : me'.statements = me.statements
  counter : me'.counter = me.counter
  counterRemoved : me'.counterRemoved = me.counterRemoved
  lastModified : me'.lastModified = me.lastModified
  size : rdfstoreSize me' = rdfstoreSize me
  isEmpty : rdfstoreIsEmpty me' = rdfstoreIsEmpty me

theorem SameTables.refl (me : Store) : SameTables me me := ⟨rfl, rfl, rfl, rfl, rfl, rfl, rfl, rfl⟩

section

variable (ext : Externals) (now : Bytes) (me : Store) (st : Statement) (given : Option Resource)

/-- A call that answers 1 or -1 leaves the tables and the counters as they were. -/
def InsertAllOrNothing : Prop :=
  ∀ r f, rdfstoreInsert ext now me st given = some (r, f) → r = 1 ∨ r = -1 → SameTables me f.me

/-- The call gets as far as the datatype check and fails it: its arguments are accepted, the
statement is not there, there is room for one more, and the object is a literal whose parse
type and datatype contradict each other. -/
def ReachesMismatch : Prop :=
  ∃ a, checkArgs st given = some a ∧
    rdfstoreFlatStoreExists me.statements (hashKey (callHash ext me st given)) = false ∧
    (me.counter + 1).toNat ≤ maxRecords ∧ parseTypeMismatch a.object = true

variable {ext me st given}

/-- On the way to the datatype check the counter is left one too high. -/
theorem rdfstoreInsert_mismatch (h : ReachesMismatch ext me st given) :
    ∃ f, rdfstoreInsert ext now me st given = some (-1, f) ∧
      f.me = { me with counter := me.counter + 1 } := by
  obtain ⟨a, hargs, hout, hroom, hmis⟩ := h
  unfold rdfstoreInsert
  rw [callHash] at hout
  simp only [hargs, hout, if_neg (show ¬ maxRecords < (me.counter + 1).toNat by omega), hmis, if_true,
    Bool.false_eq_true, if_false]
  exact ⟨_, rfl, rfl⟩

variable {now}

/-- A refused insert changes nothing exactly when it does not get to the datatype check. -/
theorem insertAllOrNothing_iff : InsertAllOrNothing ext now me st given ↔ ¬ ReachesMismatch ext me st given := by
  constructor
  · intro hall hreach
    obtain ⟨f, hf, hme⟩ := rdfstoreInsert_mismatch now hreach
    have hsame := congrArg UInt32.toNat (hall (-1) f hf (Or.inr rfl)).counter
    rw [hme, UInt32.toNat_add] at hsame
    have hlt := me.counter.toNat_lt
    simp only [UInt32.toNat_one] at hsame
    omega
  · intro hreach r f h hr
    have hcase := rdfstoreInsert_cases h
    generalize f.me = me' at hcase
    cases hcase with
    | badArgs hargs => exact SameTables.refl me
    | present a hargs hin => exact SameTables.refl me
    | full a hargs hout hfull => exact SameTables.refl me
    | mismatch a hargs hout hroom hmis => exact absurd ⟨a, hargs, hout, hroom, hmis⟩ hreach
    | stored a hargs hout hroom hmis me' htables => rcases hr with hr | hr <;> cases hr

end

/-! ## The refusal that is not undone -/

/-- `a b "x"^^rdf:XMLLiteral`, the literal built with parse type 0. -/
def xmlLiteralStatement : Statement where
  subject := some (uri 97)
  predicate := some (uri 98)
  object := (rdfstoreLiteralNew (some ⟨[120], by simp⟩) 0 none (some xmlLiteral)).map .literal
  context := none
  node := none
  hashcode := 0
  isreified := false

/-- Refused by an empty store, the statement still counts: the store is no longer empty. -/
theorem rdfstoreInsert_xmlLiteral_counts :
    ∃ f, rdfstoreInsert asciiExternals [] (rdfstoreConnect false false []) xmlLiteralStatement none
        = some (-1, f) ∧
      rdfstoreSize f.me = 1 ∧ rdfstoreIsEmpty f.me = 1 ∧
      ¬ InsertAllOrNothing asciiExternals [] (rdfstoreConnect false false []) xmlLiteralStatement none := by
  have hreach : ReachesMismatch asciiExternals (rdfstoreConnect false false []) xmlLiteralStatement none :=
    ⟨⟨uri 97, uri 98, .literal ⟨some ⟨[120], by simp⟩, .normal, CString.empty, some xmlLiteral, 0⟩⟩,
      by decide, rfl, by decide, by decide⟩
  obtain ⟨f, hf, hme⟩ := rdfstoreInsert_mismatch [] hreach
  refine ⟨f, hf, by rw [hme]; rfl, by rw [hme]; rfl, fun hall => ?_⟩
  have hsame := (hall (-1) f hf (Or.inr rfl)).counter
  rw [hme] at hsame
  exact absurd hsame (by decide)

end RdfStore
