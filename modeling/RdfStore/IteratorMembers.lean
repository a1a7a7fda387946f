import RdfStore.Bitmaps
import RdfStore.DerivedModels

/-!
# The members of an iterator (`rdfstore_iterator_contains`)

The id of a statement is looked up by its hash code, and the bits of the iterator
are searched from that id on: "are we sure that rdfstore_bits_isanyset() work
here??!?!".  The search looks at one bit of each byte only, but the first it looks
at is the bit of the id, and where it stops is compared with the id.

    StoreRun … me h → (contains = 1 ↔ the statement lives under an id of the iterator)   (iteratorContains_run)
-/

namespace RdfStore

open ByteMem

section

variable (ext : Externals)

/-- `rdfstore_iterator_contains`: the answer, and the statement afterwards.  "we do not use the default context of
the store because an iterator could contain different contexts"; without a given context the hash code is cached. -/
def rdfstoreIteratorContains (store : Store) (me : Iterator) (statement : Statement)
    (givenContext : Option Resource) : Int × Statement :=
  match checkArgs statement givenContext with
  | none => (-1, statement)
  | some _ =>
    let context := givenContext.or statement.context
    let hc := rdfstoreDigestGetStatementHashCode ext statement context
    let statement := if givenContext.isNone then { statement with hashcode := hc } else statement
    match rdfstoreFlatStoreFetch store.statements (hashKey hc) with
    | none => (0, statement)
    | some data =>
      let stId := unpackInt data
      let (pos, any) := rdfstoreBitsIsanyset me.idsSize me.ids stId 1
      (if any ≠ 0 ∧ pos = stId then 1 else 0, statement)

variable {ext}

/-- The hash code in the context it was cached in. -/
theorem statementHashCode_of_fresh {st : Statement} {context : Option Resource}
    (h : st.hashcode = 0 ∨ st.hashcode = statementHash ext st context) :
    rdfstoreDigestGetStatementHashCode ext st context = statementHash ext st context := by
  unfold rdfstoreDigestGetStatementHashCode
  split
  · next hne => exact h.resolve_left hne
  · rfl

/-- The search for a set bit stops where it starts exactly when that bit is set. -/
theorem isanyset_start_iff (size : ℕ) (bits : Buf) (pos : ℕ) :
    (rdfstoreBitsIsanyset size bits pos 1).2 ≠ 0 ∧ (rdfstoreBitsIsanyset size bits pos 1).1 = pos ↔
      pos ∈ ones size bits := by
  obtain ⟨hfound, hnone⟩ := rdfstoreBitsIsanyset_spec size bits pos
  constructor
  · rintro ⟨hany, hpos⟩
    have hleast := (hfound hany).1.1.1
    rwa [hpos] at hleast
  · intro hpos
    have hany : (rdfstoreBitsIsanyset size bits pos 1).2 ≠ 0 := fun h => hnone h pos ⟨hpos, le_refl pos⟩ rfl
    have hleast := hfound hany
    exact ⟨hany, le_antisymm (hleast.2 ⟨⟨hpos, le_refl pos⟩, rfl⟩) hleast.1.1.2⟩

/-- The statement of a use lives under an id of the iterator. -/
def History.LivesIn (h : History) (it : Iterator) (u : Use) : Prop :=
  ∃ i e, h.live i = some e ∧ e.content = u.content ∧ i ∈ it.found

section

variable {U : Set Use} {me : Store} {h : History} {st : Statement} {given : Option Resource}

/-- Over tables that hold what a history says the answer is 1 for the statements that live in the iterator, and 0
for the others. -/
theorem Holds.iteratorContains (hh : Holds ext U me h) (hcol : NoCollision ext U)
    (hargs : (checkArgs st given).isSome)
    (hhash : st.hashcode = 0 ∨ st.hashcode = statementHash ext st (given.or st.context))
    (hU : (st, given.or st.context) ∈ U) (it : Iterator) :
    ((rdfstoreIteratorContains ext me it st given).1 = 1 ∧ h.LivesIn it (st, given.or st.context)) ∨
      ((rdfstoreIteratorContains ext me it st given).1 = 0 ∧ ¬ h.LivesIn it (st, given.or st.context)) := by
  obtain ⟨a, ha⟩ := Option.isSome_iff_exists.1 hargs
  have hc : rdfstoreDigestGetStatementHashCode ext st (given.or st.context) =
      Use.hash ext (st, given.or st.context) := statementHashCode_of_fresh hhash
  unfold rdfstoreIteratorContains
  simp only [ha, hc]
  cases hdata : rdfstoreFlatStoreFetch me.statements (hashKey (Use.hash ext (st, given.or st.context))) with
  | none =>
    refine Or.inr ⟨rfl, ?_⟩
    rintro ⟨i, e, he, hcontent, -⟩
    have hkey := (hcol.key_iff hU (hh.used i e he)).2 hcontent.symm
    rw [(hh.statements _ (packInt i)).2 ⟨i, e, he, hkey, rfl⟩] at hdata
    cases hdata
  | some data =>
    obtain ⟨i, e, he, hkey, rfl⟩ := (hh.statements _ data).1 hdata
    have hcontent : e.content = Use.content (st, given.or st.context) :=
      ((hcol.key_iff hU (hh.used i e he)).1 hkey).symm
    have hid : unpackInt (packInt i) = i := unpackInt_packInt_of_lt ((hh.lt he).trans me.counter.toNat_lt)
    simp only [hid]
    split
    · next hfound => exact Or.inl ⟨rfl, i, e, he, hcontent, (isanyset_start_iff _ _ i).1 hfound⟩
    · next hmissed =>
      refine Or.inr ⟨rfl, ?_⟩
      rintro ⟨j, e', he', hcontent', hj⟩
      have hij : j = i := hh.unique j i e' e he' he (hcontent'.trans hcontent.symm)
      rw [hij] at hj
      exact hmissed ((isanyset_start_iff _ _ i).2 hj)

end

end

end RdfStore
