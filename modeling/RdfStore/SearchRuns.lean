import RdfStore.Consistency
import RdfStore.Iterators
import RdfStore.SearchMeaning

/-!
# Searching after any calls

What a pattern stands for is said of the statements that live, without the tables:
a statement meets a pattern if it has, for every component that is given, a key of
one of the parts.  After every run of inserts and removals a search finds the ids
of the statements that meet its pattern, and the record of each.

    StoreRun … me h → (i ∈ ids found ↔ some e lives under i and meets tp)      (search_run)
-/

namespace RdfStore

open ByteMem

section

variable (ext : Externals)

/-- A statement has a key of one of the parts, for every component that is given. -/
def Entry.Meets (freetext : Bool) (tp : TriplePattern) (e : Entry) : Prop :=
  ∀ c, (tp.list c).isNull = false → ∃ k ∈ partKeys ext tp c, e.HasKey ext freetext c.table k

/-- A pattern that the search takes: the parts have the tags of their components, every operator is OR, and
words are asked for with free-text on and without an object. -/
structure OrQuery (freetext : Bool) (tp : TriplePattern) : Prop where
  check : tp.check = true
  operator : ∀ c, (tp.list c).operator = 0
  words : tp.words.isNull = false → freetext = true
  objects : tp.words.isNull = true ∨ tp.objects.isNull = true

variable {ext}

theorem mem_allComponents (c : Component) : c ∈ Component.all := by
  cases c <;> decide

theorem not_isNumber_component (c : Component) : c.table.isNumber = false := by
  cases c <;> rfl

/-- The entries of a store that is kept by its calls have an id in them. -/
theorem TablesOk.orPattern (hl : ext.Lossless) {me : Store} (hok : TablesOk ext me) {tp : TriplePattern}
    (hq : OrQuery me.freetext tp) : OrPattern ext me tp where
  check := hq.check
  operator := hq.operator
  proper := fun c k _ data hdata => Or.inr ((hok c.table k data hdata).decode hl).2
  words := hq.words
  objects := hq.objects

section

variable {U : Set Use} {me : Store} {h : History}

theorem Holds.hasPart_iff (hh : Holds ext U me h) (tp : TriplePattern) (c : Component) (i : Nat) :
    HasPart ext me tp c i ↔
      ∃ e, h.live i = some e ∧ ∃ k ∈ partKeys ext tp c, e.HasKey ext me.freetext c.table k := by
  unfold HasPart
  constructor
  · rintro ⟨k, hk, hi⟩
    obtain ⟨e, he, hkey⟩ := (hh.indexed c.table k i (not_isNumber_component c)).1 hi
    exact ⟨e, he, k, hk, hkey⟩
  · rintro ⟨e, he, k, hk, hkey⟩
    exact ⟨k, hk, (hh.indexed c.table k i (not_isNumber_component c)).2 ⟨e, he, hkey⟩⟩

/-- With one component at least, the ids of a pattern are those of the statements that meet it. -/
theorem Holds.matches_iff (hh : Holds ext U me h) {tp : TriplePattern}
    (hsome : ∃ c, (tp.list c).isNull = false) (i : Nat) :
    Matches ext me tp Component.all i ↔ ∃ e, h.live i = some e ∧ e.Meets ext me.freetext tp := by
  constructor
  · intro hm
    obtain ⟨c, hc⟩ := hsome
    obtain ⟨e, he, -⟩ := (hh.hasPart_iff tp c i).1 (hm c (mem_allComponents c) hc)
    refine ⟨e, he, fun c' hc' => ?_⟩
    obtain ⟨e', he', hkeys⟩ := (hh.hasPart_iff tp c' i).1 (hm c' (mem_allComponents c') hc')
    rw [he] at he'
    cases he'
    exact hkeys
  · rintro ⟨e, he, hmeets⟩ c - hc
    exact (hh.hasPart_iff tp c i).2 ⟨e, he, hmeets c hc⟩

theorem exists_component_of_isEmpty {tp : TriplePattern} (h : tp.isEmpty = false) :
    ∃ c, (tp.list c).isNull = false := by
  by_contra hall
  have hnull : ∀ c, (tp.list c).isNull = true := fun c => by
    cases hc : (tp.list c).isNull with
    | true => rfl
    | false => exact absurd ⟨c, hc⟩ hall
  have hempty : tp.isEmpty = true := by
    have h1 := hnull .words
    have h2 := hnull .subjects
    have h3 := hnull .predicates
    have h4 := hnull .objects
    have h5 := hnull .langs
    have h6 := hnull .dts
    have h7 := hnull .contexts
    simp only [TriplePattern.list] at h1 h2 h3 h4 h5 h6 h7
    simp [TriplePattern.isEmpty, h1, h2, h3, h4, h5, h6, h7]
  rw [hempty] at h
  cases h

/-- A search over tables that hold what a history says. -/
theorem Holds.search (hl : ext.Lossless) (hh : Holds ext U me h) {tp : TriplePattern}
    (hq : OrQuery me.freetext tp) (hne : tp.isEmpty = false) :
    ∃ it me' tp', rdfstoreSearch ext me (some tp) = .found it me' tp' ∧
      (∀ i, i ∈ it.found ↔ ∃ e, h.live i = some e ∧ e.Meets ext me.freetext tp) ∧ it.size = it.found.card := by
  obtain ⟨it, me', tp', hsearch, hfound, hcount⟩ := rdfstoreSearch_or (hh.tables.orPattern hl hq) hne
  exact ⟨it, me', tp', hsearch,
    fun i => (hfound i).trans (hh.matches_iff (exists_component_of_isEmpty hne) i), hcount⟩

end

theorem noCollision_singleton (u : Use) : NoCollision ext {u} := by
  rintro v rfl w rfl -
  rfl

/-- One statement is inserted into a new store. -/
theorem insert_run :
    ∃ f, ∃ h : History, rdfstoreInsert asciiExternals [] (rdfstoreConnect false false [])
        (triple (uri 97) (uri 98) (.resource (uri 99))) none = some (0, f) ∧
      StoreRun asciiExternals {(triple (uri 97) (uri 98) (.resource (uri 99)), none)} false
        (RemovalSafe asciiExternals) f.me h := by
  have hfresh : FreshCall asciiExternals (rdfstoreConnect false false [])
      (triple (uri 97) (uri 98) (.resource (uri 99))) none := by
    refine ⟨Or.inl rfl, fun s hs => ?_, fun p hp => ?_, fun o ho => ?_, nofun⟩
    · cases hs; exact Or.inl rfl
    · cases hp; exact Or.inl rfl
    · cases ho; exact Or.inl rfl
  have hanswer : (rdfstoreInsert asciiExternals [] (rdfstoreConnect false false [])
      (triple (uri 97) (uri 98) (.resource (uri 99))) none).map (·.1) = some 0 := by decide +kernel
  obtain ⟨⟨r, f⟩, hcall, rfl⟩ := Option.map_eq_some_iff.1 hanswer
  have hconnect : StoreRun asciiExternals {(triple (uri 97) (uri 98) (.resource (uri 99)), none)} false
    (RemovalSafe asciiExternals) (rdfstoreConnect false false []) History.empty := .connect false []
  exact ⟨f, _, hcall, hconnect.insert [] _ none hfresh rfl _ f hcall (Or.inl rfl)⟩

end

end RdfStore
