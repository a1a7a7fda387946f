import RdfStore.Consistency

/-!
# The free-text index

With free-text on an insert puts the id under every word of the literal and
under the stems of the words, and a removal goes through the same keys again.
But the removal does not ask whose ids are left under a key: it deletes the key
when there are less than two.  A word met twice in the literal is taken from the
one other statement that has it, and so is a stem the insert did not make
(`errno` was set in between, and a number is taken for a word).  `RemovalSafe`
excludes just this.

    StoreRun … true RemovalSafe me h → WindexExact me h ∧
      (the next removal keeps it exact ↔ RemovalSafe)               (windex_exact)
-/

namespace RdfStore

open ByteMem

section

variable (ext : Externals)

/-- A word of the case-folded string of a literal. -/
def Literal.HasWord (l : Literal) (w : Bytes) : Prop :=
  0 < l.bytes.length ∧ w ∈ strtokWords (ext.foldedcase l.bytes)

/-- A stem an insert makes of a word of the literal. -/
def Literal.HasStem (errno : Bool) (l : Literal) (w : Bytes) : Prop :=
  .stem w ∈ (literalWindexKeys ext true errno l).2

/-- The free-text table has an id under a word exactly when the id is live and its literal has
the word or a stem like it. -/
def WindexExact (me : Store) (h : History) : Prop :=
  ∀ w i, i ∈ ids ext me .windex w ↔ ∃ e l, h.live i = some e ∧ e.statement.object = some (.literal l) ∧
    (l.HasWord ext w ∨ l.HasStem ext e.errno w)

variable {ext}

/-- Every word is a key. -/
theorem word_mem_windexLoop {errno : Bool} {ws : List Bytes} {w : Bytes} :
    .word w ∈ (windexLoop ext errno ws).2 ↔ w ∈ ws := by
  induction ws generalizing errno with
  | nil => simp [windexLoop]
  | cons v ws ih =>
    have hstem : WindexKey.word w ∉
        (if (skipStems ext errno v).2 then [] else (stems v wordStemming 1).map WindexKey.stem) := by
      split <;> simp
    simp only [windexLoop, List.cons_append, List.mem_cons, List.mem_append, hstem, false_or, ih,
      WindexKey.word.injEq]

theorem hasKey_windex_iff {e : Entry} {w : Bytes} : e.HasKey ext true .windex w ↔
    ∃ l, e.statement.object = some (.literal l) ∧ (l.HasWord ext w ∨ l.HasStem ext e.errno w) := by
  have hword : ∀ l : Literal, l.HasWord ext w ↔ .word w ∈ (literalWindexKeys ext true e.errno l).2 := by
    intro l
    unfold Literal.HasWord literalWindexKeys
    split
    · next hc => rw [windexKeys, word_mem_windexLoop]; exact and_iff_right hc.2
    · next hc => simp only [List.not_mem_nil, iff_false]; exact fun h => hc ⟨rfl, h.1⟩
  simp only [Entry.HasKey, hword, Literal.HasStem]
  refine exists_congr fun l => and_congr_right fun _ => ?_
  constructor
  · rintro ⟨k, hk, rfl⟩
    cases k with
    | word w => exact Or.inl hk
    | stem s => exact Or.inr hk
  · rintro (hk | hk)
    · exact ⟨_, hk, rfl⟩
    · exact ⟨_, hk, rfl⟩

theorem Holds.windexExact {U : Set Use} {me : Store} {h : History} (hh : Holds ext U me h)
    (hfree : me.freetext = true) : WindexExact ext me h := by
  intro w i
  rw [hh.indexed .windex w i rfl, hfree]
  simp only [hasKey_windex_iff]
  constructor
  · rintro ⟨e, he, l, hl⟩
    exact ⟨e, l, he, hl⟩
  · rintro ⟨e, l, he, hl⟩
    exact ⟨e, he, l, hl⟩

/-- A removal that leaves the free-text table exact was safe. -/
theorem Holds.removalSafe_of_exact (hl : ext.Lossless) {U : Set Use} (hcol : NoCollision ext U) {now : Bytes}
    {me me' : Store} {h : History} {st : Statement} {given : Option Resource} (hh : Holds ext U me h)
    (hfree : me.freetext = true) (hfresh : FreshCall ext me st given) (hU : callUse me st given ∈ U)
    (hcase : RemoveCase ext now me st given 0 me')
    (hexact : WindexExact ext me' (h.remove (callUse me st given).content)) :
    RemovalSafe ext me st given := by
  rcases hh.remove_cases hl hcol hfresh hU hcase (Or.inl rfl) with ⟨h01, -⟩ | ⟨-, i, e, he, hlater, hin, hid, hr⟩
  · cases h01
  · intro data hdata
    rw [hin] at hdata
    cases hdata
    rw [hid]
    refine windexSafe_of_foldl_eq fun k hk => ?_
    have hlive : ∀ j e₁, (h.remove (callUse me st given).content).live j = some e₁ ↔
        h.live j = some e₁ ∧ j ≠ i := hh.live_remove he hlater.content
    ext j
    rw [← hr.windexed, hexact k j, Finset.mem_erase, hh.windexExact hfree k j]
    simp only [hlive]
    constructor
    · rintro ⟨e₁, l, ⟨hj, hne⟩, hrest⟩
      exact ⟨hne, e₁, l, hj, hrest⟩
    · rintro ⟨hne, e₁, l, hj, hrest⟩
      exact ⟨e₁, l, ⟨hj, hne⟩, hrest⟩

/-- In a run whose removals are safe the free-text index is exact in every state, and the next
removal keeps it exact if and only if it is safe too. -/
theorem windex_exact (hl : ext.Lossless) {U : Set Use} (hcol : NoCollision ext U) {me : Store} {h : History}
    (hrun : StoreRun ext U true (RemovalSafe ext) me h) :
    WindexExact ext me h ∧
      ∀ now st given f, FreshCall ext me st given → callUse me st given ∈ U →
        rdfstoreRemove ext now me st given = some (0, f) →
        (WindexExact ext f.me (h.remove (callUse me st given).content) ↔ RemovalSafe ext me st given) := by
  obtain ⟨hh, hfree⟩ := hrun.holds hl hcol fun _ _ _ _ hsafe => hsafe
  refine ⟨hh.windexExact hfree, fun now st given f hfresh hU hcall => ?_⟩
  have hcase := rdfstoreRemove_cases hcall
  refine ⟨hh.removalSafe_of_exact hl hcol hfree hfresh hU hcase, fun hsafe => ?_⟩
  exact (hh.remove hl hcol hfresh hU hsafe hcase (Or.inl rfl)).windexExact (hcase.freetext.trans hfree)

end

/-! ## A word met twice -/

/-- A statement with a literal. -/
def literalStatement (s : UInt8) (text : Bytes) (h : text.length < 2 ^ 31) : Statement :=
  triple (uri s) (uri 98) (.literal ⟨some ⟨text, h⟩, .normal, CString.empty, none, 0⟩)

/-- `x x` and `x`. -/
def wordTwice : Statement := literalStatement 97 [120, 32, 120] (by decide)

def wordOnce : Statement := literalStatement 99 [120] (by decide)

/-- Both are inserted and the first is removed: the second is still stored under its id, but no
longer found under its word. -/
theorem rdfstoreRemove_takes_shared_word :
    ∃ f g k, rdfstoreInsert asciiExternals [] (rdfstoreConnect true false []) wordTwice none = some (0, f) ∧
      rdfstoreInsert asciiExternals [] f.me wordOnce none = some (0, g) ∧
      rdfstoreRemove asciiExternals [] g.me wordTwice none = some (0, k) ∧
      1 ∈ ids asciiExternals g.me .windex [120] ∧ 1 ∉ ids asciiExternals k.me .windex [120] ∧
      rdfstoreFlatStoreExists k.me.nodes (packInt 1) = true := by
  have hanswer : ((rdfstoreInsert asciiExternals [] (rdfstoreConnect true false []) wordTwice none).bind
      fun x => (rdfstoreInsert asciiExternals [] x.2.me wordOnce none).bind fun y =>
        (rdfstoreRemove asciiExternals [] y.2.me wordTwice none).map fun z => (x.1, y.1, z.1,
          decide (1 ∈ ids asciiExternals y.2.me .windex [120]),
          decide (1 ∈ ids asciiExternals z.2.me .windex [120]),
          rdfstoreFlatStoreExists z.2.me.nodes (packInt 1))) = some (0, 0, 0, true, false, true) := by
    decide +kernel
  obtain ⟨⟨r, f⟩, hf, hanswer⟩ := Option.bind_eq_some_iff.1 hanswer
  obtain ⟨⟨r', g⟩, hg, hanswer⟩ := Option.bind_eq_some_iff.1 hanswer
  obtain ⟨⟨r'', k⟩, hk, hanswer⟩ := Option.map_eq_some_iff.1 hanswer
  simp only [Prod.mk.injEq, decide_eq_true_eq, decide_eq_false_iff_not] at hanswer
  obtain ⟨rfl, rfl, rfl, hrest⟩ := hanswer
  exact ⟨f, g, k, hf, hg, hk, hrest⟩

/-- After the first insert the index is exact. -/
theorem windex_exact_wordTwice :
    ∃ f h, rdfstoreInsert asciiExternals [] (rdfstoreConnect true false []) wordTwice none = some (0, f) ∧
      WindexExact asciiExternals f.me h := by
  have hcol : NoCollision asciiExternals {(wordTwice, none)} := by
    rintro u rfl v rfl -
    rfl
  have hfresh : FreshCall asciiExternals (rdfstoreConnect true false []) wordTwice none := by
    refine ⟨Or.inl rfl, fun s hs => ?_, fun p hp => ?_, fun o ho => ?_, nofun⟩
    · cases hs; exact Or.inl rfl
    · cases hp; exact Or.inl rfl
    · cases ho; exact Or.inl rfl
  have hanswer : (rdfstoreInsert asciiExternals [] (rdfstoreConnect true false []) wordTwice none).map
      (·.1) = some 0 := by decide
  obtain ⟨⟨r, f⟩, hcall, rfl⟩ := Option.map_eq_some_iff.1 hanswer
  have hconnect : StoreRun asciiExternals {(wordTwice, none)} true (RemovalSafe asciiExternals)
    (rdfstoreConnect true false []) History.empty := .connect false []
  have hrun := hconnect.insert [] wordTwice none hfresh rfl _ f hcall (Or.inl rfl)
  exact ⟨f, _, hcall, (windex_exact asciiExternals_lossless hcol hrun).1⟩

end RdfStore
