import RdfStore.SearchRanges
import RdfStore.Xsd.Keys

/-!
# Ranges of dates (`rdfstore_search`)

The table of dates is a b-tree without a comparison of its own: "I guess
lexicographical order for xsd:date and xsd:dateTime should work".  The bounds of
a range are written like the keys, and the walks compare them with `strcmp`.

    years of four digits → the ids found are those under the times in range   (dateRangeSearch_exact)
-/

namespace RdfStore

open ByteMem OrderedTable

/-- The key of a time in the table of dates, the zero byte with it. -/
def dateTableKey (t : Tm) : ByteKey := ⟨rdfstoreXsdSerializeDateTime t ++ [0]⟩

section

variable {t u : Tm}

theorem dateTableKey_lt_iff (ht : t.FourDigits) (hu : u.FourDigits) :
    dateTableKey t < dateTableKey u ↔ t.seconds < u.seconds := by
  rw [ByteKey.lt_iff]
  exact serializeDateTime_append_lt_iff ht hu [0]

theorem dateTableKey_le_iff (ht : t.FourDigits) (hu : u.FourDigits) :
    dateTableKey t ≤ dateTableKey u ↔ t.seconds ≤ u.seconds := by
  rw [← not_lt, ← not_lt, dateTableKey_lt_iff hu ht]

theorem dateTableKey_inj (ht : t.FourDigits) (hu : u.FourDigits) :
    dateTableKey t = dateTableKey u ↔ t.seconds = u.seconds := by
  rw [le_antisymm_iff, le_antisymm_iff, dateTableKey_le_iff ht hu, dateTableKey_le_iff hu ht]

/-- The operators of a range ask the same of the keys and of the times. -/
theorem inRange_dateTableKey {operator : ℕ} {a c : Tm} (ha : a.FourDigits) (hc : 6 < operator → c.FourDigits)
    (hu : u.FourDigits) : InRange operator (dateTableKey a) (dateTableKey c) (dateTableKey u) ↔
      InRange operator a.seconds c.seconds u.seconds := by
  have hua := dateTableKey_lt_iff hu ha
  have hau := dateTableKey_lt_iff ha hu
  have hle := dateTableKey_le_iff hu ha
  have hge := dateTableKey_le_iff ha hu
  have heq := dateTableKey_inj hu ha
  match operator, hc with
  | 0, _ => exact Iff.rfl
  | 1, _ => exact hua
  | 2, _ => exact hle
  | 3, _ => exact heq
  | 4, _ => exact not_congr heq
  | 5, _ => exact hge
  | 6, _ => exact hau
  | 7, hc => exact and_congr hau (dateTableKey_lt_iff hu (hc (by decide)))
  | 8, hc => exact and_congr hge (dateTableKey_lt_iff hu (hc (by decide)))
  | 9, hc => exact and_congr hge (dateTableKey_le_iff hu (hc (by decide)))
  | 10, hc => exact and_congr hau (dateTableKey_le_iff hu (hc (by decide)))
  | n + 11, _ => exact Iff.rfl

/-- The ids under the times in range. -/
def DateRangeId (ext : Externals) (table : RangeTable ByteKey) (operator : ℕ) (a c : Tm) (i : ℕ) : Prop :=
  ∃ (u : Tm) (data : Bytes), u.FourDigits ∧ table.fetch (dateTableKey u) = some data ∧
    InRange operator a.seconds c.seconds u.seconds ∧ i ∈ onesOf (ext.funcDecode data)

/-- The keys of a table are those of times with four digits in the year. -/
def DateKeys (table : RangeTable ByteKey) : Prop :=
  ∀ x data, table.fetch x = some data → ∃ u : Tm, u.FourDigits ∧ x = dateTableKey u

theorem rangeId_iff_dateRangeId {ext : Externals} {table : RangeTable ByteKey} (hkeys : DateKeys table) {operator : ℕ}
    {a c : Tm} (ha : a.FourDigits) (hc : 6 < operator → c.FourDigits) (i : ℕ) :
    RangeId ext table operator (dateTableKey a) (dateTableKey c) i ↔ DateRangeId ext table operator a c i := by
  constructor
  · rintro ⟨x, data, hfetch, hrange, hi⟩
    obtain ⟨u, hu, rfl⟩ := hkeys x data hfetch
    exact ⟨u, data, hu, hfetch, (inRange_dateTableKey ha hc hu).1 hrange, hi⟩
  · rintro ⟨u, data, hu, hfetch, hrange, hi⟩
    exact ⟨dateTableKey u, data, hfetch, (inRange_dateTableKey ha hc hu).2 hrange, hi⟩

end

/-- The range component of a search over dates contributes the ids under the times in range, to what was joined
before it and alone; for two bounds, on tables with no id under two keys and no entry of zeroes. -/
theorem dateRangeSearch_exact {ext : Externals} {table : RangeTable ByteKey} (hkeys : DateKeys table) {operator : ℕ}
    (hlow : 1 ≤ operator) (hhigh : operator ≤ 10) {a c : Tm} (ha : a.FourDigits) (hfour : 6 < operator → c.FourDigits)
    {rest : List ByteKey} (hc : 6 < operator → rest.head? = some (dateTableKey c))
    (htwo : 6 < operator → NoZeroEntry ext table ∧ OneKey ext table) :
    (∀ s : Search, s.Fresh → ∀ i, i ∈ leftIds (searchRanges ext table operator (dateTableKey a :: rest) s) ↔
      (0 < s.outsize1 → i ∈ ones s.outsize1 s.bits) ∧ DateRangeId ext table operator a c i) ∧
    ∀ (me : Store) (tp : TriplePattern), tp.isEmpty = true → ∀ i,
      i ∈ (rdfstoreSearchRanges ext table me tp operator (dateTableKey a :: rest)).ids ↔
        DateRangeId ext table operator a c i := by
  constructor
  · intro s hs i
    rw [mem_searchRanges hs hlow hhigh hc htwo, rangeId_iff_dateRangeId hkeys ha hfour]
  · intro me tp htp i
    rw [ids_rdfstoreSearchRanges hhigh htp, mem_searchRanges (fun _ => rfl) hlow hhigh hc htwo,
      rangeId_iff_dateRangeId hkeys ha hfour]
    exact and_iff_right fun h => absurd h (Nat.lt_irrefl 0)

/-- The first seconds of the years 1999 and 2004. -/
def twoDates : RangeTable ByteKey :=
  ⟨[(dateTableKey (gmtime 915148800), [1]), (dateTableKey (gmtime 1072915200), [2])], List.pairwise_pair.2
    ((dateTableKey_lt_iff (gmtime_fourDigits (by decide)) (gmtime_fourDigits (by decide))).2 (by
      rw [(gmtime_spec _).2, (gmtime_spec _).2]
      decide))⟩

/-- What came after the first second of 2000. -/
theorem dateRangeSearch_exact_two :
    {i | i ∈ (rdfstoreSearchRanges asciiExternals twoDates (rdfstoreConnect false false []) noPattern 6
      [dateTableKey (gmtime 946684800)]).ids} =
        {i | DateRangeId asciiExternals twoDates 6 (gmtime 946684800) (gmtime 946684800) i} := by
  have hkeys : DateKeys twoDates := by
    intro x data hfetch
    have hmem : (x, data) ∈ twoDates.entries := Table.fetch_eq_some_iff.1 hfetch
    rcases List.mem_cons.1 hmem with heq | hmem
    · cases heq
      exact ⟨gmtime 915148800, gmtime_fourDigits (by decide), rfl⟩
    · cases List.mem_singleton.1 hmem
      exact ⟨gmtime 1072915200, gmtime_fourDigits (by decide), rfl⟩
  have hids : ∀ i, i ∈ (rdfstoreSearchRanges asciiExternals twoDates (rdfstoreConnect false false []) noPattern 6
      [dateTableKey (gmtime 946684800)]).ids ↔
        DateRangeId asciiExternals twoDates 6 (gmtime 946684800) (gmtime 946684800) i :=
    (dateRangeSearch_exact hkeys (by decide) (by decide) (gmtime_fourDigits (by decide))
      (fun h => absurd h (by decide)) (fun h => absurd h (by decide)) (fun h => absurd h (by decide))).2 _ noPattern rfl
  exact Set.ext hids

end RdfStore
