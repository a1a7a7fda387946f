import RdfStore.Lib.DigitOrder
import RdfStore.Xsd.Instants

/-!
# Keys of dates (`rdfstore_xsd.c`)

A date is written in UTC, its fields from the year down, and read back by the two
recognisers; the table of dates and the time of the last change hold what was
written.  Neither has a comparison of dates: the order is that of the bytes.

    what was written is read back, field by field               (deserialize_serialize)
    four digits in the year → byte order is the order in time   (serializeDateTime_append_lt_iff)
-/

namespace RdfStore

open ByteMem Scanf Gregorian

/-- `rdfstore_xsd_serialize_date`: `strftime` with `"%Y-%m-%dZ"`. -/
def rdfstoreXsdSerializeDate (t : Tm) : Bytes :=
  yearText (t.tmYear + 1900) ++ 45 :: (two (t.tmMon + 1).toNat ++ 45 :: (two t.tmMday.toNat ++ [90]))

/-- The first second of the day. -/
def Tm.midnight (t : Tm) : Tm := ⟨0, 0, 0, t.tmMday, t.tmMon, t.tmYear⟩

/-! ## The parts of a key -/

/-- `yyyy '-' mm '-' dd` -/
def Tm.dayText (t : Tm) : Bytes :=
  yearText (t.tmYear + 1900) ++ 45 :: (two (t.tmMon + 1).toNat ++ 45 :: two t.tmMday.toNat)

/-- `'T' hh ':' mm ':' ss` -/
def Tm.clockText (t : Tm) : Bytes :=
  84 :: (two t.tmHour.toNat ++ 58 :: (two t.tmMin.toNat ++ 58 :: two t.tmSec.toNat))

theorem serializeDateTime_eq (t : Tm) : rdfstoreXsdSerializeDateTime t = (t.dayText ++ t.clockText) ++ [90] := by
  simp [rdfstoreXsdSerializeDateTime, Tm.dayText, Tm.clockText]

theorem serializeDate_eq (t : Tm) : rdfstoreXsdSerializeDate t = t.dayText ++ [90] := by
  simp [rdfstoreXsdSerializeDate, Tm.dayText]

/-- Every field of a valid time but the year has two digits. -/
theorem Tm.Valid.fields_lt {t : Tm} (h : t.Valid) : (t.tmMon + 1).toNat < 100 ∧ t.tmMday.toNat < 100 ∧
    t.tmHour.toNat < 100 ∧ t.tmMin.toNat < 100 ∧ t.tmSec.toNat < 100 := by
  have hmax : ∀ leap : Bool, ∀ m < 12, daysInMonth leap m ≤ 31 := by decide
  have hmon := h.mon
  have hmday := h.mday
  have hhour := h.hour
  have hmin := h.min
  have hsec := h.sec
  have hlast := hmax (isLeap (t.tmYear + 1900)) t.tmMon.toNat (by omega)
  omega

theorem yearText_head (y : ℤ) : ∃ c rest, yearText y = c :: rest ∧ isTrim c = false := by
  unfold yearText
  split
  · exact ⟨45, _, rfl, by decide⟩
  · obtain ⟨c, rest, hcons⟩ := List.exists_cons_of_ne_nil (decimal_ne_nil y.toNat)
    refine ⟨c, rest, hcons, OffsetDateTime.not_trim_of_digit (decimal_digits y.toNat c ?_)⟩
    rw [hcons]
    exact List.mem_cons_self

theorem not_mem_yearText {c : UInt8} (hc : Scanf.isDigit c = false) (h45 : c ≠ 45) (y : ℤ) : c ∉ yearText y := by
  unfold yearText
  split
  · rw [List.mem_cons, not_or]
    exact ⟨h45, OffsetDateTime.not_mem_of_all (decimal_digits _) hc⟩
  · exact OffsetDateTime.not_mem_of_all (decimal_digits _) hc

theorem Tm.Valid.not_mem_dayText {t : Tm} (h : t.Valid) {c : UInt8} (hc : Scanf.isDigit c = false) (h45 : c ≠ 45) :
    c ∉ t.dayText := by
  obtain ⟨hmon, hmday, -⟩ := h.fields_lt
  unfold Tm.dayText
  simp only [List.mem_append, List.mem_cons, not_or]
  exact ⟨not_mem_yearText hc h45 _, h45, OffsetDateTime.not_mem_two hc hmon, h45, OffsetDateTime.not_mem_two hc hmday⟩

theorem Tm.Valid.not_mem_clockText {t : Tm} (h : t.Valid) {c : UInt8} (hc : Scanf.isDigit c = false) (h84 : c ≠ 84)
    (h58 : c ≠ 58) : c ∉ t.clockText := by
  obtain ⟨-, -, hhour, hmin, hsec⟩ := h.fields_lt
  unfold Tm.clockText
  simp only [List.mem_append, List.mem_cons, not_or]
  exact ⟨h84, OffsetDateTime.not_mem_two hc hhour, h58, OffsetDateTime.not_mem_two hc hmin, h58,
    OffsetDateTime.not_mem_two hc hsec⟩

/-! ## Reading a key -/

theorem scan_yearText (y : ℤ) (rest : Bytes) : scanInt none (yearText y ++ 45 :: rest) = some (y, 45 :: rest) := by
  have hrest : NoDigit (45 :: rest) := OffsetDateTime.noDigit_cons (by decide) rest
  unfold yearText
  split
  · next hneg =>
    have hvalue : -(y.natAbs : ℤ) = y := by omega
    rw [List.cons_append, scanInt_minus (decimal_ne_nil _) (decimal_digits _) hrest, value_decimal, hvalue]
  · next hpos =>
    have hvalue : (y.toNat : ℤ) = y := by omega
    rw [scanInt_digits (decimal_ne_nil _) (decimal_digits _) hrest, value_decimal, hvalue]

theorem Tm.Valid.sscanf_dayText {t : Tm} (h : t.Valid) (format : List Directive) (rest : Bytes) :
    sscanf (dateFormat ++ format) (t.dayText ++ rest) =
      (t.tmYear + 1900) :: (t.tmMon + 1) :: t.tmMday :: sscanf format rest := by
  obtain ⟨hmon, hmday, -⟩ := h.fields_lt
  have hmon0 : ((t.tmMon + 1).toNat : ℤ) = t.tmMon + 1 := by have := h.mon; omega
  have hmday0 : (t.tmMday.toNat : ℤ) = t.tmMday := by have := h.mday; omega
  unfold dateFormat Tm.dayText
  simp only [List.cons_append, List.nil_append, List.append_assoc]
  rw [sscanf_int (scan_yearText _ _), sscanf_char, sscanf_int (OffsetDateTime.scanInt_two hmon _), sscanf_char,
    sscanf_int (OffsetDateTime.scanInt_two hmday _), hmon0, hmday0]

theorem Tm.Valid.sscanf_dateTime {t : Tm} (h : t.Valid) (rest : Bytes) :
    sscanf dateTimeFormat ((t.dayText ++ t.clockText) ++ rest) =
      [t.tmYear + 1900, t.tmMon + 1, t.tmMday, t.tmHour, t.tmMin, t.tmSec] := by
  obtain ⟨-, -, hhour, hmin, hsec⟩ := h.fields_lt
  have hhour0 : (t.tmHour.toNat : ℤ) = t.tmHour := by have := h.hour; omega
  have hmin0 : (t.tmMin.toNat : ℤ) = t.tmMin := by have := h.min; omega
  have hsec0 : (t.tmSec.toNat : ℤ) = t.tmSec := by have := h.sec; omega
  unfold dateTimeFormat
  rw [List.append_assoc, h.sscanf_dayText]
  unfold Tm.clockText
  simp only [List.cons_append, List.append_assoc]
  rw [sscanf_char, sscanf_int (OffsetDateTime.scanInt_two hhour _), sscanf_char,
    sscanf_int (OffsetDateTime.scanInt_two hmin _), sscanf_char, sscanf_int (OffsetDateTime.scanInt_two hsec _),
    sscanf, hhour0, hmin0, hsec0]

/-- White space around a text whose first byte is none. -/
structure Padded (lead trail : Bytes) : Prop where
  lead : ∀ c ∈ lead, isTrim c = true
  trail : ∀ c ∈ trail, isTrim c = true

theorem Padded.trimStart_eq {lead trail : Bytes} (h : Padded lead trail) {c : UInt8} (hc : isTrim c = false)
    (rest : Bytes) : trimStart (lead ++ c :: rest) = c :: rest := by
  unfold trimStart
  rw [List.dropWhile_append_of_pos h.lead, List.dropWhile_cons_of_neg (by simp [hc])]

theorem Padded.trimStart_dayText {lead trail : Bytes} (h : Padded lead trail) (t : Tm) (rest : Bytes) :
    trimStart (lead ++ (t.dayText ++ rest)) = t.dayText ++ rest := by
  obtain ⟨c, year, hcons, hc⟩ := yearText_head (t.tmYear + 1900)
  unfold Tm.dayText
  rw [hcons]
  exact h.trimStart_eq hc _

/-- The `Z` stands where the trimmed text ends. -/
theorem Padded.endsWithZ_eq {lead trail : Bytes} (h : Padded lead trail) {body : Bytes} (hbody : 90 ∉ body) :
    endsWithZ (body ++ 90 :: trail) = true := by
  have hreverse : (body ++ 90 :: trail).reverse = trail.reverse ++ 90 :: body.reverse := by simp
  unfold endsWithZ trimmedLength
  rw [List.idxOf_append_of_notMem hbody, List.idxOf_cons_self, hreverse,
    List.dropWhile_append_of_pos fun c hc => h.trail c (List.mem_reverse.1 hc),
    List.dropWhile_cons_of_neg (by decide)]
  simp

/-- A valid time and a `Z` at the end are taken as they are. -/
theorem deserialize_utc {clock : Clock} (hzone : zoneDifference clock ≠ .ok (-1)) {val : Tm}
    (hmon : 0 ≤ val.tmMon ∧ val.tmMon ≤ 11) : deserialize clock (some (val, .utc true)) = .ok (some val) := by
  obtain ⟨d, hd⟩ := zoneDifference_ok clock
  obtain ⟨tt, htt⟩ := rdfstoreXsdMktime_ok hmon
  have hpos := rdfstoreXsdMktime_nonneg htt
  have hd1 : d ≠ -1 := by
    rintro rfl
    exact hzone hd
  unfold deserialize
  rw [hd]
  simp only [bind, Except.bind]
  rw [if_neg hd1]
  unfold finish
  rw [htt]
  simp only [bind, Except.bind]
  rw [if_neg (by simp; omega)]
  rfl

theorem deserialize_none (clock : Clock) : deserialize clock none = .ok none := by
  obtain ⟨d, hd⟩ := zoneDifference_ok clock
  unfold deserialize
  rw [hd]
  simp only [bind, Except.bind]
  split <;> rfl

section Reading

variable {clock : Clock} {t : Tm} {lead trail : Bytes}

theorem deserializeDateTime_key (hzone : zoneDifference clock ≠ .ok (-1)) (h : t.Valid) (hpad : Padded lead trail) :
    rdfstoreXsdDeserializeDateTime clock (lead ++ (rdfstoreXsdSerializeDateTime t ++ trail)) = .ok (some t) := by
  have hbody : 90 ∉ t.dayText ++ t.clockText := by
    rw [List.mem_append, not_or]
    exact ⟨h.not_mem_dayText (by decide) (by decide), h.not_mem_clockText (by decide) (by decide) (by decide)⟩
  have hstart := hpad.trimStart_dayText t (t.clockText ++ 90 :: trail)
  have hfields : (⟨t.tmSec, t.tmMin, t.tmHour, t.tmMday, t.tmMon + 1 - 1, t.tmYear + 1900 - 1900⟩ : Tm) = t := by
    rw [Int.add_sub_cancel, Int.add_sub_cancel]
  rw [serializeDateTime_eq, List.append_assoc _ [90], List.singleton_append, List.append_assoc t.dayText]
  have hscan : scanDateTime (lead ++ (t.dayText ++ (t.clockText ++ 90 :: trail))) = some (t, .utc true) := by
    unfold scanDateTime
    simp only [hstart]
    rw [← List.append_assoc, h.sscanf_dateTime]
    simp only [hfields, hpad.endsWithZ_eq hbody]
    rw [if_pos (by simp)]
  unfold rdfstoreXsdDeserializeDateTime
  rw [hscan]
  exact deserialize_utc hzone h.mon

/-- A day with a `Z` at the end of the text, whatever stands between them. -/
theorem deserializeDate_key (hzone : zoneDifference clock ≠ .ok (-1)) (front : ℕ → UInt8) (h : t.Valid)
    (hpad : Padded lead trail) {rest : Bytes} (hrest : 90 ∉ rest) :
    rdfstoreXsdDeserializeDate clock front (lead ++ (t.dayText ++ (rest ++ 90 :: trail))) = .ok (some t.midnight) := by
  have hbody : 90 ∉ t.dayText ++ rest := by
    rw [List.mem_append, not_or]
    exact ⟨h.not_mem_dayText (by decide) (by decide), hrest⟩
  have hstart := hpad.trimStart_dayText t (rest ++ 90 :: trail)
  have hformat : dateFormat = dateFormat ++ [] := (List.append_nil _).symm
  have hmidnight : (⟨0, 0, 0, t.tmMday, t.tmMon + 1 - 1, t.tmYear + 1900 - 1900⟩ : Tm) = t.midnight := by
    rw [Int.add_sub_cancel, Int.add_sub_cancel]
    rfl
  have hscan : scanDate front (lead ++ (t.dayText ++ (rest ++ 90 :: trail))) = some (t.midnight, .utc true) := by
    unfold scanDate
    simp only [hstart]
    rw [hformat, h.sscanf_dayText, ← List.append_assoc]
    simp only [sscanf, hmidnight, hpad.endsWithZ_eq hbody]
    rw [if_pos (by simp)]
  unfold rdfstoreXsdDeserializeDate
  rw [hscan]
  exact deserialize_utc hzone h.mon

theorem deserializeDateTime_date (clock : Clock) (h : t.Valid) (hpad : Padded lead trail) :
    rdfstoreXsdDeserializeDateTime clock (lead ++ (rdfstoreXsdSerializeDate t ++ trail)) = .ok none := by
  have hstart := hpad.trimStart_dayText t (90 :: trail)
  have hscan : scanDateTime (lead ++ (t.dayText ++ 90 :: trail)) = none := by
    unfold scanDateTime dateTimeFormat
    simp only [hstart]
    rw [h.sscanf_dayText]
    rfl
  unfold rdfstoreXsdDeserializeDateTime
  rw [serializeDate_eq, List.append_assoc _ [90], List.singleton_append, hscan]
  exact deserialize_none clock

end Reading

/-- A key is read back with all its fields, a date of it with the day; the recogniser of times takes no date. -/
theorem deserialize_serialize {clock : Clock} (hzone : zoneDifference clock ≠ .ok (-1)) (front : ℕ → UInt8) {t : Tm}
    (h : t.Valid) {lead trail : Bytes} (hpad : Padded lead trail) :
    rdfstoreXsdDeserializeDateTime clock (lead ++ (rdfstoreXsdSerializeDateTime t ++ trail)) = .ok (some t) ∧
    rdfstoreXsdDeserializeDate clock front (lead ++ (rdfstoreXsdSerializeDateTime t ++ trail)) =
      .ok (some t.midnight) ∧
    rdfstoreXsdDeserializeDate clock front (lead ++ (rdfstoreXsdSerializeDate t ++ trail)) = .ok (some t.midnight) ∧
    rdfstoreXsdDeserializeDateTime clock (lead ++ (rdfstoreXsdSerializeDate t ++ trail)) = .ok none := by
  refine ⟨deserializeDateTime_key hzone h hpad, ?_, ?_, deserializeDateTime_date clock h hpad⟩
  · have hread := deserializeDate_key hzone front h hpad (h.not_mem_clockText (by decide) (by decide) (by decide))
    rwa [serializeDateTime_eq, List.append_assoc _ [90], List.singleton_append, List.append_assoc t.dayText]
  · have hread : rdfstoreXsdDeserializeDate clock front (lead ++ (t.dayText ++ ([] ++ 90 :: trail))) = _ :=
      deserializeDate_key hzone front h hpad List.not_mem_nil
    rw [List.nil_append] at hread
    rwa [serializeDate_eq, List.append_assoc _ [90], List.singleton_append]

/-- The leap day, and a line end behind it. -/
theorem deserialize_serialize_leap_day :
    rdfstoreXsdDeserializeDateTime (utcClock 0)
      ([32] ++ (rdfstoreXsdSerializeDateTime ⟨0, 0, 12, 29, 1, 100⟩ ++ [10])) = .ok (some ⟨0, 0, 12, 29, 1, 100⟩) :=
  (deserialize_serialize (show zoneDifference (utcClock 0) ≠ .ok (-1) by decide +kernel) (fun _ => 0)
    ⟨by decide, by decide, by decide, by decide, by decide⟩
    ⟨List.forall_mem_singleton.2 (by decide), List.forall_mem_singleton.2 (by decide)⟩).1

/-! ## The order of the keys -/

/-- A time with four digits in the year, and no leap second. -/
structure Tm.FourDigits (t : Tm) : Prop extends t.Valid where
  year : 1000 ≤ t.tmYear + 1900 ∧ t.tmYear + 1900 ≤ 9999
  sec_le : t.tmSec ≤ 59

/-- The earlier year, or in it the earlier month, and so on. -/
def Tm.Before (t u : Tm) : Prop :=
  t.tmYear < u.tmYear ∨ t.tmYear = u.tmYear ∧ (t.tmMon < u.tmMon ∨ t.tmMon = u.tmMon ∧
    (t.tmMday < u.tmMday ∨ t.tmMday = u.tmMday ∧ (t.tmHour < u.tmHour ∨ t.tmHour = u.tmHour ∧
      (t.tmMin < u.tmMin ∨ t.tmMin = u.tmMin ∧ t.tmSec < u.tmSec))))

/-- The day of a time. -/
def Tm.date (t : Tm) : Date := ⟨t.tmYear + 1900, t.tmMon.toNat, t.tmMday⟩

theorem Tm.Valid.date_valid {t : Tm} (h : t.Valid) : t.date.Valid := by
  have hmon := h.mon
  refine ⟨?_, h.mday.1, h.mday.2⟩
  unfold Tm.date
  dsimp only
  omega

theorem Tm.FourDigits.seconds_lt_iff {t u : Tm} (ht : t.FourDigits) (hu : u.FourDigits) :
    t.seconds < u.seconds ↔ t.Before u := by
  have hlt := dayNumber_lt_iff ht.date_valid hu.date_valid
  have hgt := dayNumber_lt_iff hu.date_valid ht.date_valid
  have hmon := ht.mon
  have hhour := ht.hour
  have hmin := ht.min
  have hsec := ht.sec
  have hlast := ht.sec_le
  have hmon' := hu.mon
  have hhour' := hu.hour
  have hmin' := hu.min
  have hsec' := hu.sec
  have hlast' := hu.sec_le
  have hseconds : ∀ v : Tm, v.seconds = 86400 * dayNumber v.date + 3600 * v.tmHour + 60 * v.tmMin + v.tmSec :=
    fun v => rfl
  rw [hseconds, hseconds]
  simp only [Date.Before, Tm.date] at hlt hgt
  simp only [Tm.date, Tm.Before]
  generalize dayNumber ⟨t.tmYear + 1900, t.tmMon.toNat, t.tmMday⟩ = n at *
  generalize dayNumber ⟨u.tmYear + 1900, u.tmMon.toNat, u.tmMday⟩ = m at *
  rcases lt_trichotomy n m with h | h | h
  · have hday := hlt.1 h
    exact iff_of_true (by omega) (by omega)
  · have hday : t.tmYear = u.tmYear ∧ t.tmMon = u.tmMon ∧ t.tmMday = u.tmMday := by
      have hnot := mt hlt.2 (by omega)
      have hnot' := mt hgt.2 (by omega)
      clear hlt hgt
      omega
    clear hlt hgt
    omega
  · have hday := hgt.1 h
    exact iff_of_false (by omega) (by omega)

theorem two_append_lt_iff {m n : ℤ} (hm : 0 ≤ m) (hm' : m.toNat < 100) (hn : 0 ≤ n) (hn' : n.toNat < 100)
    (x y : Bytes) : two m.toNat ++ x < two n.toNat ++ y ↔ m < n ∨ m = n ∧ x < y := by
  obtain ⟨hvalue, hdigits⟩ := OffsetDateTime.two_digits hm'
  obtain ⟨hvalue', hdigits'⟩ := OffsetDateTime.two_digits hn'
  have hlt : m.toNat < n.toNat ↔ m < n := by omega
  have heq : m.toNat = n.toNat ↔ m = n := by omega
  rw [digits_append_lt_iff (show (two m.toNat).length = (two n.toNat).length from rfl) hdigits hdigits', hvalue,
    hvalue', hlt, heq]

theorem length_yearText {y : ℤ} (h : 1000 ≤ y ∧ y ≤ 9999) : yearText y = decimal y.toNat ∧
    (decimal y.toNat).length = 4 := by
  have hlow : 3 < (decimal y.toNat).length := length_decimal (by omega)
  have hhigh : (decimal y.toNat).length ≤ 4 := by
    unfold decimal
    rw [List.length_map]
    exact (Nat.length_toDigits_le_iff (by decide) (by decide)).2 (by omega)
  unfold yearText
  rw [if_neg (by omega)]
  exact ⟨rfl, by omega⟩

theorem yearText_append_lt_iff {y z : ℤ} (hy : 1000 ≤ y ∧ y ≤ 9999) (hz : 1000 ≤ z ∧ z ≤ 9999) (a b : Bytes) :
    yearText y ++ a < yearText z ++ b ↔ y < z ∨ y = z ∧ a < b := by
  obtain ⟨htext, hlen⟩ := length_yearText hy
  obtain ⟨htext', hlen'⟩ := length_yearText hz
  have hlt : y.toNat < z.toNat ↔ y < z := by omega
  have heq : y.toNat = z.toNat ↔ y = z := by omega
  rw [htext, htext', digits_append_lt_iff (hlen.trans hlen'.symm) (decimal_digits _) (decimal_digits _),
    value_decimal, value_decimal, hlt, heq]

/-- The bytes of two keys, with the same bytes behind them, are in the order in time. -/
theorem serializeDateTime_append_lt_iff {t u : Tm} (ht : t.FourDigits) (hu : u.FourDigits) (rest : Bytes) :
    rdfstoreXsdSerializeDateTime t ++ rest < rdfstoreXsdSerializeDateTime u ++ rest ↔ t.seconds < u.seconds := by
  obtain ⟨hmon, hmday, hhour, hmin, hsec⟩ := ht.fields_lt
  obtain ⟨hmon', hmday', hhour', hmin', hsec'⟩ := hu.fields_lt
  have hmon0 : 0 ≤ t.tmMon + 1 := by have := ht.mon.1; omega
  have hmon0' : 0 ≤ u.tmMon + 1 := by have := hu.mon.1; omega
  have hmday0 : 0 ≤ t.tmMday := by have := ht.mday.1; omega
  have hmday0' : 0 ≤ u.tmMday := by have := hu.mday.1; omega
  have hirrefl : ¬ 90 :: rest < 90 :: rest := List.lt_irrefl _
  rw [ht.seconds_lt_iff hu]
  unfold rdfstoreXsdSerializeDateTime Tm.Before
  simp only [List.append_assoc, List.cons_append, List.nil_append]
  rw [yearText_append_lt_iff ht.year hu.year, cons_lt_cons_self, two_append_lt_iff hmon0 hmon hmon0' hmon',
    cons_lt_cons_self, two_append_lt_iff hmday0 hmday hmday0' hmday', cons_lt_cons_self,
    two_append_lt_iff ht.hour.1 hhour hu.hour.1 hhour', cons_lt_cons_self,
    two_append_lt_iff ht.min.1 hmin hu.min.1 hmin', cons_lt_cons_self,
    two_append_lt_iff ht.sec.1 hsec hu.sec.1 hsec']
  simp only [hirrefl, and_false, or_false, add_lt_add_iff_right, add_left_inj]

/-- Five digits come before four of them. -/
example : rdfstoreXsdSerializeDateTime ⟨0, 0, 0, 1, 0, 8100⟩ < rdfstoreXsdSerializeDateTime ⟨0, 0, 0, 1, 0, 8099⟩ := by
  decide +kernel

/-! ## Times of the clock -/

/-- A time from 1970 to the end of the year 9999 has four digits in the year. -/
theorem gmtime_fourDigits {time : ℤ} (h : 0 ≤ time ∧ time < 253402300800) : (gmtime time).FourDigits := by
  obtain ⟨hvalid, hseconds⟩ := gmtime_spec time
  have hlow : 1570 ≤ (gmtime time).tmYear + 1900 := le_gmtime_year (by omega)
  have hhigh : (gmtime time).tmYear + 1900 ≤ 9999 := by
    by_contra hlarge
    have hmonths := daysToMonth_nonneg (isLeap ((gmtime time).tmYear + 1900)) (gmtime time).tmMon.toNat
    have hday := hvalid.mday.1
    have hhour := hvalid.hour.1
    have hmin := hvalid.min.1
    have hsec := hvalid.sec.1
    simp only [Tm.seconds, dayNumber, daysToYear_eq] at hseconds
    omega
  refine ⟨hvalid, by omega, ?_⟩
  show time % 86400 % 60 ≤ 59
  omega

end RdfStore
