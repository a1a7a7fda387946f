import RdfStore.Xsd.Dates

/-!
# The instant of a dateTime with an offset (`rdfstore_xsd.c`)

`rdfstore_xsd_deserialize_dateTime` adds the offset `+hh:mm` to the local time
and takes `-hh:mm` from it; the instant of such a text is the local time less the
offset.  A year before 1970 counts as 1970-01-01T00:00:00.

    the answer is the time of (local or 0) + offset             (deserializeDateTime_text)
    it is the instant of the text ↔ that sum is local - offset  (keepsInstant_iff)
-/

namespace RdfStore

open ByteMem Scanf Gregorian

/-! ## Texts -/

/-- `%02d` -/
def two (n : ℕ) : Bytes := [(48 + n / 10).toUInt8, (48 + n % 10).toUInt8]

/-- An `xsd:dateTime` with an offset, all fields in range, white space around it. -/
structure OffsetDateTime where
  lead : Bytes
  negative : Bool
  yearDigits : Bytes
  month : ℕ
  day : ℕ
  hour : ℕ
  minute : ℕ
  second : ℕ
  fraction : Bytes
  west : Bool
  offHour : ℕ
  offMinute : ℕ
  trail : Bytes
  lead_trim : ∀ c ∈ lead, isTrim c = true
  trail_trim : ∀ c ∈ trail, isTrim c = true
  year_length : 4 ≤ yearDigits.length
  year_digits : ∀ c ∈ yearDigits, Scanf.isDigit c = true
  fraction_digits : ∀ c ∈ fraction, Scanf.isDigit c = true
  month_range : 1 ≤ month ∧ month ≤ 12
  day_range : 1 ≤ day ∧ (day : ℤ) ≤
    daysInMonth (isLeap (if negative then -(value yearDigits : ℤ) else value yearDigits)) (month - 1)
  hour_lt : hour < 24
  minute_lt : minute < 60
  second_lt : second < 60
  offHour_lt : offHour < 24
  offMinute_lt : offMinute < 60

namespace OffsetDateTime

variable (t : OffsetDateTime)

def year : ℤ := if t.negative then -(value t.yearDigits : ℤ) else value t.yearDigits

/-- `'-'? yyyy '-' mm '-' dd` -/
def dateText : Bytes :=
  (if t.negative then [45] else []) ++ (t.yearDigits ++ 45 :: (two t.month ++ 45 :: two t.day))

/-- `'T' hh ':' mm ':' ss ('.' s+)?` -/
def timeText : Bytes :=
  84 :: (two t.hour ++ 58 :: (two t.minute ++ 58 :: (two t.second ++
    (if t.fraction = [] then [] else 46 :: t.fraction))))

/-- `('+' | '-') hh ':' mm` and what follows. -/
def zoneText : Bytes :=
  (if t.west then 45 else 43) :: (two t.offHour ++ 58 :: (two t.offMinute ++ t.trail))

def text : Bytes := t.lead ++ (t.dateText ++ (t.timeText ++ t.zoneText))

/-- The fields of the local time. -/
def fields : Tm := ⟨t.second, t.minute, t.hour, t.day, (t.month : ℤ) - 1, t.year - 1900⟩

/-- Seconds east of UTC. -/
def offset : ℤ := if t.west then -(3600 * t.offHour + 60 * t.offMinute : ℤ) else 3600 * t.offHour + 60 * t.offMinute

/-- The UTC instant: the local time less the offset. -/
def instant : ℤ := t.fields.seconds - t.offset

theorem fields_valid : t.fields.Valid := by
  have hmonth := t.month_range
  have hhour := t.hour_lt
  have hminute := t.minute_lt
  have hsecond := t.second_lt
  have hday := t.day_range
  unfold fields
  refine ⟨?_, ?_, ?_, ?_, ?_⟩
  · dsimp only
    omega
  · dsimp only
    rw [sub_add_cancel, show ((t.month : ℤ) - 1).toNat = t.month - 1 by omega]
    exact ⟨by omega, hday.2⟩
  · dsimp only
    omega
  · dsimp only
    omega
  · dsimp only
    omega

theorem day_lt : t.day < 100 := by
  have hday := t.day_range.2
  have hmax : ∀ leap : Bool, ∀ m < 12, daysInMonth leap m ≤ 31 := by decide
  have hlast := hmax (isLeap (if t.negative then -(value t.yearDigits : ℤ) else value t.yearDigits)) (t.month - 1)
    (by have := t.month_range; omega)
  omega

/-- No offset is more than a day. -/
theorem le_offset : -86400 ≤ t.offset := by
  have hhour := t.offHour_lt
  have hminute := t.offMinute_lt
  unfold offset
  split_ifs <;> omega

/-! ## The scan -/

theorem two_digits {n : ℕ} (h : n < 100) : (value (two n) = n) ∧ ∀ c ∈ two n, Scanf.isDigit c = true := by
  have hall : ∀ n < 100, value (two n) = n ∧ (two n).all Scanf.isDigit = true := by decide
  obtain ⟨hvalue, hdigits⟩ := hall n h
  exact ⟨hvalue, List.all_eq_true.1 hdigits⟩

theorem scanInt_two {n : ℕ} (h : n < 100) (rest : Bytes) :
    scanInt (some 2) (two n ++ rest) = some ((n : ℤ), rest) := by
  obtain ⟨hvalue, hdigits⟩ := two_digits h
  have hscan := scanInt_width (show two n ≠ [] by simp [two]) hdigits rest
  rwa [hvalue] at hscan

theorem noDigit_cons {c : UInt8} (h : Scanf.isDigit c = false) (rest : Bytes) : NoDigit (c :: rest) := by
  rintro d ⟨⟩
  exact h

theorem scan_year (rest : Bytes) :
    scanInt none ((if t.negative then [45] else []) ++ (t.yearDigits ++ 45 :: rest)) = some (t.year, 45 :: rest) := by
  have hne : t.yearDigits ≠ [] := by
    intro h
    have hlen := t.year_length
    rw [h] at hlen
    exact absurd hlen (by decide)
  have hrest : NoDigit (45 :: rest) := noDigit_cons (by decide) rest
  unfold year
  cases t.negative with
  | false => exact scanInt_digits hne t.year_digits hrest
  | true => exact scanInt_minus hne t.year_digits hrest

/-- The six fields, whatever follows. -/
theorem sscanf_fields : sscanf dateTimeFormat (t.dateText ++ (t.timeText ++ t.zoneText)) =
    [t.year, (t.month : ℤ), (t.day : ℤ), (t.hour : ℤ), (t.minute : ℤ), (t.second : ℤ)] := by
  have hmonth := t.month_range
  have hday := t.day_lt
  have hhour := t.hour_lt
  have hminute := t.minute_lt
  have hsecond := t.second_lt
  unfold dateTimeFormat dateFormat dateText timeText
  simp only [List.cons_append, List.nil_append, List.append_assoc]
  rw [sscanf_int (t.scan_year _), sscanf_char, sscanf_int (scanInt_two (by omega) _), sscanf_char,
    sscanf_int (scanInt_two (by omega) _), sscanf_char, sscanf_int (scanInt_two (by omega) _), sscanf_char,
    sscanf_int (scanInt_two (by omega) _), sscanf_char, sscanf_int (scanInt_two (by omega) _), sscanf]

/-! ## The parts of the text -/

/-- The other bytes of a text are no digits, and no white space. -/
theorem not_mem_two {c : UInt8} (hc : Scanf.isDigit c = false) {n : ℕ} (h : n < 100) : c ∉ two n := by
  intro hmem
  have hdigit := (two_digits h).2 c hmem
  rw [hc] at hdigit
  exact absurd hdigit (by decide)

theorem not_mem_of_all {q : UInt8 → Bool} {l : Bytes} (h : ∀ c ∈ l, q c = true) {c : UInt8} (hc : q c = false) :
    c ∉ l := by
  intro hmem
  rw [h c hmem] at hc
  exact absurd hc (by decide)

/-- Neither a digit nor the sign or the separator of a date. -/
theorem not_mem_dateText {c : UInt8} (hc : Scanf.isDigit c = false) (h45 : c ≠ 45) : c ∉ t.dateText := by
  have hmonth := t.month_range
  have hyear := not_mem_of_all t.year_digits hc
  have hsign : c ∉ (if t.negative then [45] else []) := by
    cases t.negative with
    | false => exact List.not_mem_nil
    | true => simpa using h45
  unfold dateText
  simp only [List.mem_append, List.mem_cons, not_or]
  exact ⟨hsign, hyear, h45, not_mem_two hc (by omega), h45, not_mem_two hc t.day_lt⟩

theorem not_mem_timeText {c : UInt8} (hc : Scanf.isDigit c = false) (h84 : c ≠ 84) (h58 : c ≠ 58) (h46 : c ≠ 46) :
    c ∉ t.timeText := by
  have hhour := t.hour_lt
  have hminute := t.minute_lt
  have hsecond := t.second_lt
  have hfraction : c ∉ (if t.fraction = [] then [] else 46 :: t.fraction) := by
    split_ifs
    · exact List.not_mem_nil
    · rw [List.mem_cons, not_or]
      exact ⟨h46, not_mem_of_all t.fraction_digits hc⟩
  unfold timeText
  simp only [List.mem_append, List.mem_cons, not_or]
  exact ⟨h84, not_mem_two hc (by omega), h58, not_mem_two hc (by omega), h58, not_mem_two hc (by omega), hfraction⟩

theorem not_mem_trailing {c : UInt8} (hc : Scanf.isDigit c = false) (htrim : isTrim c = false) :
    c ∉ two t.offMinute ++ t.trail := by
  have hminute := t.offMinute_lt
  rw [List.mem_append, not_or]
  exact ⟨not_mem_two hc (by omega), not_mem_of_all t.trail_trim htrim⟩

theorem not_mem_zoneText {c : UInt8} (hc : Scanf.isDigit c = false) (htrim : isTrim c = false) (h58 : c ≠ 58)
    (hsign : c ≠ if t.west then 45 else 43) : c ∉ t.zoneText := by
  have hhour := t.offHour_lt
  have htrailing := t.not_mem_trailing hc htrim
  rw [List.mem_append, not_or] at htrailing
  unfold zoneText
  simp only [List.mem_append, List.mem_cons, not_or]
  exact ⟨hsign, not_mem_two hc (by omega), h58, htrailing.1, htrailing.2⟩

theorem not_trim_of_digit {c : UInt8} (h : Scanf.isDigit c = true) : isTrim c = false := by
  by_contra htrim
  rw [Bool.not_eq_false, isTrim] at htrim
  simp only [Bool.or_eq_true, decide_eq_true_eq] at htrim
  rcases htrim with (((rfl | rfl) | rfl) | rfl) | rfl
  all_goals exact absurd h (by decide)

theorem trimStart_text : trimStart t.text = t.dateText ++ (t.timeText ++ t.zoneText) := by
  unfold trimStart text
  rw [List.dropWhile_append_of_pos t.lead_trim]
  have hhead : ∃ c rest, t.dateText ++ (t.timeText ++ t.zoneText) = c :: rest ∧ isTrim c = false := by
    unfold dateText
    cases t.negative with
    | true => exact ⟨45, _, rfl, by decide⟩
    | false =>
      obtain ⟨c, tail, hyear⟩ := List.exists_cons_of_length_pos (l := t.yearDigits) (by have := t.year_length; omega)
      refine ⟨c, _, by rw [hyear]; rfl, ?_⟩
      exact not_trim_of_digit (t.year_digits c (by rw [hyear]; exact List.mem_cons_self))
  obtain ⟨c, rest, hcons, htrim⟩ := hhead
  rw [hcons, List.dropWhile_cons_of_neg (by simp [htrim])]

/-- The bytes after the last colon are the minutes of the offset. -/
theorem strrchr_append {c : UInt8} (head : Bytes) {tail : Bytes} (h : c ∉ tail) :
    strrchr (head ++ c :: tail) c = some head.length := by
  have hreverse : (head ++ c :: tail).reverse = tail.reverse ++ c :: head.reverse := by simp
  unfold strrchr
  rw [if_pos (by simp), hreverse, List.idxOf_append_of_notMem (by simpa using h), List.idxOf_cons_self]
  simp only [List.length_append, List.length_cons, List.length_reverse]
  congr 1
  omega

theorem strpbrk_append {c : UInt8} {head : Bytes} (h : c ∉ head) (tail : Bytes) :
    strpbrk (head ++ c :: tail) c = some (c :: tail) := by
  unfold strpbrk
  rw [if_pos (by simp), List.dropWhile_append_of_pos, List.dropWhile_cons_of_neg (by simp)]
  intro d hd
  rw [decide_eq_true_iff]
  rintro rfl
  exact h hd

theorem scanDateTime_text : scanDateTime t.text = some (t.fields, .offset (some t.zoneText)) := by
  have hz : 90 ∉ t.dateText ++ (t.timeText ++ t.zoneText) := by
    rw [List.mem_append, List.mem_append, not_or, not_or]
    refine ⟨t.not_mem_dateText (by decide) (by decide),
      t.not_mem_timeText (by decide) (by decide) (by decide) (by decide),
      t.not_mem_zoneText (by decide) (by decide) (by decide) ?_⟩
    split_ifs <;> decide
  have htime : (t.dateText ++ (t.timeText ++ t.zoneText)).dropWhile (· ≠ 84) = t.timeText ++ t.zoneText := by
    rw [List.dropWhile_append_of_pos]
    · unfold timeText
      rw [List.cons_append, List.dropWhile_cons_of_neg (by simp)]
    · intro d hd
      rw [decide_eq_true_iff]
      rintro rfl
      exact t.not_mem_dateText (by decide) (by decide) hd
  have hlen : ∃ len, strrchr (t.timeText ++ t.zoneText) 58 = some len ∧ 6 < len := by
    have hsplit : t.timeText ++ t.zoneText =
        (t.timeText ++ (if t.west then 45 else 43) :: two t.offHour) ++ 58 :: (two t.offMinute ++ t.trail) := by
      simp [zoneText]
    refine ⟨_, by rw [hsplit]; exact strrchr_append _ (t.not_mem_trailing (by decide) (by decide)), ?_⟩
    simp only [timeText, two, List.length_append, List.length_cons]
    omega
  obtain ⟨len, hrchr, hlt⟩ := hlen
  have hsign : (strpbrk (t.timeText ++ t.zoneText) 43).or (strpbrk (t.timeText ++ t.zoneText) 45) = some t.zoneText := by
    by_cases hwest : t.west = true
    · have hzone : t.zoneText = 45 :: (two t.offHour ++ 58 :: (two t.offMinute ++ t.trail)) := by
        rw [zoneText, if_pos hwest]
      have hplus : 43 ∉ t.timeText ++ t.zoneText := by
        rw [List.mem_append, not_or]
        refine ⟨t.not_mem_timeText (by decide) (by decide) (by decide) (by decide),
          t.not_mem_zoneText (by decide) (by decide) (by decide) ?_⟩
        rw [if_pos hwest]
        decide
      have hnone : strpbrk (t.timeText ++ t.zoneText) 43 = none := if_neg hplus
      rw [hnone, Option.none_or, hzone,
        strpbrk_append (t.not_mem_timeText (by decide) (by decide) (by decide) (by decide))]
    · have hzone : t.zoneText = 43 :: (two t.offHour ++ 58 :: (two t.offMinute ++ t.trail)) := by
        rw [zoneText, if_neg hwest]
      rw [hzone, strpbrk_append (t.not_mem_timeText (by decide) (by decide) (by decide) (by decide)),
        Option.some_or]
  unfold scanDateTime
  simp only [t.trimStart_text, t.sscanf_fields, hz, htime, hrchr, hsign, Option.getD_some, hlt, if_true, if_false]
  rfl

/-! ## The answer -/

/-- The seconds the code counts for the local time: a year before 1970 is a bad date, which is 0. -/
def counted : ℤ := if t.year < 1970 then 0 else t.fields.seconds

theorem mktime_fields : rdfstoreXsdMktime t.fields = .ok t.counted := by
  unfold counted
  by_cases hyear : t.year < 1970
  · rw [if_pos hyear, rdfstoreXsdMktime, if_pos]
    · rfl
    · show t.year - 1900 < 70
      omega
  · rw [if_neg hyear]
    refine rdfstoreXsdMktime_eq_seconds ?_ t.fields_valid
    show 1970 ≤ t.year - 1900 + 1900
    omega

theorem addOffset_zoneText (timestamp : ℤ) : addOffset timestamp t.zoneText = some (timestamp + t.offset) := by
  have hhour := t.offHour_lt
  have hminute := t.offMinute_lt
  have hscan : sscanf offsetFormat t.zoneText.tail = [(t.offHour : ℤ), (t.offMinute : ℤ)] := by
    unfold zoneText offsetFormat
    rw [List.tail_cons, sscanf_int (scanInt_two (by omega) _), sscanf_char,
      sscanf_int (scanInt_two (by omega) _), sscanf]
  unfold addOffset offset
  rw [hscan]
  dsimp only
  by_cases hwest : t.west = true
  · have hplus : 43 ∉ t.zoneText := by
      refine t.not_mem_zoneText (by decide) (by decide) (by decide) ?_
      rw [if_pos hwest]
      decide
    rw [if_neg hplus, if_pos hwest]
    congr 1
    omega
  · have hplus : 43 ∈ t.zoneText := by
      rw [zoneText, if_neg hwest]
      exact List.mem_cons_self
    rw [if_pos hplus, if_neg hwest]
    congr 1
    omega

theorem deserializeDateTime_text (now : ℤ) :
    rdfstoreXsdDeserializeDateTime (utcClock now) t.text = .ok (some (gmtime (t.counted + t.offset))) := by
  have hcounted := rdfstoreXsdMktime_nonneg t.mktime_fields
  obtain ⟨d, hd⟩ := rdfstoreXsdMktime_ok (gmtime_spec now).1.mon
  obtain ⟨s, hs⟩ := rdfstoreXsdMktime_ok (gmtime_spec (t.counted + t.offset)).1.mon
  have hspos := rdfstoreXsdMktime_nonneg hs
  have hzone : zoneDifference (utcClock now) = .ok 0 := by
    unfold zoneDifference utcClock
    dsimp only
    rw [hd]
    show Except.ok (d - d) = .ok 0
    rw [sub_self]
  unfold rdfstoreXsdDeserializeDateTime deserialize
  rw [hzone, t.scanDateTime_text]
  simp only [bind, Except.bind, finish, t.mktime_fields, t.addOffset_zoneText]
  rw [if_neg (by decide), if_neg (by omega)]
  show (rdfstoreXsdMktime (gmtime (t.counted + t.offset)) >>= _) = _
  rw [hs]
  show Except.ok (if s = -1 then none else _) = _
  rw [if_neg (by omega)]
  rfl

end OffsetDateTime

/-! ## Keys -/

/-- `%Y` -/
def yearText (year : ℤ) : Bytes := if year < 0 then 45 :: decimal year.natAbs else decimal year.toNat

/-- `rdfstore_xsd_serialize_dateTime`: `strftime` with `"%Y-%m-%dT%H:%M:%SZ"`, for the fields of a time. -/
def rdfstoreXsdSerializeDateTime (t : Tm) : Bytes :=
  yearText (t.tmYear + 1900) ++ 45 :: (two (t.tmMon + 1).toNat ++ 45 :: (two t.tmMday.toNat ++ 84 ::
    (two t.tmHour.toNat ++ 58 :: (two t.tmMin.toNat ++ 58 :: (two t.tmSec.toNat ++ [90])))))

/-- A canonical `xsd:dateTime`, `yyyy '-' mm '-' dd 'T' hh ':' mm ':' ss 'Z'`, and its instant. -/
def DenotesUtc (key : Bytes) (instant : ℤ) : Prop :=
  ∃ (yearDigits : Bytes) (month day hour minute second : ℕ),
    4 ≤ yearDigits.length ∧ (∀ c ∈ yearDigits, Scanf.isDigit c = true) ∧
    key = yearDigits ++ 45 :: (two month ++ 45 :: (two day ++ 84 ::
      (two hour ++ 58 :: (two minute ++ 58 :: (two second ++ [90]))))) ∧
    Tm.Valid ⟨second, minute, hour, day, (month : ℤ) - 1, (value yearDigits : ℤ) - 1900⟩ ∧
    Tm.seconds ⟨second, minute, hour, day, (month : ℤ) - 1, (value yearDigits : ℤ) - 1900⟩ = instant

/-- The key of a time from the year 1000 on denotes it. -/
theorem serializeDateTime_denotes {t : Tm} (h : t.Valid) (hyear : 1000 ≤ t.tmYear + 1900) :
    DenotesUtc (rdfstoreXsdSerializeDateTime t) t.seconds := by
  have hmon := h.mon.1
  have hmday := h.mday.1
  have hhour := h.hour.1
  have hmin := h.min.1
  have hsec := h.sec.1
  have hback : (⟨(t.tmSec.toNat : ℤ), (t.tmMin.toNat : ℤ), (t.tmHour.toNat : ℤ), (t.tmMday.toNat : ℤ),
      ((t.tmMon + 1).toNat : ℤ) - 1, (value (decimal (t.tmYear + 1900).toNat) : ℤ) - 1900⟩ : Tm) = t := by
    rw [value_decimal]
    obtain ⟨sec, min, hour, mday, mon, year⟩ := t
    simp only [Tm.mk.injEq] at *
    omega
  refine ⟨decimal (t.tmYear + 1900).toNat, (t.tmMon + 1).toNat, t.tmMday.toNat, t.tmHour.toNat, t.tmMin.toNat,
    t.tmSec.toNat, length_decimal (by omega), decimal_digits _, ?_, ?_, ?_⟩
  · unfold rdfstoreXsdSerializeDateTime yearText
    rw [if_neg (by omega)]
  · rw [hback]
    exact h
  · rw [hback]

namespace OffsetDateTime

variable (t : OffsetDateTime)

/-- The broken-down time that is returned, and the key written for it, denote the instant of the text. -/
def KeepsInstant (now : ℤ) : Prop :=
  ∃ tm, rdfstoreXsdDeserializeDateTime (utcClock now) t.text = .ok (some tm) ∧ tm.seconds = t.instant ∧
    DenotesUtc (rdfstoreXsdSerializeDateTime tm) t.instant

/-- The instant is kept when the offset is zero and the year not before 1970, or the local time lies before
1970 by twice the offset; and then only. -/
theorem keepsInstant_iff (now : ℤ) : t.KeepsInstant now ↔
    (1970 ≤ t.year ∧ t.offset = 0) ∨ (t.year < 1970 ∧ t.fields.seconds = 2 * t.offset) := by
  obtain ⟨hvalid, hseconds⟩ := gmtime_spec (t.counted + t.offset)
  have hsum : (t.counted + t.offset = t.instant) ↔
      (1970 ≤ t.year ∧ t.offset = 0) ∨ (t.year < 1970 ∧ t.fields.seconds = 2 * t.offset) := by
    unfold counted instant
    by_cases hyear : t.year < 1970
    · rw [if_pos hyear]
      omega
    · rw [if_neg hyear]
      omega
  rw [← hsum]
  constructor
  · rintro ⟨tm, hrun, htm, -⟩
    rw [t.deserializeDateTime_text] at hrun
    cases hrun
    rw [← htm, hseconds]
  · intro hinstant
    refine ⟨_, t.deserializeDateTime_text now, by rw [hseconds, hinstant], ?_⟩
    have hcounted := rdfstoreXsdMktime_nonneg t.mktime_fields
    have hoffset := t.le_offset
    have hyear : 1570 ≤ (gmtime (t.counted + t.offset)).tmYear + 1900 := le_gmtime_year (by omega)
    have hkey := serializeDateTime_denotes hvalid (by omega)
    rw [hseconds] at hkey
    rw [← hinstant]
    exact hkey

/-- Half past midnight of the first of June, one hour east of UTC. -/
def juneFirst : OffsetDateTime where
  lead := []
  negative := false
  yearDigits := ascii "2004"
  month := 6
  day := 1
  hour := 0
  minute := 30
  second := 0
  fraction := []
  west := false
  offHour := 1
  offMinute := 0
  trail := []
  lead_trim := by simp
  trail_trim := by simp
  year_length := by decide
  year_digits := by decide +kernel
  fraction_digits := by simp
  month_range := by decide
  day_range := by decide
  hour_lt := by decide
  minute_lt := by decide
  second_lt := by decide
  offHour_lt := by decide
  offMinute_lt := by decide

/-- The hour is added, where it has to be taken away. -/
theorem juneFirst_moves_two_hours :
    juneFirst.text = ascii "2004-06-01T00:30:00+01:00" ∧ ¬ juneFirst.KeepsInstant 0 := by
  refine ⟨by decide, ?_⟩
  rintro ⟨tm, hrun, htm, -⟩
  rw [juneFirst.deserializeDateTime_text] at hrun
  cases hrun
  have hcounted : juneFirst.counted = juneFirst.fields.seconds := if_neg (by decide)
  have hoffset : juneFirst.offset = 3600 := by decide
  rw [(gmtime_spec _).2, hcounted, instant, hoffset] at htm
  omega

end OffsetDateTime

end RdfStore
