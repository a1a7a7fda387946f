import RdfStore.Lib.Gregorian

/-!
# Seconds since 1970 (`rdfstore_xsd.c`)

`_rdfstore_xsd_mktime` computes the seconds of a broken-down time by a table of
day offsets from the first of March, with the leap days counted by quarters,
centuries and four centuries.  Numbers are unbounded, `time_t` has 64 bits.

    1970 ≤ year → mktime t = the seconds of t                   (rdfstoreXsdMktime_eq_seconds)
    gmtime is right for every number of seconds                 (gmtime_spec)
-/

namespace RdfStore

open Gregorian

/-- What the date code may do that C does not define: an index outside the day offsets, and a
conversion from behind a null pointer. -/
inductive DateFault where
  | dayoffset (i : ℤ)
  | null
  deriving DecidableEq

/-- The fields of `struct tm` that the code reads. -/
structure Tm where
  tmSec : ℤ
  tmMin : ℤ
  tmHour : ℤ
  tmMday : ℤ
  tmMon : ℤ
  tmYear : ℤ
  deriving DecidableEq

/-- Days from the first of March to each month; January and February belong to the year before. -/
def dayoffset : List ℤ := [306, 337, 0, 31, 61, 92, 122, 153, 184, 214, 245, 275]

def dayoffsetAt (i : ℤ) : Except DateFault ℤ :=
  if 0 ≤ i then
    match dayoffset[i.toNat]? with
    | some d => .ok d
    | none => .error (.dayoffset i)
  else .error (.dayoffset i)

/-- `RDFSTORE_XSD_BAD_DATE` -/
def BAD_DATE : ℤ := 0

/-- `_rdfstore_xsd_mktime`.  The year is positive where it is divided. -/
def rdfstoreXsdMktime (t : Tm) : Except DateFault ℤ :=
  if t.tmYear < 70 then .ok BAD_DATE
  else do
    let year := if t.tmMon < 2 then t.tmYear - 1 else t.tmYear
    let days := year * 365 + year / 4 - year / 100 + (year / 100 + 3) / 4
    let offset ← dayoffsetAt t.tmMon
    let days := days + (offset + t.tmMday - 1)
    let days := days - 25508
    let days := ((days * 24 + t.tmHour) * 60 + t.tmMin) * 60 + t.tmSec
    if days < 0 then .ok BAD_DATE else .ok days

/-! ## The seconds of a broken-down time -/

/-- Seconds from 1970-01-01T00:00:00Z. -/
def Tm.seconds (t : Tm) : ℤ :=
  86400 * dayNumber ⟨t.tmYear + 1900, t.tmMon.toNat, t.tmMday⟩ + 3600 * t.tmHour + 60 * t.tmMin + t.tmSec

/-- A date of the calendar and a time of day, with room for a leap second. -/
structure Tm.Valid (t : Tm) : Prop where
  mon : 0 ≤ t.tmMon ∧ t.tmMon ≤ 11
  mday : 1 ≤ t.tmMday ∧ t.tmMday ≤ daysInMonth (isLeap (t.tmYear + 1900)) t.tmMon.toNat
  hour : 0 ≤ t.tmHour ∧ t.tmHour ≤ 23
  min : 0 ≤ t.tmMin ∧ t.tmMin ≤ 59
  sec : 0 ≤ t.tmSec ∧ t.tmSec ≤ 60

/-- The table is inside for the twelve months, and counts from the first of March. -/
theorem dayoffsetAt_month {m : ℕ} (hm : m < 12) (leap : Bool) :
    dayoffsetAt m = .ok (if m < 2 then 306 + daysToMonth leap m
      else daysToMonth leap m - (if leap then 60 else 59)) := by
  have hall : ∀ leap : Bool, ∀ m < 12, dayoffset[m]? =
      some (if m < 2 then 306 + daysToMonth leap m else daysToMonth leap m - (if leap then 60 else 59)) := by
    decide
  unfold dayoffsetAt
  rw [if_pos (Int.natCast_nonneg m), Int.toNat_natCast, hall leap m hm]

theorem dayoffsetAt_ok {i : ℤ} (h : 0 ≤ i ∧ i ≤ 11) : ∃ offset, dayoffsetAt i = .ok offset := by
  obtain ⟨m, rfl⟩ := Int.eq_ofNat_of_zero_le h.1
  exact ⟨_, dayoffsetAt_month (by omega) false⟩

/-- Only the twelve months are inside. -/
theorem dayoffsetAt_error {i : ℤ} (h : ¬ (0 ≤ i ∧ i ≤ 11)) : dayoffsetAt i = .error (.dayoffset i) := by
  unfold dayoffsetAt
  by_cases h0 : 0 ≤ i
  · have hlen : dayoffset.length = 12 := rfl
    rw [if_pos h0, List.getElem?_eq_none (by omega)]
  · rw [if_neg h0]

/-- Days from the first of March 1900 to that of a later year, as the code counts them. -/
def marchDays (year : ℤ) : ℤ := year * 365 + year / 4 - year / 100 + (year / 100 + 3) / 4

theorem marchDays_before (y : ℤ) : marchDays (y - 1) + 306 - 25508 = daysToYear (y + 1900) := by
  unfold marchDays
  rw [daysToYear_eq]
  omega

theorem marchDays_after (y : ℤ) :
    marchDays y - (if isLeap (y + 1900) then 60 else 59) - 25508 = daysToYear (y + 1900) := by
  have hnext := marchDays_before (y + 1)
  have hlength := daysToYear_succ (y + 1900)
  rw [show y + 1900 + 1 = y + 1 + 1900 by omega, ← hnext, show y + 1 - 1 = y by omega] at hlength
  unfold yearLength at hlength
  split_ifs at hlength ⊢
  · omega
  · omega

theorem daysToYear_nonneg {y : ℤ} (h : 1970 ≤ y) : 0 ≤ daysToYear y := by
  rw [daysToYear_eq]
  omega

/-- The days the formula counts are those of the calendar. -/
theorem marchDays_offset {y : ℤ} {m : ℕ} (hm : m < 12) :
    ∃ offset, dayoffsetAt m = .ok offset ∧
      marchDays (if (m : ℤ) < 2 then y - 1 else y) + offset - 25508
        = daysToYear (y + 1900) + daysToMonth (isLeap (y + 1900)) m := by
  refine ⟨_, dayoffsetAt_month hm (isLeap (y + 1900)), ?_⟩
  by_cases hm2 : m < 2
  · have hbefore := marchDays_before y
    rw [if_pos hm2, if_pos (by omega)]
    omega
  · have hafter := marchDays_after y
    rw [if_neg hm2, if_neg (by omega)]
    omega

/-- For every time from 1970 on the formula is the calendar's. -/
theorem rdfstoreXsdMktime_eq_seconds {t : Tm} (hyear : 1970 ≤ t.tmYear + 1900) (h : t.Valid) :
    rdfstoreXsdMktime t = .ok t.seconds := by
  obtain ⟨m, hm⟩ := Int.eq_ofNat_of_zero_le h.mon.1
  have hm11 := h.mon.2
  obtain ⟨offset, hoffset, hdays⟩ := marchDays_offset (y := t.tmYear) (show m < 12 by omega)
  have hstart := daysToYear_nonneg hyear
  have hmonths := daysToMonth_nonneg (isLeap (t.tmYear + 1900)) m
  have hday := h.mday.1
  have hhour := h.hour.1
  have hmin := h.min.1
  have hsec := h.sec.1
  unfold marchDays at hdays
  unfold rdfstoreXsdMktime Tm.seconds dayNumber
  rw [if_neg (by omega), hm, hoffset]
  simp only [Int.toNat_natCast, bind, Except.bind]
  generalize (if (m : ℤ) < 2 then t.tmYear - 1 else t.tmYear) = year at *
  generalize year / 4 - year / 100 + (year / 100 + 3) / 4 = leaps at *
  generalize daysToYear (t.tmYear + 1900) = start at *
  generalize daysToMonth (isLeap (t.tmYear + 1900)) m = months at *
  have hcount : year * 365 + year / 4 - year / 100 + (year / 100 + 3) / 4 + (offset + t.tmMday - 1) - 25508
      = start + months + (t.tmMday - 1) := by omega
  rw [hcount, if_neg (by omega)]
  congr 1
  omega

theorem rdfstoreXsdMktime_leap_day : rdfstoreXsdMktime ⟨0, 0, 12, 29, 1, 100⟩ = .ok (Tm.seconds ⟨0, 0, 12, 29, 1, 100⟩) :=
  rdfstoreXsdMktime_eq_seconds (by decide)
    ⟨by decide, by decide, by decide, by decide, by decide⟩

example : rdfstoreXsdMktime ⟨0, 0, 12, 29, 1, 100⟩ = .ok 951825600 := by decide

/-! ## Back to a broken-down time -/

/-- `gmtime` -/
def gmtime (t : ℤ) : Tm :=
  let d := civil (t / 86400)
  let r := t % 86400
  ⟨r % 60, r / 60 % 60, r / 3600, d.day, d.month, d.year - 1900⟩

theorem gmtime_spec (t : ℤ) : (gmtime t).Valid ∧ (gmtime t).seconds = t := by
  obtain ⟨hvalid, hday⟩ := dayNumber_civil (t / 86400)
  unfold gmtime Tm.seconds
  generalize civil (t / 86400) = d at *
  have hmonth := hvalid.month_lt
  have hdate : (⟨d.year - 1900 + 1900, (d.month : ℤ).toNat, d.day⟩ : Date) = d := by
    rw [sub_add_cancel, Int.toNat_natCast]
  refine ⟨⟨?_, ?_, ?_, ?_, ?_⟩, ?_⟩
  · dsimp only
    omega
  · dsimp only
    rw [sub_add_cancel, Int.toNat_natCast]
    exact ⟨hvalid.one_le_day, hvalid.day_le⟩
  · dsimp only
    omega
  · dsimp only
    omega
  · dsimp only
    omega
  · dsimp only
    rw [hdate, hday]
    omega

/-- A day before 1970, and much more, is no earlier than the year 1570. -/
theorem le_gmtime_year {t : ℤ} (h : -86400 * 146097 ≤ t) : 1570 ≤ (gmtime t).tmYear + 1900 := by
  have hyear := le_civil_year (t / 86400)
  unfold gmtime
  dsimp only
  omega

end RdfStore
