import RdfStore.Types
import RdfStore.Lib.Scanf
import RdfStore.Xsd.Calendar

/-!
# Dates and the calendar table (`rdfstore_xsd.c`)

`rdfstore_xsd_deserialize_date` and `…_dateTime` scan the fields of a date with
`sscanf` and tell a canonical UTC date, one with an offset and a local one
apart.  All of them call `_rdfstore_xsd_mktime`, where the month is an index into
the table of day offsets.

    scan:    what is decided before the table is read           (scanDate, scanDateTime)
    finish:  the call of mktime and what follows                (finish)
    the index is inside ↔ the month is, or the year is before
      1970, or the scan fails                                   (dates_table_iff)
-/

namespace RdfStore

open ByteMem Scanf

/-! ## The C library -/

/-- The clock of the process.  Broken-down times have a month of the year. -/
structure Clock where
  now : ℤ
  gmtime : ℤ → Tm
  localtime : ℤ → Tm
  gmtime_mon : ∀ t, 0 ≤ (gmtime t).tmMon ∧ (gmtime t).tmMon ≤ 11
  localtime_mon : ∀ t, 0 ≤ (localtime t).tmMon ∧ (localtime t).tmMon ≤ 11

/-- The clock of a process whose local time is UTC. -/
def utcClock (now : ℤ) : Clock where
  now := now
  gmtime := gmtime
  localtime := gmtime
  gmtime_mon := fun t => (gmtime_spec t).1.mon
  localtime_mon := fun t => (gmtime_spec t).1.mon

/-- `strpbrk` with one byte: the string from its first occurrence on. -/
def strpbrk (s : Bytes) (c : UInt8) : Option Bytes :=
  if c ∈ s then some (s.dropWhile (· ≠ c)) else none

/-- `strrchr`: the place of the last occurrence. -/
def strrchr (s : Bytes) (c : UInt8) : Option ℕ :=
  if c ∈ s then some (s.length - 1 - s.reverse.idxOf c) else none

/-! ## Scanning -/

/-- What follows the fields: a date with a `Z`, which has to stand at the end, one with an offset behind a
sign (null when there is none), or a local one. -/
inductive DateZone where
  | utc (atEnd : Bool)
  | offset (tzsign : Option Bytes)
  | localTime

/-- The white space that is trimmed. -/
def isTrim (c : UInt8) : Bool := c = 32 || c = 10 || c = 13 || c = 12 || c = 9

/-- `ptr` -/
def trimStart (string : Bytes) : Bytes := string.dropWhile isTrim

/-- `ptr1 - ptr + 1` -/
def trimmedLength (ptr : Bytes) : ℕ := (ptr.reverse.dropWhile isTrim).length

/-- `temp == ptr1` for the first `Z`. -/
def endsWithZ (ptr : Bytes) : Bool := ptr.idxOf 90 + 1 = trimmedLength ptr

/-- The last byte is a digit, with `sep` two before it; a date that was scanned has these bytes. -/
def endsLocal (sep : UInt8) (ptr : Bytes) : Bool :=
  Scanf.isDigit (ptr.getD (trimmedLength ptr - 1) 0) && ptr.getD (trimmedLength ptr - 1 - 2) 0 = sep

/-- `"%d-%02d-%02d"` -/
def dateFormat : List Directive := [.int none, .char 45, .int (some 2), .char 45, .int (some 2)]

/-- `"%d-%02d-%02dT%02d:%02d:%02d"` -/
def dateTimeFormat : List Directive :=
  dateFormat ++ [.char 84, .int (some 2), .char 58, .int (some 2), .char 58, .int (some 2)]

/-- `"%02d:%02d"` -/
def offsetFormat : List Directive := [.int (some 2), .char 58, .int (some 2)]

/-- The byte three before place `i` of `ptr`; `front` is the memory before the string. -/
def threeBefore (front : ℕ → UInt8) (string : Bytes) (i : ℕ) : UInt8 :=
  let j := string.length - (trimStart string).length + i
  if 3 ≤ j then string.getD (j - 3) 0 else front (3 - j)

/-- `rdfstore_xsd_deserialize_date` up to the calls of `_rdfstore_xsd_mktime`; `none` is the answer 0. -/
def scanDate (front : ℕ → UInt8) (string : Bytes) : Option (Tm × DateZone) :=
  let ptr := trimStart string
  match sscanf dateFormat ptr with
  | [year, mon, mday] =>
    let val : Tm := ⟨0, 0, 0, mday, mon - 1, year - 1900⟩
    if 90 ∈ ptr then some (val, .utc (endsWithZ ptr))
    else if 58 ∈ ptr then
      match (strrchr ptr 43).or (strrchr ptr 45) with
      | none => some (val, .offset none)
      | some i => if threeBefore front string i ≠ 45 then none else some (val, .offset (some (ptr.drop i)))
    else if endsLocal 45 ptr then some (val, .localTime)
    else none
  | _ => none

/-- `rdfstore_xsd_deserialize_dateTime` up to the calls of `_rdfstore_xsd_mktime`.  The text from the `T` to the
last colon is longer than `Thh:mm` when an offset follows. -/
def scanDateTime (string : Bytes) : Option (Tm × DateZone) :=
  let ptr := trimStart string
  match sscanf dateTimeFormat ptr with
  | [year, mon, mday, hour, min, sec] =>
    let val : Tm := ⟨sec, min, hour, mday, mon - 1, year - 1900⟩
    let temp2 := ptr.dropWhile (· ≠ 84)
    let len := (strrchr temp2 58).getD 0
    if 90 ∈ ptr then some (val, .utc (endsWithZ ptr))
    else if 6 < len then some (val, .offset ((strpbrk temp2 43).or (strpbrk temp2 45)))
    else if endsLocal 58 ptr then some (val, .localTime)
    else none
  | _ => none

/-! ## Normalising -/

/-- `d`: the seconds between UTC and the local time of the process. -/
def zoneDifference (clock : Clock) : Except DateFault ℤ := do
  let t1 ← rdfstoreXsdMktime (clock.gmtime clock.now)
  let t2 ← rdfstoreXsdMktime (clock.localtime clock.now)
  return t1 - t2

/-- `sscanf( tzsign+1, "%02d:%02d" )` and the seconds of the offset added to the time, or taken from it. -/
def addOffset (timestamp : ℤ) (tzsign : Bytes) : Option ℤ :=
  match sscanf offsetFormat tzsign.tail with
  | [hours, minutes] =>
    let secs := hours * 60 * 60 + minutes * 60
    some (if 43 ∈ tzsign then timestamp + secs else timestamp - secs)
  | _ => none

/-- The calls of `_rdfstore_xsd_mktime` and what follows; the answer is the broken-down time. -/
def finish (clock : Clock) (val : Tm) : DateZone → Except DateFault (Option Tm)
  | .utc atEnd => do
    let tt ← rdfstoreXsdMktime val
    return if !atEnd ∨ tt = -1 then none else some val
  | .offset tzsign => do
    let timestamp ← rdfstoreXsdMktime val
    if timestamp = -1 then return none
    match tzsign with
    | none => .error .null
    | some tzsign =>
      match addOffset timestamp tzsign with
      | none => return none
      | some timestamp =>
        let val := clock.localtime timestamp
        let t ← rdfstoreXsdMktime val
        return if t = -1 then none else some val
  | .localTime => do
    let timestamp ← rdfstoreXsdMktime val
    return if timestamp = -1 then none else some val

/-- Both recognisers: the local time zone, the scan, and the rest. -/
def deserialize (clock : Clock) (scanned : Option (Tm × DateZone)) : Except DateFault (Option Tm) := do
  let d ← zoneDifference clock
  if d = -1 then return none
  match scanned with
  | none => return none
  | some (val, zone) => finish clock val zone

/-- `rdfstore_xsd_deserialize_date` -/
def rdfstoreXsdDeserializeDate (clock : Clock) (front : ℕ → UInt8) (string : Bytes) : Except DateFault (Option Tm) :=
  deserialize clock (scanDate front string)

/-- `rdfstore_xsd_deserialize_dateTime` -/
def rdfstoreXsdDeserializeDateTime (clock : Clock) (string : Bytes) : Except DateFault (Option Tm) :=
  deserialize clock (scanDateTime string)

/-! ## The index into the table -/

/-- The month is one of the twelve, or the table is not read. -/
def MonthInside (t : Tm) : Prop := t.tmYear + 1900 < 1970 ∨ (0 ≤ t.tmMon ∧ t.tmMon ≤ 11)

theorem rdfstoreXsdMktime_cases (t : Tm) :
    (MonthInside t ∧ ∃ seconds, rdfstoreXsdMktime t = .ok seconds) ∨
    (¬ MonthInside t ∧ rdfstoreXsdMktime t = .error (.dayoffset t.tmMon)) := by
  unfold rdfstoreXsdMktime MonthInside
  by_cases hyear : t.tmYear < 70
  · rw [if_pos hyear]
    exact Or.inl ⟨Or.inl (by omega), _, rfl⟩
  rw [if_neg hyear]
  simp only [bind, Except.bind]
  by_cases hmon : 0 ≤ t.tmMon ∧ t.tmMon ≤ 11
  · obtain ⟨offset, hoffset⟩ := dayoffsetAt_ok hmon
    refine Or.inl ⟨Or.inr hmon, ?_⟩
    rw [hoffset]
    dsimp only
    split_ifs
    all_goals exact ⟨_, rfl⟩
  · refine Or.inr ⟨fun h => hmon (h.resolve_left (by omega)), ?_⟩
    rw [dayoffsetAt_error hmon]

theorem rdfstoreXsdMktime_ok {t : Tm} (h : 0 ≤ t.tmMon ∧ t.tmMon ≤ 11) :
    ∃ seconds, rdfstoreXsdMktime t = .ok seconds := by
  obtain ⟨-, hok⟩ | ⟨hout, -⟩ := rdfstoreXsdMktime_cases t
  · exact hok
  · exact absurd (Or.inr h) hout

/-- Nothing before 1970 is answered, so the tests for -1 never succeed. -/
theorem rdfstoreXsdMktime_nonneg {t : Tm} {seconds : ℤ} (h : rdfstoreXsdMktime t = .ok seconds) : 0 ≤ seconds := by
  unfold rdfstoreXsdMktime at h
  by_cases hyear : t.tmYear < 70
  · rw [if_pos hyear] at h
    cases h
    exact le_refl _
  rw [if_neg hyear] at h
  simp only [bind, Except.bind] at h
  cases hoffset : dayoffsetAt t.tmMon with
  | error fault =>
    rw [hoffset] at h
    cases h
  | ok offset =>
    rw [hoffset] at h
    dsimp only at h
    generalize (if t.tmMon < 2 then t.tmYear - 1 else t.tmYear) = year at h
    split_ifs at h with hneg
    · cases h
      exact le_refl _
    · cases h
      exact not_lt.1 hneg

theorem zoneDifference_ok (clock : Clock) : ∃ d, zoneDifference clock = .ok d := by
  obtain ⟨t1, h1⟩ := rdfstoreXsdMktime_ok (clock.gmtime_mon clock.now)
  obtain ⟨t2, h2⟩ := rdfstoreXsdMktime_ok (clock.localtime_mon clock.now)
  refine ⟨t1 - t2, ?_⟩
  unfold zoneDifference
  rw [h1, h2]
  rfl

theorem finish_of_inside {clock : Clock} {val : Tm} (h : MonthInside val) (zone : DateZone) (i : ℤ) :
    finish clock val zone ≠ .error (.dayoffset i) := by
  obtain ⟨-, seconds, hok⟩ | ⟨hout, -⟩ := rdfstoreXsdMktime_cases val
  · cases zone with
    | utc atEnd =>
      intro herror
      unfold finish at herror
      rw [hok] at herror
      cases herror
    | offset tzsign =>
      intro herror
      unfold finish at herror
      rw [hok] at herror
      simp only [bind, Except.bind] at herror
      by_cases hbad : seconds = -1
      · rw [if_pos hbad] at herror
        cases herror
      rw [if_neg hbad] at herror
      cases tzsign with
      | none => cases herror
      | some tzsign =>
        cases hadd : addOffset seconds tzsign with
        | none =>
          simp only [hadd] at herror
          cases herror
        | some timestamp =>
          -- the second call gets a month of the clock's
          obtain ⟨t, ht⟩ := rdfstoreXsdMktime_ok (clock.localtime_mon timestamp)
          simp only [hadd, ht] at herror
          cases herror
    | localTime =>
      intro herror
      unfold finish at herror
      rw [hok] at herror
      cases herror
  · exact absurd h hout

theorem finish_of_outside {clock : Clock} {val : Tm} (h : ¬ MonthInside val) (zone : DateZone) :
    finish clock val zone = .error (.dayoffset val.tmMon) := by
  obtain ⟨hin, -⟩ | ⟨-, herror⟩ := rdfstoreXsdMktime_cases val
  · exact absurd hin h
  · cases zone with
    | utc atEnd =>
      unfold finish
      rw [herror]
      rfl
    | offset tzsign =>
      unfold finish
      rw [herror]
      rfl
    | localTime =>
      unfold finish
      rw [herror]
      rfl

/-- No index of a run of the recogniser lies outside the table. -/
def TableInside (r : Except DateFault (Option Tm)) : Prop := ∀ i, r ≠ .error (.dayoffset i)

/-- What was scanned has a month the table may be read with, or it is not read. -/
def ScannedInside (clock : Clock) (scanned : Option (Tm × DateZone)) : Prop :=
  zoneDifference clock = .ok (-1) ∨ ∀ val zone, scanned = some (val, zone) → MonthInside val

theorem deserialize_inside_iff (clock : Clock) (scanned : Option (Tm × DateZone)) :
    TableInside (deserialize clock scanned) ↔ ScannedInside clock scanned := by
  obtain ⟨d, hd⟩ := zoneDifference_ok clock
  unfold TableInside ScannedInside deserialize
  rw [hd]
  simp only [bind, Except.bind]
  by_cases hbad : d = -1
  · rw [if_pos hbad, hbad]
    exact iff_of_true (fun i h => by cases h) (Or.inl rfl)
  rw [if_neg hbad]
  cases scanned with
  | none => exact iff_of_true (fun i h => by cases h) (Or.inr fun val zone h => by cases h)
  | some p =>
    obtain ⟨val, zone⟩ := p
    constructor
    · intro hinside
      refine Or.inr ?_
      rintro val' zone' ⟨⟩
      by_contra hout
      exact hinside _ (finish_of_outside hout zone)
    · intro hscan i
      have hval : MonthInside val := by
        apply (hscan.resolve_left _) val zone rfl
        intro h
        cases h
        exact hbad rfl
      exact finish_of_inside hval zone i

/-- Both recognisers, on every byte string. -/
theorem dates_table_iff (clock : Clock) (front : ℕ → UInt8) (string : Bytes) :
    (TableInside (rdfstoreXsdDeserializeDate clock front string) ↔ ScannedInside clock (scanDate front string)) ∧
    (TableInside (rdfstoreXsdDeserializeDateTime clock string) ↔ ScannedInside clock (scanDateTime string)) :=
  ⟨deserialize_inside_iff clock _, deserialize_inside_iff clock _⟩

/-- Month 00 of a dateTime is index -1, month 13 of a date index 12. -/
theorem dates_read_outside_table :
    ¬ TableInside (rdfstoreXsdDeserializeDateTime (utcClock 0) (ascii "2004-00-01T00:00:00+01:00")) ∧
    ¬ TableInside (rdfstoreXsdDeserializeDate (utcClock 0) (fun _ => 0) (ascii "2004-13-01+01:00")) := by
  constructor
  · intro h
    exact h (-1) (by decide +kernel)
  · intro h
    exact h 12 (by decide +kernel)

end RdfStore
