import Mathlib.Algebra.BigOperators.Group.Finset.Basic
import Mathlib.Algebra.BigOperators.Intervals
import Mathlib.Algebra.Order.BigOperators.Group.Finset
import Mathlib.Algebra.Order.Group.Int
import Mathlib.Tactic.Common

/-!
# The proleptic Gregorian calendar

Days are counted from 1970-01-01, by the lengths of the years and months that
have gone by.  Months are numbered from 0, years by the integers with a year 0.

    a closed form for the days to a year                        (daysToYear_eq)
    every day number is the one of a valid date                 (dayNumber_civil)
    day numbers are in the order of the dates                   (dayNumber_lt_iff)
-/

namespace Gregorian

/-! ## Lengths -/

def isLeap (y : ℤ) : Bool := y % 4 = 0 ∧ (y % 100 ≠ 0 ∨ y % 400 = 0)

def yearLength (y : ℤ) : ℤ := if isLeap y then 366 else 365

/-- Months 3, 5, 8 and 10 have thirty days. -/
def daysInMonth (leap : Bool) (m : ℕ) : ℤ :=
  if m = 1 then (if leap then 29 else 28) else if m = 3 ∨ m = 5 ∨ m = 8 ∨ m = 10 then 30 else 31

/-- Days from 1970-01-01 to the first day of a year. -/
def daysToYear (y : ℤ) : ℤ :=
  ∑ k ∈ Finset.range (y - 1970).toNat, yearLength (1970 + k)
    - ∑ k ∈ Finset.range (1970 - y).toNat, yearLength (1969 - k)

/-- Days from the first day of a year to that of a month. -/
def daysToMonth (leap : Bool) (m : ℕ) : ℤ := ∑ k ∈ Finset.range m, daysInMonth leap k

/-- A date: the day counts from 1. -/
structure Date where
  year : ℤ
  month : ℕ
  day : ℤ

structure Date.Valid (d : Date) : Prop where
  month_lt : d.month < 12
  one_le_day : 1 ≤ d.day
  day_le : d.day ≤ daysInMonth (isLeap d.year) d.month

/-- Days from 1970-01-01. -/
def dayNumber (d : Date) : ℤ := daysToYear d.year + daysToMonth (isLeap d.year) d.month + (d.day - 1)

/-! ## Years -/

theorem yearLength_eq (y : ℤ) : yearLength y = 365 + ((y / 4 - y / 100 + y / 400)
    - ((y - 1) / 4 - (y - 1) / 100 + (y - 1) / 400)) := by
  unfold yearLength isLeap
  by_cases h : y % 4 = 0 ∧ (y % 100 ≠ 0 ∨ y % 400 = 0)
  · rw [decide_eq_true h, if_pos rfl]
    omega
  · rw [decide_eq_false h, if_neg (by decide)]
    omega

theorem daysToYear_eq (y : ℤ) :
    daysToYear y = 365 * (y - 1970) + ((y - 1) / 4 - (y - 1) / 100 + (y - 1) / 400) - 477 := by
  have hup : ∀ n : ℕ, ∑ k ∈ Finset.range n, yearLength (1970 + k) =
      365 * n + ((1969 + n : ℤ) / 4 - (1969 + n) / 100 + (1969 + n) / 400) - 477 := by
    intro n
    induction n with
    | zero => rfl
    | succ n ih =>
      rw [Finset.sum_range_succ, ih, yearLength_eq]
      push_cast
      omega
  have hdown : ∀ n : ℕ, ∑ k ∈ Finset.range n, yearLength (1969 - k) =
      365 * n + 477 - ((1969 - n : ℤ) / 4 - (1969 - n) / 100 + (1969 - n) / 400) := by
    intro n
    induction n with
    | zero => rfl
    | succ n ih =>
      rw [Finset.sum_range_succ, ih, yearLength_eq]
      push_cast
      omega
  unfold daysToYear
  rw [hup, hdown]
  omega

theorem daysToYear_succ (y : ℤ) : daysToYear (y + 1) = daysToYear y + yearLength y := by
  rw [daysToYear_eq, daysToYear_eq, yearLength_eq]
  omega

theorem daysToYear_add (y : ℤ) (n : ℕ) :
    daysToYear (y + n) = daysToYear y + ∑ k ∈ Finset.range n, yearLength (y + k) := by
  induction n with
  | zero => simp
  | succ n ih =>
    rw [Finset.sum_range_succ, ← add_assoc, ← ih, ← daysToYear_succ, Int.natCast_succ, add_assoc]

theorem yearLength_eq_months (y : ℤ) : yearLength y = daysToMonth (isLeap y) 12 := by
  unfold yearLength
  cases isLeap y with
  | false => rfl
  | true => rfl

theorem daysToMonth_nonneg (leap : Bool) (m : ℕ) : 0 ≤ daysToMonth leap m := by
  unfold daysToMonth
  refine Finset.sum_nonneg fun k _ => ?_
  unfold daysInMonth
  split_ifs <;> omega

/-! ## The date of a day -/

/-- Which of the stretches from `k` on the day `r` falls in, and how far into it. -/
def locate (len : ℕ → ℤ) : ℕ → ℕ → ℤ → ℕ × ℤ
  | 0, k, r => (k, r)
  | n + 1, k, r => if r < len k then (k, r) else locate len n (k + 1) (r - len k)

theorem locate_spec {len : ℕ → ℤ} {n k : ℕ} {r : ℤ} (h0 : 0 ≤ r)
    (h : r < ∑ i ∈ Finset.range n, len (k + i)) :
    ∃ m, m < n ∧ (locate len n k r).1 = k + m ∧ 0 ≤ (locate len n k r).2 ∧
      (locate len n k r).2 < len (k + m) ∧
      r = ∑ i ∈ Finset.range m, len (k + i) + (locate len n k r).2 := by
  induction n generalizing k r with
  | zero =>
    rw [Finset.range_zero, Finset.sum_empty] at h
    omega
  | succ n ih =>
    unfold locate
    by_cases hlt : r < len k
    · rw [if_pos hlt]
      refine ⟨0, by omega, rfl, h0, hlt, ?_⟩
      rw [Finset.range_zero, Finset.sum_empty, zero_add]
    · have hshift : ∀ m, ∑ i ∈ Finset.range (m + 1), len (k + i) =
          ∑ i ∈ Finset.range m, len (k + 1 + i) + len k := by
        intro m
        rw [Finset.sum_range_succ']
        congr 1
        refine Finset.sum_congr rfl fun i _ => ?_
        rw [show k + (i + 1) = k + 1 + i by omega]
      rw [if_neg hlt]
      rw [hshift] at h
      obtain ⟨m, hm, hk, hlo, hhi, hr⟩ := ih (k := k + 1) (r := r - len k) (by omega) (by omega)
      refine ⟨m + 1, by omega, by omega, hlo, ?_, ?_⟩
      · rw [show k + (m + 1) = k + 1 + m by omega]
        exact hhi
      · rw [hshift]
        omega

/-- From the first stretch on. -/
theorem locate_zero_spec {len : ℕ → ℤ} {n : ℕ} {r : ℤ} (h0 : 0 ≤ r) (h : r < ∑ i ∈ Finset.range n, len i) :
    (locate len n 0 r).1 < n ∧ 0 ≤ (locate len n 0 r).2 ∧ (locate len n 0 r).2 < len (locate len n 0 r).1 ∧
      r = ∑ i ∈ Finset.range (locate len n 0 r).1, len i + (locate len n 0 r).2 := by
  obtain ⟨m, hm, hk, hlo, hhi, hr⟩ := locate_spec (k := 0) h0 (by simpa using h)
  simp only [zero_add] at hk hhi hr
  rw [← hk] at hm hhi hr
  exact ⟨hm, hlo, hhi, hr⟩

/-- The year of a day number and the day in it, by the cycle of 400 years and 146097 days. -/
def yearAndDay (n : ℤ) : ℤ × ℤ :=
  let base := 1970 + 400 * (n / 146097)
  let p := locate (fun k => yearLength (base + k)) 400 0 (n % 146097)
  (base + p.1, p.2)

theorem yearAndDay_spec (n : ℤ) : 0 ≤ (yearAndDay n).2 ∧ (yearAndDay n).2 < yearLength (yearAndDay n).1 ∧
    daysToYear (yearAndDay n).1 + (yearAndDay n).2 = n := by
  have hbase : daysToYear (1970 + 400 * (n / 146097)) = 146097 * (n / 146097) := by
    rw [daysToYear_eq]
    omega
  unfold yearAndDay
  generalize (1970 + 400 * (n / 146097) : ℤ) = base at *
  have hcycle : ∑ k ∈ Finset.range 400, yearLength (base + k) = 146097 := by
    have hadd := daysToYear_add base 400
    rw [daysToYear_eq, daysToYear_eq] at hadd
    push_cast at hadd
    omega
  have hlt : n % 146097 < ∑ k ∈ Finset.range 400, yearLength (base + k) := by
    rw [hcycle]
    exact Int.emod_lt_of_pos _ (by omega)
  obtain ⟨-, hlo, hhi, hr⟩ := locate_zero_spec (Int.emod_nonneg n (by omega)) hlt
  dsimp only at hlo hhi hr ⊢
  refine ⟨hlo, hhi, ?_⟩
  rw [daysToYear_add, hbase]
  omega

/-- The month of a day of the year and the day in it. -/
def monthAndDay (leap : Bool) (r : ℤ) : ℕ × ℤ := locate (daysInMonth leap) 12 0 r

/-- The date of a day number. -/
def civil (n : ℤ) : Date :=
  let p := yearAndDay n
  let q := monthAndDay (isLeap p.1) p.2
  ⟨p.1, q.1, q.2 + 1⟩

theorem dayNumber_civil (n : ℤ) : (civil n).Valid ∧ dayNumber (civil n) = n := by
  obtain ⟨hlo, hhi, hyear⟩ := yearAndDay_spec n
  unfold civil monthAndDay
  dsimp only
  generalize yearAndDay n = p at *
  rw [yearLength_eq_months] at hhi
  obtain ⟨hm, hmlo, hmhi, hmonth⟩ := locate_zero_spec hlo hhi
  generalize locate (daysInMonth (isLeap p.1)) 12 0 p.2 = q at *
  refine ⟨⟨hm, ?_, ?_⟩, ?_⟩
  · dsimp only
    omega
  · dsimp only
    omega
  · unfold dayNumber daysToMonth
    dsimp only
    omega

/-- The year is looked for from the start of the cycle on. -/
theorem le_civil_year (n : ℤ) : 1970 + 400 * (n / 146097) ≤ (civil n).year := by
  unfold civil yearAndDay
  dsimp only
  omega

/-! ## The order of the dates -/

theorem daysToYear_add_le {y z : ℤ} (h : y < z) : daysToYear y + yearLength y ≤ daysToYear z := by
  rw [← daysToYear_succ, daysToYear_eq, daysToYear_eq]
  omega

theorem daysToMonth_add_le (leap : Bool) {m n : ℕ} (h : m < n) :
    daysToMonth leap m + daysInMonth leap m ≤ daysToMonth leap n := by
  unfold daysToMonth
  rw [← Finset.sum_range_succ]
  refine Finset.sum_le_sum_of_subset_of_nonneg (Finset.range_subset_range.2 h) fun k _ _ => ?_
  unfold daysInMonth
  split_ifs <;> omega

/-- The earlier year, in it the earlier month, and in it the earlier day. -/
def Date.Before (d e : Date) : Prop :=
  d.year < e.year ∨ d.year = e.year ∧ (d.month < e.month ∨ d.month = e.month ∧ d.day < e.day)

theorem dayNumber_lt_of_before {d e : Date} (hd : d.Valid) (he : e.Valid) (h : d.Before e) :
    dayNumber d < dayNumber e := by
  have hday := hd.day_le
  have hday' := he.one_le_day
  unfold dayNumber
  rcases h with hyear | ⟨hyear, hmonth | ⟨hmonth, hlt⟩⟩
  · have hyears := daysToYear_add_le hyear
    have hmonths := daysToMonth_add_le (isLeap d.year) hd.month_lt
    have hmonths' := daysToMonth_nonneg (isLeap e.year) e.month
    rw [yearLength_eq_months] at hyears
    omega
  · have hmonths := daysToMonth_add_le (isLeap d.year) hmonth
    rw [← hyear]
    omega
  · rw [← hyear, ← hmonth]
    omega

theorem dayNumber_lt_iff {d e : Date} (hd : d.Valid) (he : e.Valid) : dayNumber d < dayNumber e ↔ d.Before e := by
  refine ⟨fun h => ?_, dayNumber_lt_of_before hd he⟩
  by_contra hnot
  by_cases hback : e.Before d
  · exact absurd (dayNumber_lt_of_before he hd hback) (by omega)
  · have heq : d = e := by
      obtain ⟨year, month, day⟩ := d
      obtain ⟨year', month', day'⟩ := e
      simp only [Date.Before, Date.mk.injEq] at *
      omega
    rw [heq] at h
    exact absurd h (lt_irrefl _)

end Gregorian
