import Mathlib.Data.List.Range
import Mathlib.Tactic.Common

/-!
# Loops over a search

A search answers the first number from a position on that has a property, and
something at or behind a bound when there is none below it.  The loop that goes
on behind each answer visits all numbers with the property.

    the loop ends, and visits what a filter keeps        (visits_eq)
-/

namespace Enumeration

/-- The answer of a search that starts at a position. -/
structure FindsNext (bound : ℕ) (p : ℕ → Bool) (next : ℕ → ℕ) : Prop where
  found : ∀ pos, next pos < bound → p (next pos) = true ∧ pos ≤ next pos
  first : ∀ pos q, p q = true → pos ≤ q → q < bound → next pos ≤ q

/-- `while ((pos = next(pos)) < bound) { visit(pos); pos++; }`; nothing when the loop does not end in time. -/
def visits (bound : ℕ) (next : ℕ → ℕ) : ℕ → ℕ → Option (List ℕ)
  | 0, _ => none
  | fuel + 1, pos =>
    if next pos < bound then (visits bound next fuel (next pos + 1)).map (next pos :: ·) else some []

variable {bound : ℕ} {p : ℕ → Bool} {next : ℕ → ℕ}

theorem filter_range'_eq_nil {lo n : ℕ} (h : ∀ q, lo ≤ q → q < lo + n → p q = false) :
    (List.range' lo n).filter p = [] := by
  rw [List.filter_eq_nil_iff]
  intro q hq
  obtain ⟨hlo, hhi⟩ := List.mem_range'_1.1 hq
  rw [h q hlo hhi]
  exact Bool.false_ne_true

theorem range'_split {lo r hi : ℕ} (hlo : lo ≤ r) (hr : r < hi) :
    List.range' lo (hi - lo) = List.range' lo (r - lo) ++ r :: List.range' (r + 1) (hi - (r + 1)) := by
  have hlen : hi - lo = (r - lo) + ((hi - (r + 1)) + 1) := by omega
  rw [hlen, ← List.range'_append_1, List.range'_succ, show lo + (r - lo) = r by omega]

theorem visits_eq (h : FindsNext bound p next) {fuel pos : ℕ} (hfuel : bound - pos < fuel) :
    visits bound next fuel pos = some ((List.range' pos (bound - pos)).filter p) := by
  induction fuel generalizing pos with
  | zero =>
    exfalso
    omega
  | succ fuel ih =>
    unfold visits
    by_cases hlt : next pos < bound
    · obtain ⟨hp, hle⟩ := h.found pos hlt
      have hnone : (List.range' pos (next pos - pos)).filter p = [] := by
        refine filter_range'_eq_nil fun q hlo hhi => ?_
        by_contra hq
        have := h.first pos q (by simpa using hq) hlo (by omega)
        omega
      rw [if_pos hlt, ih (by omega), range'_split hle hlt, List.filter_append, hnone, List.nil_append,
        List.filter_cons_of_pos hp]
      rfl
    · rw [if_neg hlt, filter_range'_eq_nil fun q hlo hhi => ?_]
      by_contra hq
      have := h.first pos q (by simpa using hq) hlo (by omega)
      omega

/-- From the start on. -/
theorem visits_zero (h : FindsNext bound p next) {fuel : ℕ} (hfuel : bound < fuel) :
    visits bound next fuel 0 = some ((List.range bound).filter p) := by
  rw [visits_eq h (by omega), Nat.sub_zero, List.range_eq_range']

end Enumeration
