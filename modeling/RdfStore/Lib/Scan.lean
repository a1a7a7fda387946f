import Mathlib.Data.List.Basic
import Mathlib.Tactic.Common

/-!
# Scanning as a backtracking matcher does

`lastSplit p d s` is what `(.*)d` followed by a pattern `p` finds in `s`: of all
places where the delimiter `d` stands and `p` matches what is behind it, the
last.

    lastSplit finds a split       (lastSplit_split)
    and no later one matches      (lastSplit_longest)
-/

namespace Scan

variable {α γ : Type*}

/-! ## Where a delimiter can be -/

section

variable {d : α}

theorem split_of_not_mem_left {l r u z : List α} (hl : d ∉ l) (h : l ++ r = u ++ d :: z) :
    ∃ u', u = l ++ u' ∧ r = u' ++ d :: z := by
  rw [List.append_eq_append_iff] at h
  obtain ⟨u', rfl, h⟩ | ⟨u', rfl, h⟩ := h
  · exact ⟨u', rfl, h⟩
  · cases u' with
    | nil => exact ⟨[], by simp, h.symm⟩
    | cons b u' =>
      obtain ⟨rfl, -⟩ := List.cons.inj h
      exact absurd (by simp) hl

theorem split_of_not_mem_right {l r u z : List α} (hr : d ∉ r) (h : l ++ r = u ++ d :: z) :
    ∃ l', l = u ++ d :: l' ∧ z = l' ++ r := by
  rw [List.append_eq_append_iff] at h
  obtain ⟨u', rfl, h⟩ | ⟨u', rfl, h⟩ := h
  · rw [h] at hr
    exact absurd (by simp) hr
  · cases u' with
    | nil =>
      rw [← show d :: z = r from h] at hr
      exact absurd List.mem_cons_self hr
    | cons b u' =>
      obtain ⟨rfl, rfl⟩ := List.cons.inj h
      exact ⟨u', rfl, rfl⟩

end

variable [DecidableEq α]

/-- What is before the delimiter, what the pattern found behind it, and the rest. -/
def lastSplit (p : List α → Option (γ × List α)) (d : α) : List α → Option ((List α × γ) × List α)
  | [] => none
  | a :: s =>
    match lastSplit p d s with
    | some ((x, c), rest) => some ((a :: x, c), rest)
    | none => if a = d then (p s).map fun r => (([], r.1), r.2) else none

/-! ## The first delimiter -/

theorem takeWhile_ne_append {d : α} {x : List α} (hx : d ∉ x) (y : List α) :
    (x ++ d :: y).takeWhile (· ≠ d) = x := by
  have hpos : ∀ a ∈ x, decide (a ≠ d) = true := fun a ha => decide_eq_true fun h => hx (h ▸ ha)
  rw [List.takeWhile_append_of_pos hpos]
  simp

theorem dropWhile_ne_append {d : α} {x : List α} (hx : d ∉ x) (y : List α) :
    (x ++ d :: y).dropWhile (· ≠ d) = d :: y := by
  have hpos : ∀ a ∈ x, decide (a ≠ d) = true := fun a ha => decide_eq_true fun h => hx (h ▸ ha)
  rw [List.dropWhile_append_of_pos hpos]
  simp

theorem exists_first_split {d : α} {s : List α} (h : d ∈ s) : ∃ x y, s = x ++ d :: y ∧ d ∉ x := by
  induction s with
  | nil => cases h
  | cons a s ih =>
    by_cases ha : a = d
    · exact ⟨[], s, by rw [ha]; rfl, List.not_mem_nil⟩
    · have hs : d ∈ s := (List.mem_cons.1 h).resolve_left fun hd => ha hd.symm
      obtain ⟨x, y, rfl, hx⟩ := ih hs
      refine ⟨a :: x, y, rfl, fun hd => ?_⟩
      rcases List.mem_cons.1 hd with hd | hd
      · exact ha hd.symm
      · exact hx hd

/-! ## The last delimiter -/

variable {p : List α → Option (γ × List α)} {d : α}

theorem lastSplit_split {s x rest : List α} {c : γ} (h : lastSplit p d s = some ((x, c), rest)) :
    ∃ y, s = x ++ d :: y ∧ p y = some (c, rest) := by
  induction s generalizing x with
  | nil => cases h
  | cons a s ih =>
    unfold lastSplit at h
    split at h
    · next x' c' rest' hs =>
      cases h
      obtain ⟨y, rfl, hp⟩ := ih hs
      exact ⟨y, rfl, hp⟩
    · split at h
      · next ha =>
        obtain ⟨⟨c', rest'⟩, hp, heq⟩ := Option.map_eq_some_iff.1 h
        cases heq
        exact ⟨s, by rw [ha]; rfl, hp⟩
      · cases h

theorem lastSplit_isSome {s x y : List α} (hs : s = x ++ d :: y) (hp : (p y).isSome) :
    (lastSplit p d s).isSome := by
  induction s generalizing x with
  | nil => simp at hs
  | cons a s ih =>
    unfold lastSplit
    split
    · rfl
    · next hnone =>
      cases x with
      | nil =>
        obtain ⟨rfl, rfl⟩ := List.cons.inj hs
        simpa using hp
      | cons b x =>
        have hsome := ih (List.cons.inj hs).2
        rw [hnone] at hsome
        cases hsome

/-- What follows does not matter to a pattern that does not look so far. -/
theorem lastSplit_append {s b : List α} (hb : d ∉ b)
    (hp : ∀ u z, s = u ++ d :: z → p (z ++ b) = (p z).map fun t => (t.1, t.2 ++ b)) :
    lastSplit p d (s ++ b) = (lastSplit p d s).map fun t => (t.1, t.2 ++ b) := by
  have hnone : lastSplit p d b = none := by
    cases h : lastSplit p d b with
    | none => rfl
    | some t =>
      obtain ⟨y, rfl, -⟩ := lastSplit_split h
      exact absurd (by simp) hb
  induction s with
  | nil => exact hnone
  | cons a s ih =>
    have hs := ih fun u z hz => hp (a :: u) z (by rw [hz, List.cons_append])
    rw [List.cons_append, lastSplit, hs, lastSplit]
    cases h : lastSplit p d s with
    | some t => rfl
    | none =>
      by_cases ha : a = d
      · simp only [Option.map_none, if_pos ha]
        rw [hp [] s (by rw [ha, List.nil_append]), Option.map_map, Option.map_map]
        rfl
      · simp only [Option.map_none, if_neg ha]

theorem lastSplit_longest {s x rest x' y' : List α} {c : γ} (h : lastSplit p d s = some ((x, c), rest))
    (hs : s = x' ++ d :: y') (hp : (p y').isSome) : x'.length ≤ x.length := by
  induction s generalizing x x' with
  | nil => cases h
  | cons a s ih =>
    cases x' with
    | nil => exact Nat.zero_le _
    | cons b x' =>
      obtain ⟨rfl, htail⟩ := List.cons.inj hs
      unfold lastSplit at h
      split at h
      · next x₂ c₂ rest₂ hlast =>
        cases h
        exact Nat.succ_le_succ (ih hlast htail)
      · next hnone =>
        have hsome := lastSplit_isSome htail hp
        rw [hnone] at hsome
        cases hsome

/-- Where no later delimiter matches. -/
theorem lastSplit_eq {s x y rest : List α} {c : γ} (hs : s = x ++ d :: y) (hp : p y = some (c, rest))
    (hlater : ∀ u z, y = u ++ d :: z → p z = none) : lastSplit p d s = some ((x, c), rest) := by
  have hsome : (lastSplit p d s).isSome := lastSplit_isSome hs (by rw [hp]; rfl)
  obtain ⟨⟨⟨x', c'⟩, rest'⟩, hlast⟩ := Option.isSome_iff_exists.1 hsome
  have hle := lastSplit_longest hlast hs (by rw [hp]; rfl)
  obtain ⟨y', hs', hp'⟩ := lastSplit_split hlast
  rw [hs, List.append_eq_append_iff] at hs'
  obtain ⟨u, rfl, hy⟩ | ⟨u, rfl, hy⟩ := hs'
  · cases u with
    | nil =>
      obtain rfl : y = y' := (List.cons.inj hy).2
      rw [hp] at hp'
      cases hp'
      rw [hlast, List.append_nil]
    | cons b u =>
      have hnone := hlater u y' (List.cons.inj hy).2
      rw [hp'] at hnone
      cases hnone
  · rw [List.length_append] at hle
    obtain rfl : u = [] := List.length_eq_zero_iff.1 (by omega)
    obtain rfl : y' = y := (List.cons.inj hy).2
    rw [hp] at hp'
    cases hp'
    simpa using hlast

theorem lastSplit_eq_none {s : List α} (h : ∀ x y, s = x ++ d :: y → p y = none) : lastSplit p d s = none := by
  rw [← Option.not_isSome_iff_eq_none, Option.isSome_iff_exists]
  rintro ⟨⟨⟨x, c⟩, rest⟩, hlast⟩
  obtain ⟨y, hs, hp⟩ := lastSplit_split hlast
  rw [h x y hs] at hp
  cases hp

/-! ## Alternatives -/

/-- The split that the first successful pattern finds is one where the patterns, tried on what is
behind it, find the same. -/
theorem findSome_lastSplit {ps : List (List α → Option (γ × List α))} {s x rest : List α} {c : γ}
    (h : (ps.findSome? fun p => lastSplit p d s) = some ((x, c), rest)) :
    ∃ p ∈ ps, ∃ y, lastSplit p d s = some ((x, c), rest) ∧ s = x ++ d :: y ∧ p y = some (c, rest) ∧
      (ps.findSome? fun p => p y) = some (c, rest) := by
  induction ps with
  | nil => cases h
  | cons p ps ih =>
    rw [List.findSome?_cons] at h
    cases hp : lastSplit p d s with
    | some r =>
      rw [hp] at h
      obtain rfl := Option.some_inj.1 h
      obtain ⟨y, hs, hy⟩ := lastSplit_split hp
      exact ⟨p, List.mem_cons_self, y, hp, hs, hy, by rw [List.findSome?_cons, hy]⟩
    | none =>
      rw [hp] at h
      obtain ⟨p', hp', y, hlast, hs, hy, hfind⟩ := ih h
      have hnone : p y = none := by
        cases hpy : p y with
        | none => rfl
        | some r =>
          have hsome := lastSplit_isSome hs (hpy ▸ rfl : (p y).isSome)
          rw [hp] at hsome
          cases hsome
      exact ⟨p', List.mem_cons_of_mem _ hp', y, hlast, hs, hy, by rw [List.findSome?_cons, hnone, hfind]⟩

/-- Where the pattern matches behind no later delimiter. -/
theorem lastSplit_of_no_later {x y : List α} (hx : d ∉ x) (hlater : ∀ u z, y = u ++ d :: z → p z = none) :
    lastSplit p d (x ++ d :: y) = (p y).map fun r => ((x, r.1), r.2) := by
  cases hp : p y with
  | some r => exact lastSplit_eq rfl hp hlater
  | none =>
    refine lastSplit_eq_none fun x' z h => ?_
    obtain ⟨u, -, h⟩ := split_of_not_mem_left hx h
    cases u with
    | nil => rw [← (List.cons.inj h).2, hp]
    | cons b u => exact hlater u z (List.cons.inj h).2

/-- The patterns, where none matches behind a later delimiter. -/
theorem findSome_lastSplit_of_no_later {ps : List (List α → Option (γ × List α))} {x y : List α} (hx : d ∉ x)
    (hlater : ∀ p ∈ ps, ∀ u z, y = u ++ d :: z → p z = none) :
    (ps.findSome? fun p => lastSplit p d (x ++ d :: y)) =
      (ps.findSome? fun p => p y).map fun r => ((x, r.1), r.2) := by
  induction ps with
  | nil => rfl
  | cons p ps ih =>
    rw [List.findSome?_cons, List.findSome?_cons, lastSplit_of_no_later hx (hlater p List.mem_cons_self)]
    cases p y with
    | none => exact ih fun p' hp' => hlater p' (List.mem_cons_of_mem _ hp')
    | some r => rfl

end Scan
