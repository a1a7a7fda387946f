import Mathlib.Algebra.GroupWithZero.Nat
import Mathlib.Algebra.Order.Group.Int
import Mathlib.Data.List.Basic
import Mathlib.Tactic.Common

/-!
# Scanning decimal numbers

The part of `sscanf` that reads a format of integer conversions, with or without
a maximal width, and of characters that have to match.  Numbers are unbounded.

    a number is read up to the first byte that is no digit       (scanInt_digits)
    at most `w` bytes of it are with a width                     (scanInt_width)
-/

namespace Scanf


def isSpace (c : UInt8) : Bool := c = 32 || (9 ≤ c && c ≤ 13)

def isDigit (c : UInt8) : Bool := 48 ≤ c && c ≤ 57

/-- The number a string of digits stands for. -/
def value (digits : List UInt8) : ℕ := digits.foldl (fun n c => n * 10 + (c.toNat - 48)) 0

inductive Directive where
  | int (width : Option ℕ)
  | char (c : UInt8)

/-- The sign of a field and the bytes it takes. -/
def signOf (field : List UInt8) : ℤ × ℕ :=
  if field.head? = some 45 then (-1, 1) else if field.head? = some 43 then (1, 1) else (1, 0)

/-- `%d`, or `%wd`: white space, a sign, digits, and what is left of the input. -/
def scanInt (width : Option ℕ) (s : List UInt8) : Option (ℤ × List UInt8) :=
  let s := s.dropWhile isSpace
  let field := match width with
    | none => s
    | some w => s.take w
  let sign := signOf field
  let digits := (field.drop sign.2).takeWhile isDigit
  if digits = [] then none else some (sign.1 * value digits, s.drop (sign.2 + digits.length))

/-- The numbers converted before the first directive that fails. -/
def sscanf : List Directive → List UInt8 → List ℤ
  | [], _ => []
  | .int width :: format, s =>
    match scanInt width s with
    | none => []
    | some (n, rest) => n :: sscanf format rest
  | .char c :: format, s => if s.head? = some c then sscanf format s.tail else []

/-! ## Digits -/

/-- What follows does not go on with digits. -/
def NoDigit (rest : List UInt8) : Prop := ∀ c ∈ rest.head?, isDigit c = false

theorem takeWhile_digits {digits rest : List UInt8} (h : ∀ c ∈ digits, isDigit c = true) (hrest : NoDigit rest) :
    (digits ++ rest).takeWhile isDigit = digits := by
  induction digits with
  | nil =>
    cases rest with
    | nil => rfl
    | cons c rest =>
      rw [List.nil_append, List.takeWhile_cons_of_neg]
      rw [hrest c rfl]
      decide
  | cons c digits ih =>
    rw [List.cons_append, List.takeWhile_cons_of_pos (h c List.mem_cons_self),
      ih fun d hd => h d (List.mem_cons_of_mem c hd)]

theorem not_space_of_digit {c : UInt8} (h : isDigit c = true) : isSpace c = false := by
  unfold isDigit at h
  rw [Bool.and_eq_true, decide_eq_true_iff, UInt8.le_iff_toNat_le] at h
  have h48 : 48 ≤ c.toNat := h.1
  unfold isSpace
  rw [Bool.or_eq_false_iff, Bool.and_eq_false_iff, decide_eq_false_iff_not, decide_eq_false_iff_not,
    decide_eq_false_iff_not]
  refine ⟨?_, Or.inr ?_⟩
  · rintro rfl
    exact absurd h48 (by decide)
  · rw [UInt8.le_iff_toNat_le]
    show ¬ c.toNat ≤ 13
    omega

theorem signOf_digit {c : UInt8} (h : isDigit c = true) (field : List UInt8) : signOf (c :: field) = (1, 0) := by
  have h45 : c ≠ 45 := by
    rintro rfl
    exact absurd h (by decide)
  have h43 : c ≠ 43 := by
    rintro rfl
    exact absurd h (by decide)
  unfold signOf
  rw [List.head?_cons, if_neg (by simpa using h45), if_neg (by simpa using h43)]

/-! ## Numbers -/

theorem scanInt_digits {digits rest : List UInt8} (hne : digits ≠ []) (h : ∀ c ∈ digits, isDigit c = true)
    (hrest : NoDigit rest) : scanInt none (digits ++ rest) = some ((value digits : ℤ), rest) := by
  obtain ⟨c, tail, rfl⟩ := List.exists_cons_of_ne_nil hne
  have hc := h c List.mem_cons_self
  unfold scanInt
  rw [List.cons_append, List.dropWhile_cons_of_neg (by simp [not_space_of_digit hc])]
  simp only [signOf_digit hc, List.drop_zero]
  rw [← List.cons_append, takeWhile_digits h hrest, if_neg hne, Nat.zero_add, List.drop_left, Int.one_mul]

theorem scanInt_minus {digits rest : List UInt8} (hne : digits ≠ []) (h : ∀ c ∈ digits, isDigit c = true)
    (hrest : NoDigit rest) : scanInt none (45 :: (digits ++ rest)) = some (-(value digits : ℤ), rest) := by
  have hsign : signOf (45 :: (digits ++ rest)) = (-1, 1) := rfl
  unfold scanInt
  rw [List.dropWhile_cons_of_neg (by decide)]
  simp only [hsign, List.drop_succ_cons, List.drop_zero]
  rw [takeWhile_digits h hrest, if_neg hne, Nat.add_comm, List.drop_succ_cons, List.drop_left, Int.neg_mul, Int.one_mul]

/-- With a width what follows may be anything. -/
theorem scanInt_width {digits : List UInt8} (hne : digits ≠ []) (h : ∀ c ∈ digits, isDigit c = true) (rest : List UInt8) :
    scanInt (some digits.length) (digits ++ rest) = some ((value digits : ℤ), rest) := by
  obtain ⟨c, tail, rfl⟩ := List.exists_cons_of_ne_nil hne
  have hc := h c List.mem_cons_self
  have hall : (c :: tail).takeWhile isDigit = c :: tail := by
    have hnil : NoDigit [] := by
      intro d hd
      cases hd
    have htake := takeWhile_digits h hnil
    rwa [List.append_nil] at htake
  unfold scanInt
  rw [List.cons_append, List.dropWhile_cons_of_neg (by simp [not_space_of_digit hc]), ← List.cons_append]
  simp only [List.take_left, signOf_digit hc, List.drop_zero]
  rw [hall, if_neg hne, Nat.zero_add, List.drop_left, Int.one_mul]

/-! ## Formats -/

theorem sscanf_int {width : Option ℕ} {s rest : List UInt8} {n : ℤ} (h : scanInt width s = some (n, rest))
    (format : List Directive) : sscanf (.int width :: format) s = n :: sscanf format rest := by
  rw [sscanf, h]

theorem sscanf_char (c : UInt8) (format : List Directive) (rest : List UInt8) :
    sscanf (.char c :: format) (c :: rest) = sscanf format rest := by
  rw [sscanf, List.head?_cons, if_pos rfl, List.tail_cons]

/-! ## Printing -/

/-- `%d` of a number that is not negative. -/
def decimal (n : ℕ) : List UInt8 := (Nat.toDigits 10 n).map fun c => c.toNat.toUInt8

theorem char_digit {c : Char} (h : c.isDigit = true) :
    c.toNat.toUInt8.toNat = c.toNat ∧ isDigit c.toNat.toUInt8 = true := by
  simp only [Char.isDigit, Bool.and_eq_true, decide_eq_true_eq] at h
  have h48 : 48 ≤ c.toNat := UInt32.le_iff_toNat_le.mp h.1
  have h57 : c.toNat ≤ 57 := UInt32.le_iff_toNat_le.mp h.2
  have hbyte : c.toNat.toUInt8.toNat = c.toNat := UInt8.toNat_ofNat'.trans (Nat.mod_eq_of_lt (by omega))
  refine ⟨hbyte, ?_⟩
  unfold isDigit
  rw [Bool.and_eq_true, decide_eq_true_iff, decide_eq_true_iff, UInt8.le_iff_toNat_le, UInt8.le_iff_toNat_le, hbyte]
  exact ⟨h48, h57⟩

theorem decimal_digits (n : ℕ) : ∀ c ∈ decimal n, isDigit c = true := by
  intro c hc
  obtain ⟨d, hd, rfl⟩ := List.mem_map.1 hc
  exact (char_digit (Nat.isDigit_of_mem_toDigits (by decide) (by decide) hd)).2

theorem decimal_ne_nil (n : ℕ) : decimal n ≠ [] := by
  unfold decimal
  intro h
  have hpos := Nat.length_toDigits_pos (b := 10) (n := n)
  rw [List.map_eq_nil_iff.1 h] at hpos
  exact lt_irrefl 0 hpos

/-- Reading back what was printed. -/
theorem value_decimal (n : ℕ) : value (decimal n) = n := by
  have hfold : ∀ (l : List Char) (m : ℕ), (∀ c ∈ l, c.isDigit = true) →
      (l.map fun c => c.toNat.toUInt8).foldl (fun n c => n * 10 + (c.toNat - 48)) m = Nat.ofDigitChars 10 l m := by
    intro l
    induction l with
    | nil =>
      intro m _
      rfl
    | cons c l ih =>
      intro m h
      rw [List.map_cons, List.foldl_cons, ih _ fun d hd => h d (List.mem_cons_of_mem c hd),
        Nat.ofDigitChars_cons, (char_digit (h c List.mem_cons_self)).1, Nat.mul_comm]
      rfl
  unfold value decimal
  rw [hfold _ _ fun c hc => Nat.isDigit_of_mem_toDigits (by decide) (by decide) hc, Nat.ofDigitChars_ten_toDigits]

theorem length_decimal {n k : ℕ} (h : 10 ^ k ≤ n) : k < (decimal n).length := by
  unfold decimal
  rw [List.length_map]
  by_contra hle
  by_cases hk : k = 0
  · have := Nat.length_toDigits_pos (b := 10) (n := n)
    omega
  · have := (Nat.length_toDigits_le_iff (by decide) (by omega)).1 (not_lt.1 hle)
    omega

end Scanf
