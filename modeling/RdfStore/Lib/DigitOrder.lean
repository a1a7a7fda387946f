import Mathlib.Data.List.Lex
import Mathlib.Order.Lattice
import RdfStore.Lib.Scanf

/-!
# The byte order of written numbers

Byte strings stand in lexicographic order, as `strcmp` and a b-tree without a
comparison of its own have them.  Fields of one width are compared one after
another, and strings of digits of one width as the numbers they write.

    ‖a‖ = ‖b‖ → (a ++ x < b ++ y ↔ the numbers of a and b, or equal and x < y)
                                                                (digits_append_lt_iff)
-/

namespace Scanf

/-! ## Strings of digits -/

theorem foldl_value (l : List UInt8) (n : ℕ) :
    l.foldl (fun n c => n * 10 + (c.toNat - 48)) n = n * 10 ^ l.length + value l := by
  induction l generalizing n with
  | nil =>
    show n = n * 1 + 0
    omega
  | cons c l ih =>
    have hcons : value (c :: l) = (0 * 10 + (c.toNat - 48)) * 10 ^ l.length + value l := ih _
    rw [List.foldl_cons, ih, hcons, List.length_cons, Nat.pow_succ, Nat.add_mul, Nat.zero_mul, Nat.zero_add,
      Nat.mul_comm (10 ^ l.length), Nat.mul_assoc, Nat.add_assoc]

theorem value_cons (c : UInt8) (l : List UInt8) : value (c :: l) = (c.toNat - 48) * 10 ^ l.length + value l := by
  have hfold : value (c :: l) = (0 * 10 + (c.toNat - 48)) * 10 ^ l.length + value l := foldl_value l _
  rwa [Nat.zero_mul, Nat.zero_add] at hfold

theorem digit_toNat {c : UInt8} (h : isDigit c = true) : 48 ≤ c.toNat ∧ c.toNat ≤ 57 := by
  unfold isDigit at h
  rw [Bool.and_eq_true, decide_eq_true_iff, decide_eq_true_iff, UInt8.le_iff_toNat_le, UInt8.le_iff_toNat_le] at h
  exact h

theorem value_lt {l : List UInt8} (h : ∀ c ∈ l, isDigit c = true) : value l < 10 ^ l.length := by
  induction l with
  | nil => exact Nat.one_pos
  | cons c l ih =>
    have hc := digit_toNat (h c List.mem_cons_self)
    have hl := ih fun d hd => h d (List.mem_cons_of_mem c hd)
    have hle : (c.toNat - 48) * 10 ^ l.length ≤ 9 * 10 ^ l.length := Nat.mul_le_mul_right _ (by omega)
    rw [value_cons, List.length_cons, Nat.pow_succ]
    omega

/-- Two fields of digits of one width, and what follows them. -/
theorem digits_append_lt_iff {a b : List UInt8} (hlen : a.length = b.length) (ha : ∀ c ∈ a, isDigit c = true)
    (hb : ∀ c ∈ b, isDigit c = true) (x y : List UInt8) :
    a ++ x < b ++ y ↔ value a < value b ∨ value a = value b ∧ x < y := by
  induction a generalizing b with
  | nil =>
    obtain rfl := List.eq_nil_of_length_eq_zero hlen.symm
    simp
  | cons c a ih =>
    cases b with
    | nil => cases hlen
    | cons d b =>
      have hlen' : a.length = b.length := Nat.succ_inj.1 hlen
      have ha' : ∀ e ∈ a, isDigit e = true := fun e he => ha e (List.mem_cons_of_mem c he)
      have hb' : ∀ e ∈ b, isDigit e = true := fun e he => hb e (List.mem_cons_of_mem d he)
      have hc := digit_toNat (ha c List.mem_cons_self)
      have hd := digit_toNat (hb d List.mem_cons_self)
      have hva := value_lt ha'
      have hvb := value_lt hb'
      rw [hlen'] at hva
      rw [List.cons_append, List.cons_append, List.cons_lt_cons_iff, ih hlen' ha' hb', value_cons, value_cons, hlen',
        UInt8.lt_iff_toNat_lt, ← UInt8.toNat_inj]
      rcases Nat.lt_trichotomy c.toNat d.toNat with hlt | heq | hgt
      · have hmul : (c.toNat - 48 + 1) * 10 ^ b.length ≤ (d.toNat - 48) * 10 ^ b.length :=
          Nat.mul_le_mul_right _ (by omega)
        rw [Nat.add_mul, Nat.one_mul] at hmul
        exact iff_of_true (Or.inl hlt) (Or.inl (by omega))
      · rw [heq]
        simp
      · have hmul : (d.toNat - 48 + 1) * 10 ^ b.length ≤ (c.toNat - 48) * 10 ^ b.length :=
          Nat.mul_le_mul_right _ (by omega)
        rw [Nat.add_mul, Nat.one_mul] at hmul
        exact iff_of_false (by omega) (by omega)

theorem cons_lt_cons_self (c : UInt8) (x y : List UInt8) : c :: x < c :: y ↔ x < y := by
  rw [List.cons_lt_cons_iff]
  simp

end Scanf

/-! ## Keys -/

/-- A key of a b-tree whose order is that of the bytes. -/
structure ByteKey where
  bytes : List UInt8
  deriving DecidableEq

namespace ByteKey

theorem map_toNat_lt_iff (a b : List UInt8) : a.map UInt8.toNat < b.map UInt8.toNat ↔ a < b := by
  induction a generalizing b with
  | nil =>
    cases b with
    | nil => simp
    | cons d b => simp
  | cons c a ih =>
    cases b with
    | nil => simp
    | cons d b =>
      rw [List.map_cons, List.map_cons, List.cons_lt_cons_iff, List.cons_lt_cons_iff, ih, UInt8.lt_iff_toNat_lt,
        UInt8.toNat_inj]

instance : LinearOrder ByteKey :=
  LinearOrder.lift' (fun k => k.bytes.map UInt8.toNat) fun k l h => by
    cases k
    cases l
    exact congrArg ByteKey.mk (List.map_injective_iff.2 (fun _ _ => UInt8.toNat_inj.1) h)

theorem lt_iff {k l : ByteKey} : k < l ↔ k.bytes < l.bytes := map_toNat_lt_iff k.bytes l.bytes

end ByteKey
