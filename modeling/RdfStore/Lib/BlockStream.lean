import Mathlib.Data.List.Basic

/-!
# Streams in blocks

A state is folded over the full blocks of a list, and what does not fill a block
is left over.

    state s (l ++ m) = state (state s l) (rest l ++ m)      (state_append)
    rest (l ++ m) = rest (rest l ++ m)                      (rest_append)
-/

namespace BlockStream

variable {α σ : Type} (n : Nat) (f : σ → List α → σ)

/-- The state after the first blocks. -/
def absorb : Nat → σ → List α → σ
  | 0, s, _ => s
  | k + 1, s, l => absorb k (f s (l.take n)) (l.drop n)

/-- The state after all full blocks. -/
def state (s : σ) (l : List α) : σ := absorb n f (l.length / n) s l

/-- What is left behind the full blocks. -/
def rest (l : List α) : List α := l.drop (l.length / n * n)

theorem absorb_append {k : Nat} (s : σ) {l : List α} (h : k * n ≤ l.length) (m : List α) :
    absorb n f k s (l ++ m) = absorb n f k s l := by
  induction k generalizing s l with
  | zero => rfl
  | succ k ih =>
    have hn : n ≤ l.length := Nat.le_trans (Nat.le_mul_of_pos_left n k.succ_pos) h
    rw [Nat.succ_mul] at h
    rw [absorb, absorb, List.take_append_of_le_length hn, List.drop_append_of_le_length hn]
    exact ih _ (by rw [List.length_drop]; omega)

theorem absorb_add (j k : Nat) (s : σ) (l : List α) :
    absorb n f (j + k) s l = absorb n f k (absorb n f j s l) (l.drop (j * n)) := by
  induction j generalizing s l with
  | zero => simp [absorb]
  | succ j ih =>
    rw [Nat.succ_add, absorb, ih, absorb, List.drop_drop, Nat.succ_mul, Nat.add_comm n]

theorem length_rest (l : List α) : (rest n l).length = l.length % n := by
  rw [rest, List.length_drop, Nat.mod_eq_sub_div_mul]

variable {n}

theorem length_rest_lt (hn : 0 < n) (l : List α) : (rest n l).length < n :=
  length_rest n l ▸ Nat.mod_lt _ hn

theorem div_length_append (hn : 0 < n) (l m : List α) :
    (l ++ m).length / n = l.length / n + (rest n l ++ m).length / n := by
  rw [List.length_append, List.length_append, length_rest, ← Nat.mul_add_div hn, ← Nat.add_assoc, Nat.div_add_mod]

theorem drop_append_of_div (l m : List α) : (l ++ m).drop (l.length / n * n) = rest n l ++ m :=
  List.drop_append_of_le_length (Nat.div_mul_le_self _ _)

theorem state_append (hn : 0 < n) (s : σ) (l m : List α) :
    state n f s (l ++ m) = state n f (state n f s l) (rest n l ++ m) := by
  unfold state
  rw [div_length_append hn, absorb_add, absorb_append n f s (Nat.div_mul_le_self _ _), drop_append_of_div]

theorem rest_append (hn : 0 < n) (l m : List α) : rest n (l ++ m) = rest n (rest n l ++ m) := by
  conv_lhs => unfold rest
  rw [div_length_append hn, Nat.add_mul, ← List.drop_drop, drop_append_of_div]
  rfl

theorem state_of_lt (s : σ) {l : List α} (h : l.length < n) : state n f s l = s := by
  rw [state, Nat.div_eq_of_lt h]
  rfl

theorem rest_of_lt {l : List α} (h : l.length < n) : rest n l = l := by
  rw [rest, Nat.div_eq_of_lt h, Nat.zero_mul, List.drop_zero]

theorem div_length_block (hn : 0 < n) {l : List α} (h : l.length = n) (m : List α) :
    (l ++ m).length / n = m.length / n + 1 := by
  rw [List.length_append, h, Nat.add_div_left _ hn]

theorem state_block (hn : 0 < n) (s : σ) {l : List α} (h : l.length = n) (m : List α) :
    state n f s (l ++ m) = state n f (f s l) m := by
  rw [state, div_length_block hn h, absorb, List.take_left' h, List.drop_left' h]
  rfl

theorem rest_block (hn : 0 < n) {l : List α} (h : l.length = n) (m : List α) : rest n (l ++ m) = rest n m := by
  rw [rest, div_length_block hn h, Nat.succ_mul, Nat.add_comm, ← List.drop_drop, List.drop_left' h]
  rfl

end BlockStream
