import Mathlib.Data.List.TakeWhile
import Mathlib.Data.Option.Basic

/-!
# Tokens

Scanners for regular expressions that need no backtracking: a scanner takes what
it can from the front of a list.

    what the parts of a token read, the token reads      (Reads.seq)
    a token ends where it takes no more                  (reads_many)
-/

namespace Tokens

variable {α : Type*}

/-- What was taken, and the rest. -/
abbrev Scanner (α : Type*) := List α → Option (List α × List α)

def one (p : α → Bool) : Scanner α
  | [] => none
  | a :: s => if p a then some ([a], s) else none

def many (p : α → Bool) : Scanner α := fun s => some (s.takeWhile p, s.dropWhile p)

def many1 (p : α → Bool) : Scanner α := fun s =>
  match s.takeWhile p with
  | [] => none
  | x => some (x, s.dropWhile p)

def opt (q : Scanner α) : Scanner α := fun s => some ((q s).getD ([], s))

def seq (p q : Scanner α) : Scanner α := fun s =>
  (p s).bind fun t => (q t.2).map fun u => (t.1 ++ u.1, u.2)

/-! ## What is read -/

/-- In front of `s` the scanner takes `x` and no more. -/
def Reads (p : Scanner α) (x s : List α) : Prop := p (x ++ s) = some (x, s)

variable {p : α → Bool} {q q' : Scanner α} {x y s : List α} {a : α}

theorem Reads.opt (h : Reads q x s) : Reads (opt q) x s := by
  unfold Reads Tokens.opt
  rw [show q (x ++ s) = some (x, s) from h]
  rfl

theorem Reads.seq (hq : Reads q x (y ++ s)) (hq' : Reads q' y s) : Reads (seq q q') (x ++ y) s := by
  unfold Reads Tokens.seq
  rw [List.append_assoc, show q (x ++ (y ++ s)) = some (x, y ++ s) from hq, Option.bind_some,
    show q' (y ++ s) = some (y, s) from hq']
  rfl

theorem reads_one (ha : p a = true) (s : List α) : Reads (one p) [a] s := by
  unfold Reads one
  exact if_pos ha

/-- Up to an element that the token does not take. -/
theorem takeWhile_append_stop (hx : ∀ a ∈ x, p a = true) (hs : ∀ a ∈ s.head?, p a = false) :
    (x ++ s).takeWhile p = x ∧ (x ++ s).dropWhile p = s := by
  rw [List.takeWhile_append_of_pos hx, List.dropWhile_append_of_pos hx]
  cases s with
  | nil => exact ⟨List.append_nil x, rfl⟩
  | cons a s =>
    have ha : ¬ p a = true := Bool.eq_false_iff.1 (hs a rfl)
    rw [List.takeWhile_cons_of_neg ha, List.dropWhile_cons_of_neg ha]
    exact ⟨List.append_nil x, rfl⟩

theorem reads_many (hx : ∀ a ∈ x, p a = true) (hs : ∀ a ∈ s.head?, p a = false) : Reads (many p) x s := by
  obtain ⟨htake, hdrop⟩ := takeWhile_append_stop hx hs
  unfold Reads many
  rw [htake, hdrop]

theorem reads_many1 (hne : x ≠ []) (hx : ∀ a ∈ x, p a = true) (hs : ∀ a ∈ s.head?, p a = false) :
    Reads (many1 p) x s := by
  obtain ⟨htake, hdrop⟩ := takeWhile_append_stop hx hs
  unfold Reads many1
  rw [htake, hdrop]
  cases x with
  | nil => exact absurd rfl hne
  | cons a x => rfl

/-- An optional part that is missing. -/
theorem reads_opt_nil (h : q s = none) : Reads (opt q) [] s := by
  unfold Reads opt
  rw [List.nil_append, h]
  rfl

/-! ## What is not read -/

theorem one_none (hs : ∀ a ∈ s.head?, p a = false) : one p s = none := by
  cases s with
  | nil => rfl
  | cons a s => exact if_neg (Bool.eq_false_iff.1 (hs a rfl))

theorem many1_none (hs : ∀ a ∈ s.head?, p a = false) : many1 p s = none := by
  unfold many1
  cases s with
  | nil => rfl
  | cons a s => rw [List.takeWhile_cons_of_neg (Bool.eq_false_iff.1 (hs a rfl))]

theorem seq_none (h : q s = none) : seq q q' s = none := by
  unfold seq
  rw [h]
  rfl

/-- Behind the first part the second one goes on. -/
theorem Reads.seq_eq (hq : Reads q x s) : Tokens.seq q q' (x ++ s) = (q' s).map fun u => (x ++ u.1, u.2) := by
  unfold Tokens.seq
  rw [show q (x ++ s) = some (x, s) from hq, Option.bind_some]

/-- Where the second part is missing. -/
theorem Reads.seq_none (hq : Reads q x s) (hq' : q' s = none) : Tokens.seq q q' (x ++ s) = none := by
  rw [hq.seq_eq, hq']
  rfl

/-! ## What was taken -/

/-- What was taken was in front. -/
def Exact (q : Scanner α) : Prop := ∀ s x r, q s = some (x, r) → s = x ++ r

theorem exact_one : Exact (one p) := by
  intro s x r h
  cases s with
  | nil => cases h
  | cons a s =>
    by_cases ha : p a = true
    · rw [one, if_pos ha] at h
      cases h
      rfl
    · rw [one, if_neg ha] at h
      cases h

theorem exact_many : Exact (many p) := by
  intro s x r h
  cases h
  exact List.takeWhile_append_dropWhile.symm

theorem exact_many1 : Exact (many1 p) := by
  intro s x r h
  unfold many1 at h
  split at h
  · cases h
  · cases h
    exact List.takeWhile_append_dropWhile.symm

theorem of_mem_one {t : List α × List α} (h : one p s = some t) : ∀ b ∈ t.1, p b = true := by
  cases s with
  | nil => cases h
  | cons a s =>
    by_cases ha : p a = true
    · rw [one, if_pos ha] at h
      cases h
      intro b hb
      rwa [List.mem_singleton.1 hb]
    · rw [one, if_neg ha] at h
      cases h

theorem Exact.opt (hq : Exact q) : Exact (opt q) := by
  intro s x r h
  have hget := Option.some.inj h
  cases hqs : q s with
  | none =>
    rw [hqs] at hget
    cases hget
    rfl
  | some t =>
    rw [hqs] at hget
    obtain rfl : t = (x, r) := hget
    exact hq s x r hqs

theorem Exact.seq (hq : Exact q) (hq' : Exact q') : Exact (seq q q') := by
  intro s x r h
  obtain ⟨t, ht, h⟩ := Option.bind_eq_some_iff.1 h
  obtain ⟨u, hu, h⟩ := Option.map_eq_some_iff.1 h
  cases h
  rw [hq s t.1 t.2 ht, hq' t.2 u.1 u.2 hu, List.append_assoc]

theorem Exact.orElse (hq : Exact q) (hq' : Exact q') : Exact fun s => q s <|> q' s := by
  intro s x r h
  rcases (Option.orElse_eq_some _ _ _).1 h with h | ⟨-, h⟩
  · exact hq s x r h
  · exact hq' s x r h

/-- What was taken is not empty. -/
def Takes (q : Scanner α) : Prop := ∀ s x r, q s = some (x, r) → x ≠ []

theorem takes_one : Takes (one p) := by
  intro s x r h
  cases s with
  | nil => cases h
  | cons a s =>
    by_cases ha : p a = true
    · rw [one, if_pos ha] at h
      cases h
      exact List.cons_ne_nil _ _
    · rw [one, if_neg ha] at h
      cases h

theorem takes_many1 : Takes (many1 p) := by
  intro s x r h
  unfold many1 at h
  split at h
  · cases h
  · rename_i hne
    cases h
    exact hne

theorem Takes.seq_left (hq : Takes q) : Takes (seq q q') := by
  intro s x r h
  obtain ⟨t, ht, h⟩ := Option.bind_eq_some_iff.1 h
  obtain ⟨u, hu, h⟩ := Option.map_eq_some_iff.1 h
  cases h
  exact List.append_ne_nil_of_left_ne_nil (hq s t.1 t.2 ht) _

theorem Takes.seq_right (hq : Takes q') : Takes (seq q q') := by
  intro s x r h
  obtain ⟨t, ht, h⟩ := Option.bind_eq_some_iff.1 h
  obtain ⟨u, hu, h⟩ := Option.map_eq_some_iff.1 h
  cases h
  exact List.append_ne_nil_of_right_ne_nil _ (hq t.2 u.1 u.2 hu)

theorem Takes.orElse (hq : Takes q) (hq' : Takes q') : Takes fun s => q s <|> q' s := by
  intro s x r h
  rcases (Option.orElse_eq_some _ _ _).1 h with h | ⟨-, h⟩
  · exact hq s x r h
  · exact hq' s x r h

/-- What is left of the list is shorter. -/
theorem Exact.shorter (hq : Exact q) (htakes : Takes q) {r : List α} (h : q s = some (x, r)) : r.length < s.length := by
  rw [hq s x r h, List.length_append]
  have hpos := List.length_pos_iff.2 (htakes s x r h)
  omega

end Tokens
