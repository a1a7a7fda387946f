import Mathlib.Data.List.TakeWhile
import Mathlib.Tactic.Common

/-!
# Back references

A list is written as elements, runs of one element and copies of what was
written some way back.  A copy goes element by element, so that it may reach
into itself.

    t stands in l at i → t.append (l.take i) = some (l.take (i + t.length))     (Token.StandsAt.append)
-/

namespace BackReferences

variable {α : Type}

inductive Token (α : Type)
  | lit (c : α)
  | run (c : α) (n : Nat)
  | copy (dist n : Nat)

/-- So many elements from `dist` back, one after the other. -/
def copyBack (dist : Nat) : Nat → List α → Option (List α)
  | 0, out => some out
  | n + 1, out =>
    if dist ≤ out.length then
      match out[out.length - dist]? with
      | some c => copyBack dist n (out ++ [c])
      | none => none
    else none

/-- What a token adds to the list written so far. -/
def Token.append : Token α → List α → Option (List α)
  | .lit c, out => some (out ++ [c])
  | .run c n, out => some (out ++ List.replicate n c)
  | .copy dist n, out => copyBack dist n out

def expand : List (Token α) → List α → Option (List α)
  | [], out => some out
  | t :: ts, out => (t.append out).bind (expand ts)

theorem expand_append (ts ts' : List (Token α)) (out : List α) :
    expand (ts ++ ts') out = (expand ts out).bind (expand ts') := by
  induction ts generalizing out with
  | nil => rfl
  | cons t ts ih =>
    rw [List.cons_append, expand, expand]
    cases t.append out with
    | none => rfl
    | some out' => exact ih out'

/-! ## Tokens of a list -/

def Token.length : Token α → Nat
  | .lit _ => 1
  | .run _ n => n
  | .copy _ n => n

/-- The token is what stands in the list from position `i` on. -/
def Token.StandsAt (l : List α) (i : Nat) : Token α → Prop
  | .lit c => l[i]? = some c
  | .run c n => ∀ k < n, l[i + k]? = some c
  | .copy dist n => 0 < dist ∧ dist ≤ i ∧ i + n ≤ l.length ∧ ∀ k < n, l[i - dist + k]? = l[i + k]?

theorem take_succ_of_getElem? {l : List α} {i : Nat} {c : α} (h : l[i]? = some c) :
    l.take i ++ [c] = l.take (i + 1) := by
  rw [List.take_add_one, h]
  rfl

theorem take_add_replicate {l : List α} {i n : Nat} {c : α} (h : ∀ k < n, l[i + k]? = some c) :
    l.take i ++ List.replicate n c = l.take (i + n) := by
  induction n with
  | zero => simp
  | succ n ih =>
    have htail := ih fun k hk => h k (by omega)
    rw [List.replicate_succ', ← List.append_assoc, htail]
    exact take_succ_of_getElem? (h n (by omega))

/-- A copy whose elements have been compared goes on along the list. -/
theorem copyBack_take {l : List α} {i dist n : Nat} (hpos : 0 < dist) (hle : dist ≤ i) (hlen : i + n ≤ l.length)
    (h : ∀ k < n, l[i - dist + k]? = l[i + k]?) : copyBack dist n (l.take i) = some (l.take (i + n)) := by
  induction n generalizing i with
  | zero => rfl
  | succ n ih =>
    have htake : (l.take i).length = i := by
      rw [List.length_take]
      omega
    obtain ⟨c, hc⟩ : ∃ c, l[i]? = some c := ⟨_, List.getElem?_eq_getElem (show i < l.length by omega)⟩
    have hback : (l.take i)[i - dist]? = some c := by
      have hfirst := h 0 (Nat.succ_pos n)
      rw [Nat.add_zero, Nat.add_zero, hc] at hfirst
      rw [List.getElem?_take_of_lt (by omega), hfirst]
    rw [copyBack, htake, if_pos hle]
    simp only [hback]
    rw [take_succ_of_getElem? hc, ih (by omega) (by omega) fun k hk => ?_]
    · rw [show i + 1 + n = i + (n + 1) by omega]
    · have hnext := h (k + 1) (by omega)
      rwa [show i - dist + (k + 1) = i + 1 - dist + k by omega, show i + (k + 1) = i + 1 + k by omega] at hnext

theorem Token.StandsAt.append {l : List α} {i : Nat} {t : Token α} (h : t.StandsAt l i) :
    t.append (l.take i) = some (l.take (i + t.length)) := by
  cases t with
  | lit c => exact congrArg some (take_succ_of_getElem? h)
  | run c n => exact congrArg some (take_add_replicate h)
  | copy dist n =>
    obtain ⟨hpos, hle, hlen, hsame⟩ := h
    exact copyBack_take hpos hle hlen hsame

/-- Tokens that give the list up to a position, and one more that stands there. -/
theorem expand_snoc {l : List α} {i : Nat} {ts : List (Token α)} {t : Token α}
    (hts : expand ts [] = some (l.take i)) (ht : t.StandsAt l i) :
    expand (ts ++ [t]) [] = some (l.take (i + t.length)) := by
  rw [expand_append, hts, Option.bind_some, expand, ht.append]
  rfl

end BackReferences
