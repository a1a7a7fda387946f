import Mathlib.Data.List.Basic
import Mathlib.Logic.Function.Basic

/-!
# A value with scopes

A scope can set the value; the old one is then saved under the key of the scope, and is
put back when the scope ends.

    Scoped init s ((k, v) :: scopes)  from  Scoped init s scopes                (Scoped.enter)
    Scoped init (s.leave k) scopes    from  Scoped init s ((k, v) :: scopes)    (Scoped.leave)
-/

namespace RdfStore.SavedValues

variable {κ α : Type} [DecidableEq κ]

/-- The value in force, and what is saved under the keys. -/
structure Saved (κ α : Type) where
  current : α
  saved : κ → Option α

/-! ## Algorithm -/

/-- The value before any scope. -/
def Saved.init (a : α) : Saved κ α := ⟨a, fun _ => none⟩

/-- The scope with the key sets the value. -/
def Saved.enter (s : Saved κ α) (k : κ) (a : α) : Saved κ α :=
  ⟨a, Function.update s.saved k (some s.current)⟩

/-- The scope with the key ends. -/
def Saved.leave (s : Saved κ α) (k : κ) : Saved κ α :=
  match s.saved k with
  | some a => ⟨a, Function.update s.saved k none⟩
  | none => s

/-- The scope with the key sets a value, or it does not. -/
def Saved.enterOpt (s : Saved κ α) (k : κ) : Option α → Saved κ α
  | some a => s.enter k a
  | none => s

/-! ## The scopes, the innermost first -/

/-- The value of the innermost scope that sets one. -/
def inForce (init : α) : List (Option α) → α
  | [] => init
  | v :: vs => v.getD (inForce init vs)

/-- What is saved under a key: the value around the scope, if the scope sets one. -/
def savedAt (init : α) : List (κ × Option α) → κ → Option α
  | [], _ => none
  | (k', v) :: scopes, k =>
    if k = k' then v.map fun _ => inForce init (scopes.map (·.2)) else savedAt init scopes k

/-- The value is that of the scopes, and the values around them are saved. -/
structure Scoped (init : α) (s : Saved κ α) (scopes : List (κ × Option α)) : Prop where
  current : s.current = inForce init (scopes.map (·.2))
  saved : ∀ k, s.saved k = savedAt init scopes k

variable {init : α} {s : Saved κ α} {scopes : List (κ × Option α)} {k : κ} {v : Option α}

theorem savedAt_of_not_mem (h : k ∉ scopes.map (·.1)) : savedAt init scopes k = none := by
  induction scopes with
  | nil => rfl
  | cons a scopes ih =>
    rw [List.map_cons, List.mem_cons, not_or] at h
    rw [savedAt, if_neg h.1]
    exact ih h.2

theorem scoped_init : Scoped init (Saved.init init : Saved κ α) [] where
  current := rfl
  saved _ := rfl

/-- A scope begins. -/
theorem Scoped.enter (h : Scoped init s scopes) (hk : k ∉ scopes.map (·.1)) :
    Scoped init (s.enterOpt k v) ((k, v) :: scopes) := by
  cases v with
  | none =>
    refine ⟨h.current, fun k' => ?_⟩
    show s.saved k' = savedAt init ((k, none) :: scopes) k'
    rw [h.saved k', savedAt]
    split_ifs with hk'
    · rw [hk', savedAt_of_not_mem hk]
      rfl
    · rfl
  | some a =>
    refine ⟨rfl, fun k' => ?_⟩
    show Function.update s.saved k (some s.current) k' = savedAt init ((k, some a) :: scopes) k'
    rw [savedAt]
    split_ifs with hk'
    · rw [hk', Function.update_self, h.current]
      rfl
    · rw [Function.update_of_ne hk', h.saved k']

/-- The innermost scope ends. -/
theorem Scoped.leave (h : Scoped init s ((k, v) :: scopes)) (hk : k ∉ scopes.map (·.1)) :
    Scoped init (s.leave k) scopes := by
  have hsaved : s.saved k = v.map fun _ => inForce init (scopes.map (·.2)) := by
    rw [h.saved k, savedAt, if_pos rfl]
  have hother : ∀ k', k' ≠ k → s.saved k' = savedAt init scopes k' := by
    intro k' hk'
    rw [h.saved k', savedAt, if_neg hk']
  unfold Saved.leave
  cases v with
  | none =>
    rw [hsaved]
    refine ⟨h.current, fun k' => ?_⟩
    by_cases hk' : k' = k
    · show s.saved k' = savedAt init scopes k'
      rw [hk', hsaved, savedAt_of_not_mem hk]
      rfl
    · exact hother k' hk'
  | some a =>
    rw [hsaved]
    refine ⟨rfl, fun k' => ?_⟩
    show Function.update s.saved k none k' = savedAt init scopes k'
    by_cases hk' : k' = k
    · rw [hk', Function.update_self, savedAt_of_not_mem hk]
    · rw [Function.update_of_ne hk', hother k' hk']

end RdfStore.SavedValues
