import Mathlib.Logic.Function.Iterate
import Mathlib.Order.Basic
import Mathlib.Data.Nat.Init
import Mathlib.Order.Nat

/-!
# Recursive descent

Procedures that scan an input and call each other, as a machine with a stack.
Each procedure has a rank, and may claim that it takes something when it answers
`true`.  A check of the bodies, one after the other, is enough for a run to end:
a call is made behind something that was taken, or of a lower rank.

    every body passes the check, every loop that is entered returns
      → the run ends                                    (ends_of_loops_return)

A procedure that is marked as a loop is not checked.
-/

namespace Descent

/-- A part of the input is taken, or it is left as it is: the answer, and what is left. -/
structure Scan (S E : Type) (size : S → ℕ) where
  run : S → Except E (Bool × S)
  le : ∀ {s b s'}, run s = .ok (b, s') → size s' ≤ size s
  lt : ∀ {s s'}, run s = .ok (true, s') → size s' < size s

/-- Something is written down, and the input stays. -/
structure Update (S : Type) (size : S → ℕ) where
  run : S → S
  same : ∀ s, size (run s) = size s

/-- What is left to do of a procedure. -/
inductive Prog (S E : Type) (size : S → ℕ) (P : Type)
  | ret (b : Bool)
  | fail (e : S → E)
  | update (u : Update S size) (k : Prog S E size P)
  | scan (a : Scan S E size) (k : Bool → Prog S E size P)
  | call (p : P) (k : Bool → Prog S E size P)

section

variable {S E : Type} {size : S → ℕ} {P : Type}

/-- At work, with what the callers do with an answer; or at the end. -/
inductive Config (S E : Type) (size : S → ℕ) (P : Type)
  | running (prog : Prog S E size P) (stack : List (Bool → Prog S E size P)) (s : S)
  | returned (b : Bool) (s : S)
  | failed (e : E)

open Config Prog

def Config.Final : Config S E size P → Prop
  | .running .. => False
  | _ => True

variable (body : P → Prog S E size P)

def step : Config S E size P → Config S E size P
  | .running (.ret b) [] s => .returned b s
  | .running (.ret b) (k :: ks) s => .running (k b) ks s
  | .running (.fail e) _ s => .failed (e s)
  | .running (.update u k) ks s => .running k ks (u.run s)
  | .running (.scan a k) ks s =>
    match a.run s with
    | .error e => .failed e
    | .ok (b, s') => .running (k b) ks s'
  | .running (.call p k) ks s => .running (body p) (k :: ks) s
  | c => c

/-- After some steps the run is at an end. -/
def Ends (c : Config S E size P) : Prop := ∃ n, ((step body)^[n] c).Final

/-- Whoever calls `p` at `s` has an answer after some steps. -/
def Returns (p : P) (s : S) : Prop :=
  ∃ b s', size s' < size s ∧ ∀ ks, ∃ n, (step body)^[n] (.running (body p) ks s) = .running (.ret b) ks s'

/-- Every loop that is entered returns. -/
def LoopsReturn (loops : P → Bool) (c : Config S E size P) : Prop :=
  ∀ n p k ks s, (step body)^[n] c = .running (.call p k) ks s → loops p = true → Returns body p s

/-! ## The check -/

section

variable (loops takes : P → Bool) (rank : P → ℕ)

/-- The rest of a procedure of rank `r` that `claims` to take something, which has happened where `taken` is true. -/
def check (claims : Bool) (r : ℕ) : Bool → Prog S E size P → Bool
  | taken, .ret b => !(claims && b) || taken
  | _, .fail _ => true
  | taken, .update _ k => check claims r taken k
  | taken, .scan _ k => check claims r taken (k false) && check claims r true (k true)
  | taken, .call p k =>
    (loops p || taken || decide (rank p < r)) && check claims r (taken || loops p) (k false) &&
      check claims r (taken || loops p || takes p) (k true)

/-- Every procedure that is not marked as a loop. -/
def Checked : Prop := ∀ p, loops p = false → check loops takes rank (takes p) (rank p) false (body p) = true

end

/-! ## Runs -/

variable {body} {loops takes : P → Bool} {rank : P → ℕ} {c : Config S E size P}

theorem Ends.of_reached (n : ℕ) (h : Ends body ((step body)^[n] c)) : Ends body c := by
  obtain ⟨m, hm⟩ := h
  exact ⟨m + n, by rwa [Function.iterate_add_apply]⟩

theorem Config.Final.step (body : P → Prog S E size P) (h : c.Final) : step body c = c := by
  cases c with
  | running => exact h.elim
  | returned => rfl
  | failed => rfl

theorem Config.Final.iterate (body : P → Prog S E size P) (h : c.Final) (n : ℕ) : (Descent.step body)^[n] c = c :=
  Function.iterate_fixed (h.step body) n

theorem Ends.reached (n : ℕ) (h : Ends body c) : Ends body ((step body)^[n] c) := by
  obtain ⟨m, hm⟩ := h
  refine ⟨m, ?_⟩
  rw [← Function.iterate_add_apply, Nat.add_comm, Function.iterate_add_apply, hm.iterate body]
  exact hm

theorem LoopsReturn.reached (h : LoopsReturn body loops c) (n : ℕ) : LoopsReturn body loops ((step body)^[n] c) := by
  intro m p k ks s hc
  rw [← Function.iterate_add_apply] at hc
  exact h (m + n) p k ks s hc

/-- The run fails, or comes back with something taken from the `m` at the start, if it answers as `claims` says. -/
def Arrives (body : P → Prog S E size P) (claims : Bool) (ks : List (Bool → Prog S E size P)) (m : ℕ)
    (c : Config S E size P) : Prop :=
  ∃ n, (∃ e, (step body)^[n] c = .failed e) ∨
    ∃ b s, (step body)^[n] c = .running (.ret b) ks s ∧ size s ≤ m ∧ (claims = true → b = true → size s < m)

variable {claims : Bool} {ks : List (Bool → Prog S E size P)} {m : ℕ}

theorem Arrives.of_reached (n : ℕ) (h : Arrives body claims ks m ((step body)^[n] c)) : Arrives body claims ks m c := by
  obtain ⟨i, h⟩ := h
  rw [← Function.iterate_add_apply] at h
  exact ⟨i + n, h⟩

/-- The rest of a procedure comes back, if the procedures it calls do. -/
theorem arrives_of_check {r : ℕ}
    (hcalls : ∀ p ks s, loops p = false → LoopsReturn body loops (.running (body p) ks s) →
      size s < m ∨ (size s ≤ m ∧ rank p < r) → Arrives body (takes p) ks (size s) (.running (body p) ks s))
    (prog : Prog S E size P) {taken : Bool} (hcheck : check loops takes rank claims r taken prog = true) {s : S}
    (hsize : size s ≤ m) (htaken : taken = true → size s < m) (hloops : LoopsReturn body loops (.running prog ks s)) :
    Arrives body claims ks m (.running prog ks s) := by
  induction prog generalizing taken s with
  | ret b =>
    refine ⟨0, Or.inr ⟨b, s, rfl, hsize, fun hclaims hb => htaken ?_⟩⟩
    simpa [check, hclaims, hb] using hcheck
  | fail e => exact ⟨1, Or.inl ⟨e s, rfl⟩⟩
  | update u k ih =>
    have hsame := u.same s
    refine Arrives.of_reached 1 (ih hcheck (s := u.run s) ?_ ?_ (hloops.reached 1))
    · rwa [hsame]
    · rwa [hsame]
  | scan a k ih =>
    simp only [check, Bool.and_eq_true] at hcheck
    have hloops' := hloops.reached 1
    refine Arrives.of_reached 1 ?_
    cases hrun : a.run s with
    | error e =>
      refine ⟨0, Or.inl ⟨e, ?_⟩⟩
      simp only [Function.iterate_zero, id, Function.iterate_one, step, hrun]
    | ok t =>
      obtain ⟨b, s'⟩ := t
      have hstep : (step body)^[1] (.running (.scan a k) ks s) = .running (k b) ks s' := by
        simp only [Function.iterate_one, step, hrun]
      rw [hstep] at hloops' ⊢
      have hle := (a.le hrun).trans hsize
      cases b with
      | false => exact ih false hcheck.1 hle (fun h => (a.le hrun).trans_lt (htaken h)) hloops'
      | true => exact ih true hcheck.2 hle (fun _ => (a.lt hrun).trans_le hsize) hloops'
  | call p k ih =>
    simp only [check, Bool.and_eq_true, Bool.or_eq_true, decide_eq_true_eq] at hcheck
    obtain ⟨⟨hrank, hfalse⟩, htrue⟩ := hcheck
    have hcontinue : ∀ b s' n, (step body)^[n] (.running (.call p k) ks s) = .running (.ret b) (k :: ks) s' →
        size s' ≤ size s → (loops p = true → size s' < size s) → (takes p = true → b = true → size s' < size s) →
        Arrives body claims ks m (.running (.call p k) ks s) := by
      intro b s' n hn hle hloop htakes
      have hback : (step body)^[n + 1] (.running (.call p k) ks s) = .running (k b) ks s' := by
        rw [Function.iterate_succ_apply', hn]
        rfl
      have hloops' := hloops.reached (n + 1)
      refine Arrives.of_reached (n + 1) ?_
      rw [hback] at hloops' ⊢
      cases b with
      | false =>
        refine ih false hfalse (hle.trans hsize) (fun h => ?_) hloops'
        rcases Bool.or_eq_true_iff.1 h with h | h
        · exact hle.trans_lt (htaken h)
        · exact (hloop h).trans_le hsize
      | true =>
        refine ih true htrue (hle.trans hsize) (fun h => ?_) hloops'
        rcases Bool.or_eq_true_iff.1 h with h | h
        · rcases Bool.or_eq_true_iff.1 h with h | h
          · exact hle.trans_lt (htaken h)
          · exact (hloop h).trans_le hsize
        · exact (htakes h rfl).trans_le hsize
    cases hp : loops p with
    | true =>
      obtain ⟨b, s', hlt, hreturns⟩ := hloops 0 p k ks s rfl hp
      obtain ⟨n, hn⟩ := hreturns (k :: ks)
      exact hcontinue b s' (n + 1) hn hlt.le (fun _ => hlt) fun _ _ => hlt
    | false =>
      have hless : size s < m ∨ size s ≤ m ∧ rank p < r := by
        rcases hrank with (h | h) | h
        · rw [hp] at h
          cases h
        · exact Or.inl (htaken h)
        · exact Or.inr ⟨hsize, h⟩
      obtain ⟨n, ⟨e, hn⟩ | ⟨b, s', hn, hle, htakes⟩⟩ := hcalls p (k :: ks) s hp (hloops.reached 1) hless
      · exact ⟨n + 1, Or.inl ⟨e, hn⟩⟩
      · exact hcontinue b s' (n + 1) hn hle (fun h => by rw [hp] at h; cases h) htakes

/-- Every call comes back: by induction on the input, and on the rank where nothing was taken. -/
theorem call_arrives (hchecked : Checked body loops takes rank) (p : P) (hp : loops p = false)
    (ks : List (Bool → Prog S E size P)) (s : S) (hloops : LoopsReturn body loops (.running (body p) ks s)) :
    Arrives body (takes p) ks (size s) (.running (body p) ks s) := by
  induction hm : size s using Nat.strong_induction_on generalizing p ks s with
  | _ m ihsize =>
    induction hr : rank p using Nat.strong_induction_on generalizing p ks s with
    | _ r ihrank =>
      have hcheck := hchecked p hp
      rw [hr] at hcheck
      refine arrives_of_check (fun q ks s' hq hloops' hless => ?_) (body p) hcheck hm.le (by simp) hloops
      rcases hless with hlt | ⟨hle, hrank⟩
      · exact ihsize (size s') hlt q hq ks s' hloops' rfl
      · rcases hle.lt_or_eq with hlt | heq
        · exact ihsize (size s') hlt q hq ks s' hloops' rfl
        · rw [heq]
          exact ihrank (rank q) hrank q hq ks s' hloops' heq rfl

/-- **A run ends** when every body passes the check and every loop that is entered returns. -/
theorem ends_of_loops_return (hchecked : Checked body loops takes rank) {p : P} (hp : loops p = false) {s : S}
    (hloops : LoopsReturn body loops (.running (body p) [] s)) : Ends body (.running (body p) [] s) := by
  obtain ⟨n, ⟨e, hn⟩ | ⟨b, s', hn, -, -⟩⟩ := call_arrives hchecked p hp [] s hloops
  · exact ⟨n, by rw [hn]; trivial⟩
  · exact ⟨n + 1, by rw [Function.iterate_succ_apply', hn]; trivial⟩

end

end Descent
