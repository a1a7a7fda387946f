import RdfStore.Concrete

/-!
# Numbers and the calls before them (`rdfstore_xsd.c`)

Both number recognisers end in `if( errno == ERANGE ) return 0`, and neither
clears `errno` before it calls `strtol` or `strtod`.  So what they answer depends
on the calls made before in the same process.

    errno after a history: was any of its numbers out of range?    (errnoAfter_eq_any)
    the answer is the one of a fresh process ↔ none was, or the
      text is no number in range anyway                            (numberCall_fresh_iff)
-/

namespace RdfStore

open ByteMem

/-- A call of one of the recognisers, with the string it is given. -/
inductive NumberCall where
  | integer (string : Option Bytes)
  | double (string : Option Bytes)

variable (ext : Externals)

/-- `errno == ERANGE` afterwards, and the value when the answer is 1. -/
def NumberCall.run (errno : Bool) : NumberCall → Bool × Option Bytes
  | integer string => rdfstoreXsdDeserializeInteger ext errno string
  | double string => rdfstoreXsdDeserializeDouble ext errno string

/-- `errno == ERANGE` after a process has made the calls. -/
def errnoAfter (history : List NumberCall) : Bool := history.foldl (fun errno c => (c.run ext errno).1) false

/-- The bytes up to the NUL and what the C library makes of them; nothing for a null pointer. -/
def NumberCall.conversion : NumberCall → Option (Bytes × Conversion)
  | integer string => string.map fun s => (cstr s, ext.strtol (cstr s))
  | double string => string.map fun s => (cstr s, ext.strtod (cstr s))

/-- The number is out of the range of its type. -/
def NumberCall.erange (c : NumberCall) : Bool := (c.conversion ext).any fun p => p.2.erange

/-- Something is converted, and only white space follows. -/
def NumberCall.isNumber (c : NumberCall) : Bool :=
  (c.conversion ext).any fun p => 0 < p.2.consumed ∧ (p.1.drop p.2.consumed).all isspace

theorem acceptNumber_eq (r : Conversion) (errno : Bool) (string : Bytes) :
    acceptNumber r errno string = (errno || r.erange,
      if (decide (0 < r.consumed ∧ (string.drop r.consumed).all isspace) = true ∧ (errno || r.erange) = false)
        then some r.value else none) := by
  unfold acceptNumber
  simp only [decide_eq_true_eq, and_assoc]

/-- One call: `errno` is only ever set, and a number counts when it is not. -/
theorem NumberCall.run_eq (errno : Bool) (c : NumberCall) :
    c.run ext errno = (errno || c.erange ext,
      if c.isNumber ext = true ∧ (errno || c.erange ext) = false then (c.conversion ext).map fun p => p.2.value
      else none) := by
  cases c with
  | integer string =>
    cases string with
    | none => simp [run, rdfstoreXsdDeserializeInteger, erange, isNumber, conversion]
    | some s => exact acceptNumber_eq (ext.strtol (cstr s)) errno (cstr s)
  | double string =>
    cases string with
    | none => simp [run, rdfstoreXsdDeserializeDouble, erange, isNumber, conversion]
    | some s => exact acceptNumber_eq (ext.strtod (cstr s)) errno (cstr s)

theorem errnoAfter_eq_any (history : List NumberCall) :
    errnoAfter ext history = history.any (NumberCall.erange ext) := by
  have hrun : ∀ (errno : Bool), history.foldl (fun e c => (c.run ext e).1) errno =
      (errno || history.any (NumberCall.erange ext)) := by
    induction history with
    | nil =>
      intro errno
      exact (Bool.or_false errno).symm
    | cons c history ih =>
      intro errno
      rw [List.foldl_cons, ih, NumberCall.run_eq, List.any_cons, Bool.or_assoc]
  rw [errnoAfter, hrun, Bool.false_or]

/-- A call answers as in a fresh process when no earlier number was out of range, when its text is no number,
or when its own number is out of range; and then only. -/
theorem numberCall_fresh_iff (history : List NumberCall) (c : NumberCall) :
    (c.run ext (errnoAfter ext history)).2 = (c.run ext false).2 ↔
      (∀ e ∈ history, e.erange ext = false) ∨ c.isNumber ext = false ∨ c.erange ext = true := by
  rw [NumberCall.run_eq, NumberCall.run_eq, errnoAfter_eq_any, Bool.false_or]
  by_cases hany : history.any (NumberCall.erange ext) = true
  · have hsome : ¬ ∀ e ∈ history, e.erange ext = false := by
      intro hall
      rw [List.any_eq_true] at hany
      obtain ⟨e, he, heq⟩ := hany
      rw [hall e he] at heq
      exact absurd heq (by decide)
    rw [hany, Bool.true_or, or_iff_right hsome, if_neg fun h => absurd h.2 (by decide)]
    by_cases hc : c.isNumber ext = true ∧ c.erange ext = false
    · obtain ⟨p, hp⟩ : ∃ p, c.conversion ext = some p := by
        have hnumber := hc.1
        unfold NumberCall.isNumber at hnumber
        rw [Option.any_eq_true] at hnumber
        exact ⟨hnumber.choose, hnumber.choose_spec.1⟩
      rw [if_pos hc, hc.1, hc.2, hp, Option.map_some]
      constructor
      · intro h
        exact absurd h.symm (Option.some_ne_none _)
      · rintro (h | h)
        · exact absurd h (by decide)
        · exact absurd h (by decide)
    · rw [if_neg hc]
      refine iff_of_true rfl ?_
      by_cases hnumber : c.isNumber ext = false
      · exact Or.inl hnumber
      · refine Or.inr ?_
        by_contra herange
        exact hc ⟨by simpa using hnumber, by simpa using herange⟩
  · have hall : ∀ e ∈ history, e.erange ext = false := by
      intro e he
      by_contra heq
      exact hany (List.any_eq_true.2 ⟨e, he, by simpa using heq⟩)
    rw [Bool.eq_false_iff.2 hany, Bool.false_or]
    exact iff_of_true rfl (Or.inl hall)

/-- After a number out of range, 5 is not recognised. -/
theorem number_depends_on_history : ¬ ∀ history c,
    (NumberCall.run asciiExternals (errnoAfter asciiExternals history) c).2 = (c.run asciiExternals false).2 := by
  intro h
  have hcall := h [.integer (some (ascii "99999999999999999999"))] (.integer (some (ascii "5")))
  revert hcall
  decide

end RdfStore
