import RdfStore.Utf8Table

/-!
# Texts in UTF-8 (`rdfstore_utf8.c`)

Two functions go over the bytes of a string, character by character.  A sequence
that is recognised goes into a buffer as it is; any other byte is taken for a code
point by itself, and its bytes in UTF-8 go there.  What is behind the string is a
NUL, which no sequence goes over.

    every text is code points and bytes that are none                     (Utf8Text.induction)
    the loop writes something for each of the code points it sees         (utf8Loop_eq)
    what it repairs it repairs to a text, once and for all                (utf8_repair)
-/

namespace RdfStore

open ByteMem

/-! ## The loop -/

/-- The character in `utf8_buff` and the `step` after it. -/
def utf8Buff (a : UInt8) (rest : Bytes) : Bytes × Nat :=
  match rdfstoreUtf8IsUtf8 (a :: rest) with
  | some utf8Size => ((a :: rest).take utf8Size, utf8Size)
  | none => (rdfstoreUtf8CpToUtf8 a.toNat, 1)

/-- The loop over the input, with `skip` bytes of a character to pass; `output` is what is written
for the buffer. -/
def utf8Loop (output : Bytes → Bytes) : Nat → Bytes → Bytes
  | _, [] => []
  | skip + 1, _ :: rest => utf8Loop output skip rest
  | 0, a :: rest => output (utf8Buff a rest).1 ++ utf8Loop output ((utf8Buff a rest).2 - 1) rest

/-- `rdfstore_utf8_string_to_utf8` -/
def rdfstoreUtf8StringToUtf8 (s : Bytes) : Bytes := utf8Loop id 0 s

/-! ## Code points -/

/-- Code points one after the other. -/
def utf8Encode (cps : List Nat) : Bytes := cps.flatMap rdfstoreUtf8CpToUtf8

/-- The code points that the loop sees. -/
def codePointsFrom : Nat → Bytes → List Nat
  | _, [] => []
  | skip + 1, _ :: rest => codePointsFrom skip rest
  | 0, a :: rest =>
    match rdfstoreUtf8IsUtf8 (a :: rest) with
    | some utf8Size => (rdfstoreUtf8Utf8ToCp utf8Size (a :: rest)).toList ++ codePointsFrom (utf8Size - 1) rest
    | none => a.toNat :: codePointsFrom 0 rest

def codePoints (s : Bytes) : List Nat := codePointsFrom 0 s

/-- Sequences that are recognised, one after the other. -/
inductive IsUtf8Text : Bytes → Prop
  | nil : IsUtf8Text []
  | cons {a : UInt8} {rest : Bytes} {n : Nat} : rdfstoreUtf8IsUtf8 (a :: rest) = some n →
      IsUtf8Text ((a :: rest).drop n) → IsUtf8Text (a :: rest)

@[simp] theorem utf8Encode_nil : utf8Encode [] = [] := rfl

@[simp] theorem utf8Encode_cons (c : Nat) (cps : List Nat) :
    utf8Encode (c :: cps) = rdfstoreUtf8CpToUtf8 c ++ utf8Encode cps := rfl

@[simp] theorem codePoints_nil : codePoints [] = [] := rfl

/-- A string is read from its start: a code point or a byte that is none. -/
theorem Utf8Text.induction {P : Bytes → Prop} (nil : P [])
    (cp : ∀ c < 0x80000000, ∀ rest, P rest → P (rdfstoreUtf8CpToUtf8 c ++ rest))
    (invalid : ∀ a rest, rdfstoreUtf8IsUtf8 (a :: rest) = none → P rest → P (a :: rest)) (s : Bytes) : P s := by
  induction hlen : s.length using Nat.strong_induction_on generalizing s with
  | _ n ih =>
    subst hlen
    cases s with
    | nil => exact nil
    | cons a rest =>
      cases hutf8 : rdfstoreUtf8IsUtf8 (a :: rest) with
      | none => exact invalid a rest hutf8 (ih rest.length (Nat.lt_succ_self _) rest rfl)
      | some n =>
        obtain ⟨c, hc, -, tail, htail⟩ := exists_cp_of_isUtf8 hutf8
        have hpos := List.length_pos_iff.2 (cpToUtf8_ne_nil c)
        rw [← htail] at ih ⊢
        exact cp c hc tail (ih tail.length (by rw [List.length_append]; omega) tail rfl)

section

variable {output : Bytes → Bytes} {c : Nat} {a : UInt8} {rest : Bytes}

theorem utf8Loop_skip (l rest : Bytes) : utf8Loop output l.length (l ++ rest) = utf8Loop output 0 rest := by
  induction l with
  | nil => rfl
  | cons a l ih => exact ih

theorem codePointsFrom_skip (l rest : Bytes) : codePointsFrom l.length (l ++ rest) = codePoints rest := by
  induction l with
  | nil => rfl
  | cons a l ih => exact ih

theorem utf8Loop_cp (hc : c < 0x80000000) (rest : Bytes) :
    utf8Loop output 0 (rdfstoreUtf8CpToUtf8 c ++ rest) = output (rdfstoreUtf8CpToUtf8 c) ++ utf8Loop output 0 rest := by
  have hutf8 := isUtf8_cp hc rest
  obtain ⟨a, l, hcons⟩ := List.exists_cons_of_ne_nil (cpToUtf8_ne_nil c)
  rw [hcons, List.cons_append] at hutf8 ⊢
  rw [utf8Loop, utf8Buff, hutf8]
  simp only [List.length_cons, Nat.add_sub_cancel, List.take_succ_cons, List.take_left, utf8Loop_skip]

theorem utf8Loop_invalid (h : rdfstoreUtf8IsUtf8 (a :: rest) = none) :
    utf8Loop output 0 (a :: rest) = output (rdfstoreUtf8CpToUtf8 a.toNat) ++ utf8Loop output 0 rest := by
  rw [utf8Loop, utf8Buff, h]
  rfl

theorem codePoints_cp (hc : c < 0x80000000) (rest : Bytes) :
    codePoints (rdfstoreUtf8CpToUtf8 c ++ rest) = c :: codePoints rest := by
  have hutf8 := isUtf8_cp hc rest
  have hcp := utf8ToCp_cp hc rest
  obtain ⟨a, l, hcons⟩ := List.exists_cons_of_ne_nil (cpToUtf8_ne_nil c)
  rw [hcons, List.cons_append] at hutf8 hcp ⊢
  rw [codePoints, codePointsFrom, hutf8]
  simp only [hcp]
  rw [List.length_cons, Nat.add_sub_cancel, codePointsFrom_skip, Option.toList_some, List.singleton_append]

theorem codePoints_invalid (h : rdfstoreUtf8IsUtf8 (a :: rest) = none) :
    codePoints (a :: rest) = a.toNat :: codePoints rest := by
  rw [codePoints, codePointsFrom, h]
  rfl

end

/-- A byte and a code point that the loop has read are 31-bit code points. -/
theorem codePoints_lt (s : Bytes) : ∀ c ∈ codePoints s, c < 0x80000000 := by
  induction s using Utf8Text.induction with
  | nil => exact fun c hc => (by cases hc)
  | cp c hc rest ih =>
    rw [codePoints_cp hc]
    exact List.forall_mem_cons.2 ⟨hc, ih⟩
  | invalid a rest h ih =>
    rw [codePoints_invalid h]
    exact List.forall_mem_cons.2 ⟨a.toNat_lt.trans (by decide), ih⟩

theorem utf8Loop_eq (output : Bytes → Bytes) (s : Bytes) :
    utf8Loop output 0 s = (codePoints s).flatMap fun c => output (rdfstoreUtf8CpToUtf8 c) := by
  induction s using Utf8Text.induction with
  | nil => rfl
  | cp c hc rest ih => rw [utf8Loop_cp hc, codePoints_cp hc, List.flatMap_cons, ih]
  | invalid a rest h ih => rw [utf8Loop_invalid h, codePoints_invalid h, List.flatMap_cons, ih]

theorem stringToUtf8_eq (s : Bytes) : rdfstoreUtf8StringToUtf8 s = utf8Encode (codePoints s) := utf8Loop_eq _ s

theorem codePoints_utf8Encode {cps : List Nat} (h : ∀ c ∈ cps, c < 0x80000000) :
    codePoints (utf8Encode cps) = cps := by
  induction cps with
  | nil => rfl
  | cons c cps ih =>
    obtain ⟨hc, hcps⟩ := List.forall_mem_cons.1 h
    rw [utf8Encode_cons, codePoints_cp hc, ih hcps]

/-! ## Texts -/

theorem IsUtf8Text.append_cp {c : Nat} (hc : c < 0x80000000) {rest : Bytes} (h : IsUtf8Text rest) :
    IsUtf8Text (rdfstoreUtf8CpToUtf8 c ++ rest) := by
  have hutf8 := isUtf8_cp hc rest
  have hdrop : (rdfstoreUtf8CpToUtf8 c ++ rest).drop (rdfstoreUtf8CpToUtf8 c).length = rest := List.drop_left
  obtain ⟨a, l, hcons⟩ := List.exists_cons_of_ne_nil (cpToUtf8_ne_nil c)
  rw [hcons, List.cons_append] at hutf8 hdrop ⊢
  exact .cons hutf8 (by rw [hdrop]; exact h)

theorem isUtf8Text_utf8Encode {cps : List Nat} (h : ∀ c ∈ cps, c < 0x80000000) : IsUtf8Text (utf8Encode cps) := by
  induction cps with
  | nil => exact .nil
  | cons c cps ih =>
    obtain ⟨hc, hcps⟩ := List.forall_mem_cons.1 h
    exact (ih hcps).append_cp hc

theorem IsUtf8Text.utf8Encode_codePoints {s : Bytes} (h : IsUtf8Text s) : utf8Encode (codePoints s) = s := by
  induction h with
  | nil => rfl
  | cons hutf8 _ ih =>
    obtain ⟨c, hc, rfl, tail, htail⟩ := exists_cp_of_isUtf8 hutf8
    rw [← htail, List.drop_left] at ih
    rw [← htail, codePoints_cp hc, utf8Encode_cons, ih]

/-- What is written is a text, a text stays as it is, and repairing twice is repairing once. -/
theorem utf8_repair (s : Bytes) :
    IsUtf8Text (rdfstoreUtf8StringToUtf8 s) ∧ (IsUtf8Text s → rdfstoreUtf8StringToUtf8 s = s) ∧
      rdfstoreUtf8StringToUtf8 (rdfstoreUtf8StringToUtf8 s) = rdfstoreUtf8StringToUtf8 s := by
  rw [stringToUtf8_eq, stringToUtf8_eq, codePoints_utf8Encode (codePoints_lt s)]
  exact ⟨isUtf8Text_utf8Encode (codePoints_lt s), fun h => h.utf8Encode_codePoints, rfl⟩

/-- A text of two characters, and a string whose last character is cut off. -/
theorem utf8_repair_two :
    rdfstoreUtf8StringToUtf8 [0xc3, 0xa9, 0x41] = [0xc3, 0xa9, 0x41] ∧
      rdfstoreUtf8StringToUtf8 [0x41, 0xc3] = [0x41, 0xc3, 0x83] := by
  have htext : IsUtf8Text [0xc3, 0xa9, 0x41] :=
    .cons (n := 2) (by decide) (.cons (n := 1) (by decide) .nil)
  exact ⟨(utf8_repair _).2.1 htext, by decide⟩

end RdfStore
