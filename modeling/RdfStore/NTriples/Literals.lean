import RdfStore.NTriples.ReadBack

/-!
# Reading the literal of a line

What stands behind the string decides which expression matches, and that one
takes the last quotation mark with such a thing behind it.

    a plain literal is read back, and no other         (scanLiteral_of_plain, plain_of_scanLiteral)
-/

namespace RdfStore.NTriples

open ByteMem Scan

/-! ## The four expressions -/

/-- A datatype behind the string, with a language or without one. -/
def typedPatterns : List (Bytes → Option (Suffix × Bytes)) :=
  [scanLangType, fun y => (scanType y).map fun t => (([], t.1), t.2)]

/-- What may stand behind the string, in the order in which it is tried. -/
def suffixPatterns : List (Bytes → Option (Suffix × Bytes)) :=
  typedPatterns ++ [fun y => (scanAtLang y).map fun l => ((l.1, []), l.2), fun y => some (([], []), y)]

theorem scanLiteral_cons (s : Bytes) :
    scanLiteral (0x22 :: s) = suffixPatterns.findSome? fun p => lastSplit p 0x22 s := by
  have h : ∀ p, scanQuoted p (0x22 :: s) = lastSplit p 0x22 s := by
    intro p
    rw [scanQuoted, if_pos rfl]
  unfold scanLiteral suffixPatterns typedPatterns
  rw [h, h, h, h, List.cons_append, List.findSome?_cons]
  cases lastSplit scanLangType 0x22 s with
  | some r => rfl
  | none =>
    rw [List.cons_append, List.findSome?_cons]
    cases lastSplit (fun y => (scanType y).map fun t => (([], t.1), t.2)) 0x22 s with
    | some r => rfl
    | none =>
      rw [List.nil_append, List.findSome?_cons]
      cases lastSplit (fun y => (scanAtLang y).map fun l => ((l.1, []), l.2)) 0x22 s with
      | some r => rfl
      | none =>
        rw [List.findSome?_cons]
        cases lastSplit (fun y => some (([], []), y)) 0x22 s <;> rfl

/-! ## Languages -/

theorem scanLang_eq (s : Bytes) :
    scanLang s =
      if s.takeWhile isLangChar = [] then none
      else
        match s.dropWhile isLangChar with
        | [] => some (s.takeWhile isLangChar, s.dropWhile isLangChar)
        | m :: t =>
          if m = 0x2d ∧ t.takeWhile isLangChar ≠ [] then
            some (s.takeWhile isLangChar ++ 0x2d :: t.takeWhile isLangChar, t.dropWhile isLangChar)
          else some (s.takeWhile isLangChar, s.dropWhile isLangChar) := rfl

theorem scanLang_chars {s l r : Bytes} (h : scanLang s = some (l, r)) :
    l ≠ [] ∧ ∀ a ∈ l, isLangChar a = true ∨ a = 0x2d := by
  have htake : ∀ t : Bytes, ∀ a ∈ t.takeWhile isLangChar, isLangChar a = true := fun t a ha => List.mem_takeWhile_imp ha
  rw [scanLang_eq] at h
  by_cases hnil : s.takeWhile isLangChar = []
  · rw [if_pos hnil] at h
    cases h
  · rw [if_neg hnil] at h
    split at h
    · cases h
      exact ⟨hnil, fun a ha => Or.inl (htake s a ha)⟩
    · split_ifs at h
      · cases h
        refine ⟨by simp, fun a ha => ?_⟩
        rcases List.mem_append.1 ha with ha | ha
        · exact Or.inl (htake s a ha)
        · rcases List.mem_cons.1 ha with rfl | ha
          · exact Or.inr rfl
          · exact Or.inl (htake _ a ha)
      · cases h
        exact ⟨hnil, fun a ha => Or.inl (htake s a ha)⟩

/-- Nothing that a language would take. -/
structure EndsLang (a : UInt8) : Prop where
  noChar : isLangChar a = false
  noHyphen : a ≠ 0x2d

theorem takeWhile_lang {part : Bytes} (h : ∀ a ∈ part, isLangChar a = true) {b : UInt8} (hb : isLangChar b = false)
    (z : Bytes) :
    (part ++ b :: z).takeWhile isLangChar = part ∧ (part ++ b :: z).dropWhile isLangChar = b :: z := by
  rw [List.takeWhile_append_of_pos h, List.dropWhile_append_of_pos h]
  simp [hb]

theorem scanLang_langTag {lang : List Bytes} (hparts : ∀ part ∈ lang, part ≠ [] ∧ ∀ a ∈ part, isLangChar a = true)
    (hne : lang ≠ []) (hlen : lang.length ≤ 2) {b : UInt8} (hb : EndsLang b) (z : Bytes) :
    scanLang (langTag lang ++ b :: z) = some (langTag lang, b :: z) := by
  match lang with
  | [part] =>
    obtain ⟨hpart, hchars⟩ := hparts part List.mem_cons_self
    obtain ⟨htake, hdrop⟩ := takeWhile_lang hchars hb.noChar z
    rw [scanLang_eq, langTag, htake, hdrop, if_neg hpart]
    exact if_neg fun h => hb.noHyphen h.1
  | [part, part'] =>
    obtain ⟨hpart, hchars⟩ := hparts part List.mem_cons_self
    obtain ⟨hpart', hchars'⟩ := hparts part' (by simp)
    obtain ⟨htake, hdrop⟩ := takeWhile_lang hchars (show isLangChar 0x2d = false by decide) (part' ++ b :: z)
    obtain ⟨htake', hdrop'⟩ := takeWhile_lang hchars' hb.noChar z
    have happend : langTag [part, part'] ++ b :: z = part ++ 0x2d :: (part' ++ b :: z) := by simp [langTag]
    rw [scanLang_eq, happend, htake, hdrop, if_neg hpart]
    simp only [htake', hdrop']
    rw [if_pos ⟨trivial, hpart'⟩]
    rfl

theorem count_hyphen_chars {part : Bytes} (h : ∀ a ∈ part, isLangChar a = true) : part.count 0x2d = 0 := by
  rw [List.count_eq_zero]
  intro hmem
  exact absurd (h _ hmem) (by decide)

theorem count_hyphen_langTag {lang : List Bytes} (h : ∀ part ∈ lang, ∀ a ∈ part, isLangChar a = true) :
    (langTag lang).count 0x2d = lang.length - 1 := by
  match lang with
  | [] => rfl
  | [part] => exact count_hyphen_chars (h part List.mem_cons_self)
  | part :: part' :: parts =>
    have ih := count_hyphen_langTag fun p hp => h p (List.mem_cons_of_mem part hp)
    rw [langTag, List.count_append, count_hyphen_chars (h part List.mem_cons_self), List.count_cons_self, ih]
    · simp
    · simp

/-- A language that is found has at most one subtag. -/
theorem count_hyphen_scanLang {s l rest : Bytes} (h : scanLang s = some (l, rest)) : l.count 0x2d ≤ 1 := by
  have htake : ∀ t : Bytes, (t.takeWhile isLangChar).count 0x2d = 0 := fun t =>
    count_hyphen_chars fun _ ha => List.mem_takeWhile_imp ha
  rw [scanLang_eq] at h
  split at h
  · cases h
  · split at h
    · cases h
      rw [htake]
      exact Nat.zero_le _
    · split at h
      · cases h
        rw [List.count_append, List.count_cons_self, htake, htake]
      · cases h
        rw [htake]
        exact Nat.zero_le _

theorem count_hyphen_scanAtLang {s l rest : Bytes} (h : scanAtLang s = some (l, rest)) : l.count 0x2d ≤ 1 := by
  unfold scanAtLang at h
  split at h
  · split at h
    · exact count_hyphen_scanLang h
    · cases h
  · cases h

theorem count_hyphen_suffix {y rest : Bytes} {c : Suffix}
    (h : (suffixPatterns.findSome? fun p => p y) = some (c, rest)) : c.1.count 0x2d ≤ 1 := by
  obtain ⟨p, hp, heq⟩ := List.exists_of_findSome?_eq_some h
  simp only [suffixPatterns, typedPatterns, List.cons_append, List.nil_append, List.mem_cons, List.not_mem_nil,
    or_false] at hp
  rcases hp with rfl | rfl | rfl | rfl
  · obtain ⟨l, hl, heq⟩ := Option.bind_eq_some_iff.1 heq
    obtain ⟨t, ht, heq⟩ := Option.map_eq_some_iff.1 heq
    cases heq
    exact count_hyphen_scanAtLang hl
  · obtain ⟨t, ht, heq⟩ := Option.map_eq_some_iff.1 heq
    cases heq
    exact Nat.zero_le _
  · obtain ⟨l, hl, heq⟩ := Option.map_eq_some_iff.1 heq
    cases heq
    exact count_hyphen_scanAtLang hl
  · cases heq
    exact Nat.zero_le _

/-! ## What stands behind the string -/

/-- The language as it is written. -/
def langText (lang : List Bytes) : Bytes := if lang = [] then [] else 0x40 :: langTag lang

/-- The datatype as it is written. -/
def typeText : Option Bytes → Bytes
  | some dt => 0x5e :: 0x5e :: 0x3c :: (dt ++ [0x3e])
  | none => []

theorem suffixText_eq (lang : List Bytes) (dataType : Option Bytes) :
    suffixText lang dataType = langText lang ++ typeText dataType := rfl

def LangWellFormed (lang : List Bytes) : Prop := ∀ part ∈ lang, part ≠ [] ∧ ∀ a ∈ part, isLangChar a = true

theorem scanAtLang_langText {lang : List Bytes} (hlang : LangWellFormed lang) (hne : lang ≠ [])
    (hlen : lang.length ≤ 2) {b : UInt8} (hb : EndsLang b) (z : Bytes) :
    scanAtLang (langText lang ++ b :: z) = some (langTag lang, b :: z) := by
  rw [langText, if_neg hne, List.cons_append, scanAtLang, if_pos rfl]
  exact scanLang_langTag hlang hne hlen hb z

theorem scanType_append {x : Bytes} (hx : 0x3e ∉ x) (y : Bytes) :
    scanType (0x5e :: 0x5e :: 0x3c :: (x ++ 0x3e :: y)) = some (x, y) := by
  rw [scanType, if_pos ⟨rfl, rfl⟩]
  exact scanUriref_append hx y

theorem scanType_of_ne {a : UInt8} (ha : a ≠ 0x5e) (s : Bytes) : scanType (a :: s) = none := by
  cases s with
  | nil => rfl
  | cons b s =>
    rw [scanType, if_neg]
    exact fun h => ha h.1

theorem scanAtLang_of_ne {a : UInt8} (ha : a ≠ 0x40) (s : Bytes) : scanAtLang (a :: s) = none := if_neg ha

/-- With a datatype. -/
theorem suffix_typed {lang : List Bytes} (hlang : LangWellFormed lang) (hlen : lang.length ≤ 2) {x : Bytes}
    (hx : 0x3e ∉ x) (y : Bytes) :
    (typedPatterns.findSome? fun p => p (langText lang ++ 0x5e :: 0x5e :: 0x3c :: (x ++ 0x3e :: y))) =
      some ((langTag lang, x), y) := by
  by_cases hne : lang = []
  · subst hne
    have hat : scanLangType (0x5e :: 0x5e :: 0x3c :: (x ++ 0x3e :: y)) = none := by
      rw [scanLangType, scanAtLang_of_ne (by decide)]
      rfl
    simp only [langText, if_true, List.nil_append, typedPatterns, List.findSome?_cons, hat, scanType_append hx y,
      Option.map_some]
    rfl
  · have hat := scanAtLang_langText hlang hne hlen (b := 0x5e) ⟨by decide, by decide⟩ (0x5e :: 0x3c :: (x ++ 0x3e :: y))
    have htype : scanLangType (langText lang ++ 0x5e :: 0x5e :: 0x3c :: (x ++ 0x3e :: y)) =
        some ((langTag lang, x), y) := by
      rw [scanLangType, hat, Option.bind_some]
      simp only [scanType_append hx y, Option.map_some]
    rw [typedPatterns, List.findSome?_cons, htype]

/-- Without a datatype, in front of a blank. -/
theorem suffix_untyped {lang : List Bytes} (hlang : LangWellFormed lang) (hlen : lang.length ≤ 2) (y : Bytes) :
    (suffixPatterns.findSome? fun p => p (langText lang ++ 0x20 :: y)) = some ((langTag lang, []), 0x20 :: y) := by
  have htype : scanType (0x20 :: y) = none := scanType_of_ne (by decide) y
  by_cases hne : lang = []
  · subst hne
    have hat : scanAtLang (0x20 :: y) = none := scanAtLang_of_ne (by decide) y
    simp [langText, suffixPatterns, typedPatterns, scanLangType, hat, htype, langTag]
  · have hat := scanAtLang_langText hlang hne hlen (b := 0x20) ⟨by decide, by decide⟩ y
    have hlt : scanLangType (langText lang ++ 0x20 :: y) = none := by
      rw [scanLangType, hat, Option.bind_some]
      simp only [htype, Option.map_none]
    have htype' : scanType (langText lang ++ 0x20 :: y) = none := by
      rw [langText, if_neg hne]
      exact scanType_of_ne (by decide) _
    simp only [suffixPatterns, typedPatterns, List.cons_append, List.nil_append, List.findSome?_cons, hlt, htype',
      Option.map_none, hat, Option.map_some]

theorem scanType_typeText {dataType : Option Bytes} (htype : ∀ dt ∈ dataType, 0x3e ∉ dt) (r : Bytes) :
    scanType (typeText dataType ++ 0x20 :: r) = dataType.map fun dt => (dt, 0x20 :: r) := by
  cases dataType with
  | none => exact scanType_of_ne (by decide) r
  | some dt =>
    have happend : typeText (some dt) ++ 0x20 :: r = 0x5e :: 0x5e :: 0x3c :: (dt ++ 0x3e :: 0x20 :: r) := by
      simp [typeText]
    rw [happend]
    exact scanType_append (htype dt rfl) _

theorem scanAtLang_suffixText {lang : List Bytes} (hlang : LangWellFormed lang) (hlen : lang.length ≤ 2)
    (dataType : Option Bytes) (r : Bytes) :
    scanAtLang (suffixText lang dataType ++ 0x20 :: r) =
      if lang = [] then none else some (langTag lang, typeText dataType ++ 0x20 :: r) := by
  have hends : ∃ b z, typeText dataType ++ 0x20 :: r = b :: z ∧ EndsLang b ∧ b ≠ 0x40 := by
    cases dataType with
    | none => exact ⟨0x20, r, rfl, ⟨by decide, by decide⟩, by decide⟩
    | some dt => exact ⟨0x5e, _, rfl, ⟨by decide, by decide⟩, by decide⟩
  obtain ⟨b, z, heq, hb, hat⟩ := hends
  rw [suffixText_eq, List.append_assoc, heq]
  split
  · next hnil =>
    rw [langText, if_pos hnil]
    exact scanAtLang_of_ne hat z
  · next hne => exact scanAtLang_langText hlang hne hlen hb z

theorem scanType_suffixText (lang : List Bytes) {dataType : Option Bytes} (htype : ∀ dt ∈ dataType, 0x3e ∉ dt)
    (r : Bytes) :
    scanType (suffixText lang dataType ++ 0x20 :: r) =
      if lang = [] then dataType.map fun dt => (dt, 0x20 :: r) else none := by
  rw [suffixText_eq, List.append_assoc, langText]
  split
  · exact scanType_typeText htype r
  · exact scanType_of_ne (by decide) _

/-- Where an expression matches, it matches again with something else behind the blank. -/
theorem suffix_again {lang : List Bytes} (hlang : LangWellFormed lang) (hlen : lang.length ≤ 2)
    {dataType : Option Bytes} (htype : ∀ dt ∈ dataType, 0x3e ∉ dt) {p : Bytes → Option (Suffix × Bytes)}
    (hp : p ∈ suffixPatterns) {r : Bytes} (h : (p (suffixText lang dataType ++ 0x20 :: r)).isSome) (r' : Bytes) :
    (p (suffixText lang dataType ++ 0x20 :: r')).isSome := by
  have hlangType : ∀ r, (scanLangType (suffixText lang dataType ++ 0x20 :: r)).isSome =
      (decide (lang ≠ []) && dataType.isSome) := by
    intro r
    rw [scanLangType, scanAtLang_suffixText hlang hlen]
    split
    · next hnil => simp [hnil]
    · next hne => simp [scanType_typeText htype, hne]
  simp only [suffixPatterns, typedPatterns, List.cons_append, List.nil_append, List.mem_cons, List.not_mem_nil,
    or_false] at hp
  rcases hp with rfl | rfl | rfl | rfl
  · rwa [hlangType] at h ⊢
  · simp only [Option.isSome_map, scanType_suffixText lang htype] at h ⊢
    by_cases hnil : lang = []
    · simpa [hnil] using h
    · simp [hnil] at h
  · simp only [Option.isSome_map, scanAtLang_suffixText hlang hlen] at h ⊢
    by_cases hnil : lang = []
    · simp [hnil] at h
    · simp [hnil]
  · rfl

theorem typeText_some (dt : Bytes) (r : Bytes) :
    typeText (some dt) ++ r = 0x5e :: 0x5e :: 0x3c :: (dt ++ 0x3e :: r) := by
  simp [typeText]

/-- What is found behind a string in front of a blank. -/
theorem suffix_found {lang : List Bytes} (hlang : LangWellFormed lang) (hlen : lang.length ≤ 2)
    {dataType : Option Bytes} (htype : ∀ dt ∈ dataType, 0x3e ∉ dt) (r : Bytes) :
    (suffixPatterns.findSome? fun p => p (suffixText lang dataType ++ 0x20 :: r)) =
      some ((langTag lang, dataType.getD []), 0x20 :: r) := by
  cases dataType with
  | none =>
    have hnone : suffixText lang none = langText lang := List.append_nil _
    rw [hnone, suffix_untyped hlang hlen]
    rfl
  | some dt =>
    rw [suffixText_eq, List.append_assoc, typeText_some, suffixPatterns, List.findSome?_append,
      suffix_typed hlang hlen (htype dt rfl)]
    rfl

/-! ## Quotation marks behind the string -/

theorem scanLang_append {s l rest : Bytes} (h : scanLang s = some (l, rest)) : s = l ++ rest ∧ 0x3e ∉ l := by
  have htake : ∀ t : Bytes, 0x3e ∉ t.takeWhile isLangChar := by
    intro t hmem
    exact absurd (List.mem_takeWhile_imp hmem) (by decide)
  have hsplit : ∀ t : Bytes, t = t.takeWhile isLangChar ++ t.dropWhile isLangChar := fun t =>
    List.takeWhile_append_dropWhile.symm
  rw [scanLang_eq] at h
  split at h
  · cases h
  · split at h
    · cases h
      exact ⟨hsplit s, htake s⟩
    · next m t hdrop =>
      split at h
      · next hm =>
        cases h
        refine ⟨?_, ?_⟩
        · rw [List.append_assoc, List.cons_append, ← hsplit t, ← hm.1, ← hdrop]
          exact hsplit s
        · simp only [List.mem_append, List.mem_cons, not_or]
          exact ⟨htake s, by decide, htake t⟩
      · cases h
        exact ⟨hsplit s, htake s⟩

theorem scanType_langle {z : Bytes} (h : (scanType z).isSome) :
    ∃ w, z = 0x5e :: 0x5e :: 0x3c :: w := by
  unfold scanType at h
  split at h
  · next a b s =>
    split at h
    · next hab =>
      cases s with
      | nil => cases h
      | cons c s =>
        by_cases hc : c = 0x3c
        · exact ⟨s, by rw [hab.1, hab.2, hc]⟩
        · rw [scanUriref_of_ne hc] at h
          cases h
    · cases h
  · cases h

/-- The expressions with a datatype need an opening bracket. -/
theorem langType_langle {z : Bytes} (h : (scanLangType z).isSome) : ∃ u w, z = u ++ 0x3c :: w ∧ 0x3e ∉ u := by
  unfold scanLangType at h
  cases hat : scanAtLang z with
  | none =>
    rw [hat] at h
    cases h
  | some l =>
    rw [hat, Option.bind_some, Option.isSome_map] at h
    obtain ⟨w, hw⟩ := scanType_langle h
    unfold scanAtLang at hat
    split at hat
    · next a s =>
      split at hat
      · next ha =>
        obtain ⟨hs, hl⟩ := @scanLang_append s l.1 l.2 hat
        refine ⟨0x40 :: (l.1 ++ [0x5e, 0x5e]), w, ?_, ?_⟩
        · rw [hs, hw, ha]
          simp
        · simpa using hl
      · cases hat
    · cases hat

/-- Neither is found behind a quotation mark in the datatype. -/
theorem no_langle {u w dt r : Bytes} (hdt : 0x3c ∉ dt) (h : dt ++ 0x3e :: r = u ++ 0x3c :: w) (hu : 0x3e ∉ u) :
    False := by
  rw [List.append_eq_append_iff] at h
  obtain ⟨v, rfl, h⟩ | ⟨v, rfl, h⟩ := h
  · cases v with
    | nil => cases h
    | cons b v =>
      obtain ⟨rfl, -⟩ := List.cons.inj h
      exact hu (by simp)
  · cases v with
    | nil => cases h
    | cons b v =>
      obtain ⟨rfl, -⟩ := List.cons.inj h
      exact hdt (by simp)

theorem isLangChar_ne {a b : UInt8} (hb : isLangChar b = false) (h : isLangChar a = true) : a ≠ b := by
  rintro rfl
  rw [h] at hb
  cases hb

/-- The bytes of a language. -/
theorem not_mem_langTag {lang : List Bytes} (hlang : LangWellFormed lang) {b : UInt8} (hb : isLangChar b = false)
    (hhyphen : b ≠ 0x2d) : b ∉ langTag lang := by
  induction lang with
  | nil => exact List.not_mem_nil
  | cons part parts ih =>
    have hpart : b ∉ part := fun hmem => isLangChar_ne hb ((hlang part List.mem_cons_self).2 _ hmem) rfl
    have hparts := ih fun p hp => hlang p (List.mem_cons_of_mem _ hp)
    cases parts with
    | nil => exact hpart
    | cons part' parts =>
      simp only [langTag, List.mem_append, List.mem_cons, not_or]
      exact ⟨hpart, hhyphen, hparts⟩

theorem not_mem_langText {lang : List Bytes} (hlang : LangWellFormed lang) {b : UInt8} (hb : isLangChar b = false)
    (hhyphen : b ≠ 0x2d) (hat : b ≠ 0x40) : b ∉ langText lang := by
  unfold langText
  split
  · exact List.not_mem_nil
  · simp only [List.mem_cons, not_or]
    exact ⟨hat, not_mem_langTag hlang hb hhyphen⟩

theorem quote_not_mem_langText {lang : List Bytes} (hlang : LangWellFormed lang) : 0x22 ∉ langText lang :=
  not_mem_langText hlang (by decide) (by decide) (by decide)

/-- Behind the string of a literal with a datatype no later quotation mark counts. -/
theorem typed_no_later {lang : List Bytes} (hlang : LangWellFormed lang) {dt r : Bytes} (hdt : 0x3c ∉ dt)
    (hr : 0x22 ∉ r) {u z : Bytes}
    (h : langText lang ++ 0x5e :: 0x5e :: 0x3c :: (dt ++ 0x3e :: r) = u ++ 0x22 :: z) :
    scanLangType z = none ∧ scanType z = none := by
  obtain ⟨u, -, h⟩ := split_of_not_mem_left (quote_not_mem_langText hlang) h
  obtain ⟨u, -, h⟩ := split_of_not_mem_left (l := [0x5e, 0x5e, 0x3c]) (by decide) h
  obtain ⟨dt', rfl, rfl⟩ := split_of_not_mem_right (show 0x22 ∉ 0x3e :: r by simpa using hr) h
  have hdt' : 0x3c ∉ dt' := fun hmem => hdt (by simp [hmem])
  refine ⟨?_, ?_⟩
  · by_contra hne
    obtain ⟨u, w, hsplit, hu⟩ := langType_langle (Option.isSome_iff_ne_none.2 hne)
    exact no_langle hdt' hsplit hu
  · by_contra hne
    obtain ⟨w, hsplit⟩ := scanType_langle (Option.isSome_iff_ne_none.2 hne)
    exact no_langle (u := [0x5e, 0x5e]) hdt' hsplit (by decide)

/-! ## Literals -/

/-- A string without quotation marks is found with what stands behind it. -/
theorem scanLiteral_of_suffix {x : Bytes} (hx : 0x22 ∉ x) {lang : List Bytes} (hlang : LangWellFormed lang)
    (hlen : lang.length ≤ 2) {dataType : Option Bytes} (htype : ∀ dt ∈ dataType, 0x3e ∉ dt ∧ 0x3c ∉ dt) {r : Bytes}
    (hr : 0x22 ∉ r) :
    scanLiteral (0x22 :: (x ++ 0x22 :: (suffixText lang dataType ++ 0x20 :: r))) =
      some ((x, (langTag lang, dataType.getD [])), 0x20 :: r) := by
  rw [scanLiteral_cons]
  cases dataType with
  | none =>
    have hy : 0x22 ∉ suffixText lang none ++ 0x20 :: r := by
      have hquote := quote_not_mem_langText hlang
      simpa [suffixText_eq, typeText, hr] using hquote
    have hnone : suffixText lang none = langText lang := List.append_nil _
    rw [findSome_lastSplit_of_no_later hx, hnone, suffix_untyped hlang hlen]
    · rfl
    · intro p _ u z h
      rw [h] at hy
      exact absurd (by simp) hy
  | some dt =>
    obtain ⟨hdt, hdt'⟩ := htype dt rfl
    rw [suffixText_eq, List.append_assoc, typeText_some, suffixPatterns, List.findSome?_append,
      findSome_lastSplit_of_no_later hx, suffix_typed hlang hlen hdt]
    · rfl
    · intro p hp u z h
      obtain ⟨h1, h2⟩ := typed_no_later hlang hdt' (show 0x22 ∉ 0x20 :: r by simpa using hr) h
      simp only [typedPatterns, List.mem_cons, List.not_mem_nil, or_false] at hp
      rcases hp with rfl | rfl
      · exact h1
      · exact Option.map_eq_none_iff.2 h2

/-! ## The literal that is made -/

theorem cstringOfBytes {x : Bytes} {c : CString} (h : CString.ofBytes x = some c) : c.bytes = cstr x := by
  unfold CString.ofBytes at h
  split at h
  · cases h
    rfl
  · cases h

/-- The language or the datatype that is stored. -/
theorem bytes_nonEmpty (s : Option CString) :
    ((CString.nonEmpty s).map (·.bytes)).getD [] = (s.map (·.bytes)).getD [] := by
  cases s with
  | none => rfl
  | some s =>
    unfold CString.nonEmpty
    by_cases h : s.bytes = []
    · simp [Option.filter, h]
    · simp [Option.filter, List.length_pos_iff.2 h]

/-- A literal from C strings. -/
theorem contents_literalNew {s : Option CBuf} {pt : Int} {l dt : Option CString} {lit : Literal}
    (h : rdfstoreLiteralNew s pt l dt = some lit) :
    lit.bytes = (s.map (·.bytes)).getD [] ∧ lit.lang.bytes = (l.map (·.bytes)).getD [] ∧
      lit.lang.bytes.length ≤ maxLangLength ∧
      lit.dtBytes = if pt = 1 then xmlLiteralUri else (dt.map (·.bytes)).getD [] := by
  unfold rdfstoreLiteralNew at h
  split at h
  · cases h
  split at h
  · cases h
  split at h
  · cases h
  next hlang =>
    obtain rfl := Option.some_inj.1 h
    have hbytes := bytes_nonEmpty l
    have hlanguage : ((CString.nonEmpty l).getD CString.empty).bytes = (l.map (·.bytes)).getD [] := by
      rw [← hbytes]
      cases CString.nonEmpty l <;> rfl
    refine ⟨?_, hlanguage, ?_, ?_⟩
    · unfold Literal.bytes
      cases s with
      | none => rfl
      | some s =>
        unfold CBuf.nonEmpty
        by_cases hs : s.bytes = []
        · simp [Option.filter, hs]
        · simp [Option.filter, List.length_pos_iff.2 hs]
    · cases hl : CString.nonEmpty l with
      | none => exact Nat.zero_le _
      | some l' =>
        by_contra hlong
        exact hlang ⟨l', hl, not_le.1 hlong⟩
    · unfold Literal.dtBytes
      split
      · rfl
      · exact bytes_nonEmpty dt

theorem literalNew_isSome {s : Option CBuf} {pt : Int} {l dt : Option CString}
    (hlang : ∀ l' ∈ l, l'.bytes.length ≤ maxLangLength) (hpt : pt = 0 ∨ pt = 1 ∧ dt = some xmlLiteral) :
    ∃ lit, rdfstoreLiteralNew s pt l dt = some lit := by
  unfold rdfstoreLiteralNew
  rw [if_neg, if_neg, if_neg]
  · exact ⟨_, rfl⟩
  · rintro ⟨l', hl', hlong⟩
    have hmem : l' ∈ l := (Option.filter_eq_some_iff.1 hl').1
    exact absurd (hlang l' hmem) (not_le.2 hlong)
  · omega
  · rintro ⟨hne, d, hd, hxml⟩
    obtain ⟨-, rfl⟩ := hpt.resolve_left hne
    obtain ⟨hsome, -⟩ := Option.filter_eq_some_iff.1 hd
    exact hxml (Option.some_inj.1 hsome).symm

theorem map_ofBytes_cbuf (x : Bytes) :
    ((CBuf.ofBytes x).map (·.bytes)).getD [] = if x.length < 2 ^ 31 then x else [] := by
  unfold CBuf.ofBytes
  split <;> rfl

theorem map_ofBytes_cstring (x : Bytes) :
    ((CString.ofBytes x).map (·.bytes)).getD [] = if (cstr x).length < 2 ^ 31 then cstr x else [] := by
  unfold CString.ofBytes
  split <;> rfl

/-- What a literal that is read says. -/
theorem contents_literalNode {x l dt : Bytes} {node : Node} (h : literalNode (x, (l, dt)) = some node) :
    ∃ ls ds, nodeContents node = .literal (if (cstr x).length < 2 ^ 31 then cstr x else []) ls ds ∧
      ls = (if (cstr l).length < 2 ^ 31 then cstr l else []) ∧ ls.length ≤ maxLangLength ∧
      ds = if (cstr dt).length < 2 ^ 31 then cstr dt else [] := by
  obtain ⟨lit, hlit, rfl⟩ := Option.map_eq_some_iff.1 h
  obtain ⟨hbytes, hlang, hlen, hdt⟩ := contents_literalNew hlit
  rw [map_ofBytes_cbuf] at hbytes
  rw [map_ofBytes_cstring] at hlang
  refine ⟨lit.lang.bytes, lit.dtBytes, by rw [← hbytes]; rfl, hlang, hlen, ?_⟩
  rw [hdt, map_ofBytes_cstring]
  by_cases hxml : dt = xmlLiteralUri
  · have hcstr : cstr xmlLiteralUri = xmlLiteralUri := cstr_of_not_mem xmlLiteral.noNul
    have hfits : xmlLiteralUri.length < 2 ^ 31 := xmlLiteral.fits
    rw [if_pos hxml, if_pos rfl, hxml, hcstr, if_pos hfits]
  · rw [if_neg hxml]
    rfl

theorem literalNode_isSome {x l dt : Bytes} (hl : (cstr l).length ≤ maxLangLength) :
    ∃ node, literalNode (x, (l, dt)) = some node := by
  have hlang : ∀ l' ∈ CString.ofBytes l, l'.bytes.length ≤ maxLangLength := by
    intro l' hl'
    rwa [cstringOfBytes hl']
  have hpt : (if dt = xmlLiteralUri then (1 : Int) else 0) = 0 ∨
      (if dt = xmlLiteralUri then (1 : Int) else 0) = 1 ∧ CString.ofBytes dt = some xmlLiteral := by
    by_cases hxml : dt = xmlLiteralUri
    · rw [if_pos hxml, hxml]
      exact .inr ⟨rfl, by decide⟩
    · exact .inl (if_neg hxml)
  obtain ⟨lit, hlit⟩ := literalNew_isSome (s := CBuf.ofBytes (cstr x)) hlang hpt
  exact ⟨.literal lit, congrArg (Option.map Node.literal) hlit⟩

/-! ## What is read as a literal -/

/-- The object that is read back. -/
def Term.Plain : Term → Prop
  | .name n => n.Plain
  | .literal text lang dataType parseType =>
    Unharmed text ∧ (lang.length ≤ 2 ∧ (langTag lang).length ≤ maxLangLength) ∧
      writtenType dataType parseType = dataType.map utf8 ∧ ∀ dt ∈ dataType, NoSequence (utf8 dt)

theorem unescape_langText {lang : List Bytes} (hlang : LangWellFormed lang) (s : Bytes) :
    unescape (langText lang ++ s) = langText lang ++ unescape s :=
  unescape_of_ne (fun _ hb h => not_mem_langText hlang (b := 0x5c) (by decide) (by decide) (by decide) (h ▸ hb)) s

theorem unescape_typeText (dt s : Bytes) :
    unescape (typeText (some dt) ++ s) = 0x5e :: 0x5e :: 0x3c :: (unescape dt ++ 0x3e :: unescape s) := by
  rw [typeText_some, unescape_cons (by decide), unescape_cons (by decide), unescape_cons (by decide),
    unescape_append stops_rangle]

theorem unescape_suffixText {lang : List Bytes} (hlang : LangWellFormed lang) {dataType : Option Bytes}
    (htype : ∀ dt ∈ dataType, NoSequence dt) (s : Bytes) :
    unescape (suffixText lang dataType ++ 0x20 :: s) = suffixText lang dataType ++ 0x20 :: unescape s := by
  rw [suffixText_eq, List.append_assoc, unescape_langText hlang, List.append_assoc]
  congr 1
  cases dataType with
  | none => exact unescape_cons (by decide) s
  | some dt =>
    rw [unescape_typeText, unescape_of_noSequence (htype dt rfl), unescape_cons (by decide), typeText_some]

theorem noSequence_of_not_mem {s : Bytes} (h : 0x5c ∉ s) : NoSequence s :=
  fun _ hr => absurd (hr.subset List.mem_cons_self) h

/-- The datatype that is written, when the datatype has no sequence. -/
theorem writtenType_facts {dataType : Option (List Char)} {parseType : ParseType}
    (hw : ∀ text ∈ dataType, ∀ c ∈ text, IsUriChar c) :
    ∀ dt ∈ writtenType dataType parseType, 0x3e ∉ dt ∧ 0x3c ∉ dt ∧ 0 ∉ dt := by
  cases parseType with
  | literal =>
    rintro _ ⟨⟩
    exact ⟨by decide, by decide, by decide⟩
  | normal =>
    intro dt hdt
    obtain ⟨text, htext, rfl⟩ := Option.map_eq_some_iff.1 hdt
    have h := hw text htext
    exact ⟨not_mem_utf8 (by decide) fun c hc => (h c hc).2.1, not_mem_utf8 (by decide) fun c hc => (h c hc).1,
      not_mem_utf8 (by decide) fun c hc => (h c hc).2.2.2.2⟩

theorem langWellFormed {text : List Char} {lang : List Bytes} {dataType : Option (List Char)} {parseType : ParseType}
    (ht : (Term.literal text lang dataType parseType).WellFormed) : LangWellFormed lang := ht.1

theorem unescape_literal (text : List Char) (lang : List Bytes) (dataType : Option (List Char)) (parseType : ParseType)
    (s : Bytes) :
    unescape (Term.text (.literal text lang dataType parseType) ++ s) =
      0x22 :: unescape (escapedText text ++ 0x22 :: (suffixText lang (writtenType dataType parseType) ++ s)) := by
  have h : Term.text (.literal text lang dataType parseType) ++ s =
      0x22 :: (escapedText text ++ 0x22 :: (suffixText lang (writtenType dataType parseType) ++ s)) := by
    simp [Term.text]
  rw [h, unescape_cons (by decide)]

/-- A plain literal is read back. -/
theorem scanLiteral_of_plain {text : List Char} {lang : List Bytes} {dataType : Option (List Char)}
    {parseType : ParseType} (ht : (Term.literal text lang dataType parseType).WellFormed)
    (hnul : (Term.literal text lang dataType parseType).NoNul)
    (hplain : (Term.literal text lang dataType parseType).Plain)
    (hroom : (Term.literal text lang dataType parseType).room ≤ 2 ^ 31) {s : Bytes} (hs : 0x22 ∉ unescape s) :
    ∃ found node, scanLiteral (unescape (Term.text (.literal text lang dataType parseType) ++ 0x20 :: s)) =
        some (found, 0x20 :: unescape s) ∧ literalNode found = some node ∧
      nodeContents node = (Term.literal text lang dataType parseType).contents := by
  obtain ⟨hunharmed, ⟨hlen, hlong⟩, hwritten, hseq⟩ := hplain
  have hlang := langWellFormed ht
  have hfacts := @writtenType_facts dataType parseType ht.2
  have hseq' : ∀ dt ∈ writtenType dataType parseType, NoSequence dt := by
    rw [hwritten]
    intro dt hdt
    obtain ⟨d, hd, rfl⟩ := Option.map_eq_some_iff.1 hdt
    exact hseq d hd
  have hquote : 0x22 ∉ utf8 text := not_mem_utf8 (by decide) fun c hc h =>
    hunharmed.ordinary c hc (by rw [h]; decide)
  have hlang0 : 0 ∉ langTag lang := not_mem_langTag hlang (by decide) (by decide)
  have htext0 : 0 ∉ utf8 text := not_mem_utf8 (by decide) hnul
  have hlangc := cstr_of_not_mem hlang0
  obtain ⟨node, hnode⟩ := @literalNode_isSome (utf8 text) (langTag lang) ((writtenType dataType parseType).getD [])
    (by rwa [hlangc])
  refine ⟨_, node, ?_, hnode, ?_⟩
  · rw [unescape_literal, unescape_escaped hunharmed (stops_quote.noHexHead _), unescape_cons (by decide),
      unescape_suffixText hlang hseq',
      scanLiteral_of_suffix hquote hlang hlen (fun dt hdt => ⟨(hfacts dt hdt).1, (hfacts dt hdt).2.1⟩) hs]
  · obtain ⟨ls, ds, hcontents, hls, -, hds⟩ := contents_literalNode hnode
    have hdt0 : 0 ∉ (writtenType dataType parseType).getD [] := by
      cases hdt : writtenType dataType parseType with
      | none => exact List.not_mem_nil
      | some dt => exact (hfacts dt hdt).2.2
    simp only [Term.room, suffixSize] at hroom
    have htextlen : (utf8 text).length < 2 ^ 31 := by
      have hten : (utf8 text).length ≤ (utf8 text).length * escapeRoom := Nat.le_mul_of_pos_right _ (by decide)
      omega
    have hlanglen : (langTag lang).length < 2 ^ 31 := lt_of_le_of_lt hlong (by decide)
    have hdtlen : ((writtenType dataType parseType).getD []).length < 2 ^ 31 := by
      cases hdt : writtenType dataType parseType with
      | none => decide
      | some dt =>
        rw [hdt] at hroom
        simp only [Option.map_some, Option.getD_some] at hroom ⊢
        omega
    rw [cstr_of_not_mem htext0, if_pos htextlen] at hcontents
    rw [hlangc, if_pos hlanglen] at hls
    rw [cstr_of_not_mem hdt0, if_pos hdtlen, hwritten] at hds
    rw [hcontents, hls, hds]
    rfl

/-- The datatype that is read. -/
theorem plain_of_type {lang : List Bytes} {dataType : Option (List Char)} {parseType : ParseType}
    (htype : ∀ text ∈ dataType, ∀ c ∈ text, IsUriChar c) (hlang : LangWellFormed lang) (hlen : lang.length ≤ 2)
    {s l dt rest : Bytes}
    (hfirst : (suffixPatterns.findSome? fun p => p (unescape (suffixText lang (writtenType dataType parseType) ++
      0x20 :: s))) = some ((l, dt), rest))
    (hdt : (dataType.map utf8).getD [] = if (cstr dt).length < 2 ^ 31 then cstr dt else []) :
    writtenType dataType parseType = dataType.map utf8 ∧ ∀ d ∈ dataType, NoSequence (utf8 d) := by
  have hfacts := @writtenType_facts dataType parseType htype
  -- what stands between the brackets, up to the first that closes
  have hread : ∀ d, writtenType dataType parseType = some d →
      ∃ z, unescape d ++ 0x3e :: unescape (0x20 :: s) = dt ++ 0x3e :: z ∧ 0x3e ∉ dt := by
    intro d hd
    obtain ⟨x, z, hsplit, hx⟩ := exists_first_split (d := 0x3e) (s := unescape d ++ 0x3e :: unescape (0x20 :: s))
      (by simp)
    rw [hd, suffixText_eq, List.append_assoc, unescape_langText hlang, unescape_typeText, hsplit, suffixPatterns,
      List.findSome?_append, suffix_typed hlang hlen hx] at hfirst
    obtain heq := Option.some_inj.1 hfirst
    simp only [Prod.mk.injEq] at heq
    obtain ⟨⟨-, rfl⟩, rfl⟩ := heq
    exact ⟨_, hsplit, hx⟩
  cases parseType with
  | literal =>
    obtain ⟨z, hz, hdt'⟩ := hread xmlLiteralUri rfl
    have hxml : dt = xmlLiteralUri := by
      have hno : unescape xmlLiteralUri = xmlLiteralUri := unescape_of_noSequence (noSequence_of_not_mem (by decide))
      rw [hno] at hz
      have h1 := takeWhile_ne_append (show 0x3e ∉ xmlLiteralUri by decide) (unescape (0x20 :: s))
      have h2 := takeWhile_ne_append hdt' z
      rw [hz, h2] at h1
      exact h1
    have hfits : xmlLiteralUri.length < 2 ^ 31 := xmlLiteral.fits
    have hcstr : cstr xmlLiteralUri = xmlLiteralUri := cstr_of_not_mem xmlLiteral.noNul
    rw [hxml, hcstr, if_pos hfits] at hdt
    have hsame : dataType.map utf8 = some xmlLiteralUri := by
      cases dataType with
      | none => exact absurd hdt (by decide)
      | some d => exact congrArg some hdt
    refine ⟨hsame.symm, fun d hd => ?_⟩
    have hd' : utf8 d = xmlLiteralUri := by
      rw [show dataType = some d from hd] at hsame
      exact Option.some_inj.1 hsame
    rw [hd']
    exact noSequence_of_not_mem (by decide)
  | normal =>
    refine ⟨rfl, fun d hd => ?_⟩
    obtain rfl : dataType = some d := hd
    obtain ⟨z, hz, -⟩ := hread (utf8 d) rfl
    have hdt' : utf8 d = if (cstr dt).length < 2 ^ 31 then cstr dt else [] := hdt
    split at hdt'
    · obtain ⟨c, z', hsplit, -⟩ := cstr_split dt 0x3e z
      refine noSequence_of_unescape (c := c) (y := z') stops_rangle (hfacts _ rfl).1 ?_ (z := 0x20 :: s)
      rw [unescape_append stops_rangle, hz, hsplit, hdt']
    · rw [hdt']
      exact noSequence_of_not_mem List.not_mem_nil

/-- What is read back was plain. -/
theorem plain_of_scanLiteral {text : List Char} {lang : List Bytes} {dataType : Option (List Char)}
    {parseType : ParseType} (ht : (Term.literal text lang dataType parseType).WellFormed)
    (hsmall : (Term.literal text lang dataType parseType).Small) {s rest : Bytes} {found : Bytes × Suffix} {node : Node}
    (h : scanLiteral (unescape (Term.text (.literal text lang dataType parseType) ++ 0x20 :: s)) = some (found, rest))
    (hnode : literalNode found = some node)
    (hcontents : nodeContents node = (Term.literal text lang dataType parseType).contents) :
    (Term.literal text lang dataType parseType).Plain ∧
      ∃ p ∈ suffixPatterns, lastSplit p 0x22 (utf8 text ++ 0x22 ::
          (suffixText lang (writtenType dataType parseType) ++ 0x20 :: unescape s)) = some (found, rest) ∧
        found.1 = utf8 text ∧ rest = 0x20 :: unescape s ∧
        (p (suffixText lang (writtenType dataType parseType) ++ 0x20 :: unescape s)).isSome := by
  obtain ⟨x, l, dt⟩ := found
  obtain ⟨hne, hsmall⟩ := hsmall
  have hlang := langWellFormed ht
  have hfacts := @writtenType_facts dataType parseType ht.2
  rw [unescape_literal, scanLiteral_cons] at h
  obtain ⟨p, hp, y, hlast, hsplit, hpy, hfirst⟩ := findSome_lastSplit h
  -- what was read
  obtain ⟨ls, ds, hfound, hls, hlong, hds⟩ := contents_literalNode hnode
  rw [hcontents, Term.contents, NodeContents.literal.injEq] at hfound
  obtain ⟨htext, hlangs, hdts⟩ := hfound
  have hx : cstr x = utf8 text := by
    split at htext
    · exact htext.symm
    · exact absurd htext (utf8_ne_nil hne)
  -- the string
  obtain ⟨hunharmed, rfl, rfl⟩ := plain_of_read hsmall stops_quote (by decide) hsplit hx
  -- the language
  have hlen : lang.length ≤ 2 := by
    have hcount : (langTag lang).count 0x2d ≤ 1 := by
      have hl := count_hyphen_suffix hfirst
      rw [hlangs, hls]
      split
      · exact ((List.takeWhile_sublist _).count_le _).trans hl
      · exact Nat.zero_le _
    rw [count_hyphen_langTag fun part hpart => (hlang part hpart).2] at hcount
    omega
  -- the datatype
  have htype : writtenType dataType parseType = dataType.map utf8 ∧ ∀ d ∈ dataType, NoSequence (utf8 d) := by
    rw [hds] at hdts
    exact plain_of_type ht.2 hlang hlen hfirst hdts
  have hplain : (Term.literal text lang dataType parseType).Plain :=
    ⟨hunharmed, ⟨hlen, by rw [hlangs]; exact hlong⟩, htype.1, htype.2⟩
  have hseq : ∀ dt ∈ writtenType dataType parseType, NoSequence dt := by
    rw [htype.1]
    intro dt hdt
    obtain ⟨d, hd, rfl⟩ := Option.map_eq_some_iff.1 hdt
    exact htype.2 d hd
  rw [unescape_escaped hunharmed (stops_quote.noHexHead _), unescape_cons (by decide),
    unescape_suffixText hlang hseq] at hlast
  rw [unescape_suffixText hlang hseq] at hpy hfirst
  rw [suffix_found hlang hlen (fun dt hdt => (hfacts dt hdt).1)] at hfirst
  exact ⟨hplain, p, hp, hlast, rfl, (Prod.mk.inj (Option.some_inj.1 hfirst)).2.symm, by rw [hpy]; rfl⟩

end RdfStore.NTriples
