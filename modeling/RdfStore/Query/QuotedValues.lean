import RdfStore.Query.Substitution

/-!
# Values in place of variables

A literal is put in quotation marks, with its language behind them.  A language
is looked for in the whole text, the first one that is found is taken.

    the node that is searched for is the value
      ↔ nothing in the value is taken for anything else       (substituted_iff)
-/

namespace RdfStore.Query

open ByteMem

variable {prefixes : Bytes → Option Bytes}

/-! ## Literals -/

theorem takeWhile_behind {q : UInt8 → Bool} {b : UInt8} (hb : q b = false) (c rest : Bytes) :
    (c ++ b :: rest).takeWhile q = c.takeWhile q ∧ (c ++ b :: rest).dropWhile q = c.dropWhile q ++ b :: rest := by
  induction c with
  | nil => exact ⟨List.takeWhile_cons_of_neg (by simp [hb]), List.dropWhile_cons_of_neg (by simp [hb])⟩
  | cons a c ih =>
    cases ha : q a with
    | true => simp [ha, ih.1, ih.2]
    | false => simp [ha]

/-- A language ends in front of a quotation mark. -/
theorem scanLang_quote (c rest : Bytes) :
    NTriples.scanLang (c ++ 0x22 :: rest) = (NTriples.scanLang c).map fun t => (t.1, t.2 ++ 0x22 :: rest) := by
  have hquote : NTriples.isLangChar 0x22 = false := by decide
  obtain ⟨htake, hdrop⟩ := takeWhile_behind hquote c rest
  unfold NTriples.scanLang
  simp only [htake, hdrop]
  split_ifs with hnil
  · rfl
  · cases hc : c.dropWhile NTriples.isLangChar with
    | nil => simp
    | cons m t =>
      obtain ⟨htake', hdrop'⟩ := takeWhile_behind hquote t rest
      simp only [List.cons_append, htake', hdrop']
      split_ifs <;> rfl

theorem scanLang_isSome {s : Bytes} : (NTriples.scanLang s).isSome = (s.head?.map NTriples.isLangChar).getD false := by
  cases s with
  | nil => rfl
  | cons a s =>
    unfold NTriples.scanLang
    cases ha : NTriples.isLangChar a with
    | true =>
      simp only [List.takeWhile_cons_of_pos ha, List.dropWhile_cons_of_pos ha]
      rw [if_neg (List.cons_ne_nil _ _)]
      cases s.dropWhile NTriples.isLangChar with
      | nil => simp [ha]
      | cons m t =>
        simp only
        split_ifs <;> simp [ha]
    | false => simp [ha]

theorem tagged_cons {a : UInt8} {c : Bytes} :
    Tagged (a :: c) ↔ (a = 0x40 ∧ (NTriples.scanLang c).isSome = true) ∨ Tagged c := by
  rw [scanLang_isSome]
  constructor
  · rintro ⟨x, b, y, heq, hb⟩
    cases x with
    | nil =>
      cases heq
      exact Or.inl ⟨rfl, by simpa using hb⟩
    | cons d x =>
      cases heq
      exact Or.inr ⟨x, b, y, rfl, hb⟩
  · rintro (⟨rfl, h⟩ | ⟨x, b, y, rfl, hb⟩)
    · cases c with
      | nil => cases h
      | cons b y => exact ⟨[], b, y, rfl, by simpa using h⟩
    · exact ⟨a :: x, b, y, rfl, hb⟩

/-- Where no language begins, one is looked for behind the character. -/
theorem stripLang_skip {a : UInt8} {s : Bytes} (h : ¬ (a = 0x40 ∧ (NTriples.scanLang s).isSome = true)) :
    stripLang false (a :: s) = (stripLang false s).map fun t => (t.1, a :: t.2) := by
  have hhere : (if a = 0x40 then NTriples.scanLang s else none) = none := by
    split_ifs with ha
    · exact Option.not_isSome_iff_eq_none.1 fun hsome => h ⟨ha, hsome⟩
    · rfl
  rw [stripLang, hhere]

theorem stripLang_here {s lang rest : Bytes} (h : NTriples.scanLang s = some (lang, rest)) :
    stripLang false (0x40 :: s) = some (lang, rest.dropWhile NTriples.isWhite) := by
  rw [stripLang, if_pos rfl, h]
  rfl

/-- Nothing in front of the quotation mark is taken for a language, or something is. -/
theorem stripLang_quote (c rest : Bytes) :
    (¬ Tagged c ∧ stripLang false (c ++ 0x22 :: rest) =
      (stripLang false (0x22 :: rest)).map fun t => (t.1, c ++ t.2)) ∨
    ∃ x tag w y, c = x ++ 0x40 :: (tag ++ (w ++ y)) ∧ (∀ a ∈ w, NTriples.isWhite a = true) ∧
      (∃ s r, NTriples.scanLang s = some (tag, r)) ∧
      stripLang false (c ++ 0x22 :: rest) = some (tag, x ++ (y ++ 0x22 :: rest)) := by
  induction c with
  | nil =>
    refine Or.inl ⟨?_, by simp⟩
    rintro ⟨x, b, y, heq, -⟩
    simp at heq
  | cons a c ih =>
    by_cases hhere : a = 0x40 ∧ (NTriples.scanLang c).isSome = true
    · obtain ⟨rfl, hsome⟩ := hhere
      obtain ⟨⟨tag, r⟩, hscan⟩ := Option.isSome_iff_exists.1 hsome
      have hc := (NTriples.scanLang_append hscan).1
      have hbehind : NTriples.scanLang (c ++ 0x22 :: rest) = some (tag, r ++ 0x22 :: rest) := by
        rw [scanLang_quote, hscan]
        rfl
      have hquote : NTriples.isWhite 0x22 = false := by decide
      refine Or.inr ⟨[], tag, r.takeWhile NTriples.isWhite, r.dropWhile NTriples.isWhite, ?_, ?_, ⟨c, r, hscan⟩, ?_⟩
      · rw [List.takeWhile_append_dropWhile, ← hc]
        rfl
      · exact fun b hb => List.mem_takeWhile_imp hb
      · rw [List.cons_append, stripLang_here hbehind, (takeWhile_behind hquote r rest).2]
        rfl
    · have hskip : ¬ (a = 0x40 ∧ (NTriples.scanLang (c ++ 0x22 :: rest)).isSome = true) := by
        rwa [scanLang_quote, Option.isSome_map]
      rw [List.cons_append, stripLang_skip hskip]
      rcases ih with ⟨huntagged, hstrip⟩ | ⟨x, tag, w, y, hc, hw, htag, hstrip⟩
      · refine Or.inl ⟨fun h => (tagged_cons.1 h).elim hhere huntagged, ?_⟩
        rw [hstrip, Option.map_map]
        rfl
      · refine Or.inr ⟨a :: x, tag, w, y, by rw [hc]; rfl, hw, htag, ?_⟩
        rw [hstrip]
        rfl

/-- A language that was found begins with a character of one. -/
theorem stripLang_found {atEnd : Bool} {s l r : Bytes} (h : stripLang atEnd s = some (l, r)) :
    ∃ s r, NTriples.scanLang s = some (l, r) := by
  induction s generalizing l r with
  | nil => cases h
  | cons a s ih =>
    have hnext : ∀ {l r}, ((stripLang atEnd s).map fun t => (t.1, a :: t.2)) = some (l, r) →
        ∃ s r, NTriples.scanLang s = some (l, r) := by
      intro l r h
      obtain ⟨t, ht, heq⟩ := Option.map_eq_some_iff.1 h
      cases heq
      exact ih ht
    unfold stripLang at h
    simp only at h
    split at h
    · next lang rest hhere =>
      have hscan : NTriples.scanLang s = some (lang, rest) := by
        split_ifs at hhere
        exact hhere
      split_ifs at h
      · cases h
        exact ⟨s, rest, hscan⟩
      · cases h
        exact ⟨s, rest, hscan⟩
      · exact hnext h
    · exact hnext h

/-- A text in quotation marks, with something behind it. -/
theorem component_quoted (s : Bytes) :
    component prefixes (0x22 :: s) =
      .terms (createLiteral
        ((stripClosing ((stripOpening (((stripLang false (0x22 :: s)).map (·.2)).getD (0x22 :: s))).getD
            (((stripLang false (0x22 :: s)).map (·.2)).getD (0x22 :: s)))).getD
          ((stripOpening (((stripLang false (0x22 :: s)).map (·.2)).getD (0x22 :: s))).getD
            (((stripLang false (0x22 :: s)).map (·.2)).getD (0x22 :: s))))
        (((stripLang false (0x22 :: s)).map (·.1)).getD [])).toList := by
  unfold component
  simp [isVariable]

theorem stripOpening_quote (s : Bytes) : stripOpening (0x22 :: s) = some s := rfl

theorem stripClosing_quote (s : Bytes) : stripClosing (s ++ [0x22]) = some s := by
  unfold stripClosing
  rw [List.reverse_append, List.reverse_singleton, List.singleton_append, stripOpening_quote, Option.map_some,
    List.reverse_reverse]

theorem stripClosing_none {s : Bytes} {a : UInt8} (ha : NTriples.isWhite a = false) (hquote : Rdql.isQuote a = false) :
    stripClosing (s ++ [a]) = none := by
  unfold stripClosing stripOpening
  rw [List.reverse_append, List.reverse_singleton, List.singleton_append, List.dropWhile_cons_of_neg (by simp [ha])]
  simp [hquote]

theorem scanLang_again {s l r : Bytes} (h : NTriples.scanLang s = some (l, r)) : (NTriples.scanLang l).isSome = true := by
  have hsome : (NTriples.scanLang s).isSome = true := by
    rw [h]
    rfl
  obtain ⟨a, l', rfl⟩ := List.exists_cons_of_ne_nil (NTriples.scanLang_chars h).1
  rw [(NTriples.scanLang_append h).1, scanLang_isSome] at hsome
  rw [scanLang_isSome]
  exact hsome

theorem cstr_tag {s l r : Bytes} (h : NTriples.scanLang s = some (l, r)) : cstr l = l := by
  refine cstr_of_not_mem fun hmem => ?_
  rcases (NTriples.scanLang_chars h).2 0 hmem with h0 | h0
  · exact absurd h0 (by decide)
  · exact absurd h0 (by decide)

/-- What a text in quotation marks is read as. -/
theorem component_quoted_literal {s content lang : Bytes} (h : component prefixes (0x22 :: s) = .terms [.literal content lang]) :
    lang = cstr (((stripLang false (0x22 :: s)).map (·.1)).getD []) ∧
      (((stripLang false (0x22 :: s)).map (·.1)).getD []).length ≤ maxLangLength ∧
      ∀ z, stripOpening (((stripLang false (0x22 :: s)).map (·.2)).getD (0x22 :: s)) = some z →
        content = cstr ((stripClosing z).getD z) := by
  rw [component_quoted, Component.terms.injEq] at h
  unfold createLiteral at h
  split_ifs at h with hlen
  · cases h
  · simp only [Option.toList_some, List.cons.injEq, Term.literal.injEq, and_true] at h
    refine ⟨h.2.symm, Nat.le_of_not_lt hlen, fun z hz => ?_⟩
    rw [← h.1, hz, Option.getD_some]

/-- Without a language inside, one is looked for behind the quotation mark. -/
theorem stripLang_untagged {c : Bytes} (h : ¬ Tagged c) (rest : Bytes) :
    stripLang false (c ++ 0x22 :: rest) = (stripLang false (0x22 :: rest)).map fun t => (t.1, c ++ t.2) := by
  rcases stripLang_quote c rest with ⟨-, hstrip⟩ | ⟨x, tag, w, y, hc, -, ⟨s, r, hscan⟩, -⟩
  · exact hstrip
  · refine absurd ?_ h
    obtain ⟨b, t, rfl⟩ := List.exists_cons_of_ne_nil (NTriples.scanLang_chars hscan).1
    have hb := scanLang_again hscan
    rw [scanLang_isSome] at hb
    exact ⟨x, b, t ++ (w ++ y), hc, by simpa using hb⟩

/-- The quotation mark in front is no language. -/
theorem stripLang_opening (s : Bytes) :
    stripLang false (0x22 :: s) = (stripLang false s).map fun t => (t.1, 0x22 :: t.2) :=
  stripLang_skip fun h => absurd h.1 (by decide)

/-- Something inside is taken for a language. -/
theorem not_component_tagged {bytes lang : Bytes} (hlang : 0 ∉ lang) (suffix : Bytes)
    (hsuffix : suffix = [] ∨ suffix = 0x40 :: lang) (htagged : Tagged (cstr bytes)) :
    component prefixes (0x22 :: (cstr bytes ++ 0x22 :: suffix)) ≠ .terms [.literal bytes lang] := by
  intro h
  rcases stripLang_quote (cstr bytes) suffix with ⟨huntagged, -⟩ | ⟨x, tag, w, y, hc, hw, ⟨s, r, hscan⟩, hstrip⟩
  · exact huntagged htagged
  · have hwhole : stripLang false (0x22 :: (cstr bytes ++ 0x22 :: suffix)) =
        some (tag, 0x22 :: (x ++ (y ++ 0x22 :: suffix))) := by
      rw [stripLang_opening, hstrip]
      rfl
    obtain ⟨hl, -, hcontent⟩ := component_quoted_literal h
    rw [hwhole] at hl hcontent
    have hbytes := hcontent _ (stripOpening_quote _)
    have htag := cstr_tag hscan
    rw [Option.map_some, Option.getD_some, htag] at hl
    have hnul : cstr bytes = bytes := by
      rw [hbytes]
      exact cstr_cstr _
    rcases hsuffix with rfl | rfl
    · rw [← List.append_assoc, stripClosing_quote, Option.getD_some] at hbytes
      have hlen := length_cstr (x ++ y)
      rw [← hbytes, ← hnul, hc] at hlen
      simp only [List.length_append, List.length_cons] at hlen
      omega
    · subst hl
      obtain ⟨hne, hchars⟩ := NTriples.scanLang_chars hscan
      obtain ⟨init, a, rfl⟩ : ∃ init a, lang = init ++ [a] := ⟨_, _, (List.dropLast_append_getLast hne).symm⟩
      have ha := hchars a (by simp)
      obtain ⟨hawhite, haquote⟩ := Rdql.tagChar_plain ha
      have hz : x ++ (y ++ 0x22 :: 0x40 :: (init ++ [a])) = (x ++ (y ++ 0x22 :: 0x40 :: init)) ++ [a] := by simp
      rw [hz, stripClosing_none hawhite haquote, Option.getD_none, ← hz] at hbytes
      have hzero : 0 ∉ x ++ (y ++ 0x22 :: 0x40 :: (init ++ [a])) := by
        have hin : 0 ∉ cstr bytes := not_mem_cstr bytes
        rw [hc] at hin
        simp only [List.mem_append, List.mem_cons, not_or] at hin hlang ⊢
        exact ⟨hin.1, hin.2.2.2.2, by decide, by decide, hlang⟩
      rw [cstr_of_not_mem hzero, ← hnul, hc] at hbytes
      have hcount := congrArg (List.count 0x22) hbytes
      have hwcount : w.count 0x22 = 0 := List.count_eq_zero.2 fun hmem => absurd (hw _ hmem) (by decide)
      simp only [List.count_append, List.count_cons, hwcount] at hcount
      simp at hcount
      omega

/-- Without a language, the content is read. -/
theorem component_no_lang {bytes : Bytes} (h : ¬ Tagged (cstr bytes)) :
    component prefixes (0x22 :: (cstr bytes ++ [0x22])) = .terms [.literal (cstr bytes) []] := by
  have hstrip : stripLang false (0x22 :: (cstr bytes ++ [0x22])) = none := by
    rw [stripLang_opening, stripLang_untagged h]
    rfl
  rw [component_quoted, hstrip]
  simp only [Option.map_none, Option.getD_none, stripOpening_quote, Option.getD_some, stripClosing_quote]
  rw [createLiteral, if_neg (by decide), cstr_cstr]
  rfl

/-- With a language that can be read, content and language are. -/
theorem component_lang {bytes lang : Bytes} (h : ¬ Tagged (cstr bytes)) (htag : IsTag lang) (hlen : lang.length ≤ maxLangLength) :
    component prefixes (0x22 :: (cstr bytes ++ 0x22 :: 0x40 :: lang)) = .terms [.literal (cstr bytes) lang] := by
  have hstrip : stripLang false (0x22 :: (cstr bytes ++ 0x22 :: 0x40 :: lang)) =
      some (lang, 0x22 :: (cstr bytes ++ [0x22])) := by
    rw [stripLang_opening, stripLang_untagged h, stripLang_opening, stripLang_here htag]
    rfl
  rw [component_quoted, hstrip]
  simp only [Option.map_some, Option.getD_some, stripOpening_quote, stripClosing_quote]
  rw [createLiteral, if_neg (not_lt.2 hlen), cstr_cstr, cstr_tag htag]
  rfl

/-- The language is read as it is only when it can be. -/
theorem isTag_of_component {bytes lang : Bytes} (hne : lang ≠ []) (huntagged : ¬ Tagged (cstr bytes))
    (h : component prefixes (0x22 :: (cstr bytes ++ 0x22 :: 0x40 :: lang)) = .terms [.literal bytes lang]) :
    lang.length ≤ maxLangLength ∧ IsTag lang := by
  obtain ⟨hl, hlen, -⟩ := component_quoted_literal h
  rw [stripLang_opening, stripLang_untagged huntagged, stripLang_opening, Option.map_map, Option.map_map, Option.map_map] at hl hlen
  cases hscan : NTriples.scanLang lang with
  | some t =>
    rw [stripLang_here hscan] at hl hlen
    have hlang : lang = t.1 := hl.trans (cstr_tag hscan)
    have happend := (NTriples.scanLang_append hscan).1
    rw [← hlang] at happend
    have hrest : t.2 = [] := List.append_cancel_left (happend.symm.trans (List.append_nil _).symm)
    refine ⟨hlang ▸ hlen, ?_⟩
    unfold IsTag
    rw [hscan, ← hrest, hlang]
  | none =>
    exfalso
    rw [stripLang_skip (by simp [hscan])] at hl
    cases hfound : stripLang false lang with
    | none =>
      rw [hfound] at hl
      exact hne hl
    | some t =>
      obtain ⟨s, r, hs⟩ := stripLang_found (l := t.1) (r := t.2) hfound
      rw [hfound] at hl
      have hlang : lang = t.1 := hl.trans (cstr_tag hs)
      have hsome := scanLang_again hs
      rw [← hlang, hscan] at hsome
      cases hsome

theorem literal_iff (l : Literal) :
    component prefixes (literalText l) = .terms [.literal l.bytes l.lang.bytes] ↔ KeptLiteral l := by
  unfold literalText Node.toString
  by_cases htagged : Tagged (cstr l.bytes)
  · refine iff_of_false (not_component_tagged l.lang.noNul _ ?_ htagged) fun h => h.untagged ?_
    · split_ifs
      · exact Or.inr rfl
      · exact Or.inl rfl
    · rwa [cstr_of_not_mem h.nul] at htagged
  · have hread : ∀ lang, (.terms [.literal (cstr l.bytes) lang] : Component) = .terms [.literal l.bytes l.lang.bytes] ↔
        cstr l.bytes = l.bytes ∧ lang = l.lang.bytes := by
      simp
    have hnul : cstr l.bytes = l.bytes → 0 ∉ l.bytes := fun heq => heq ▸ not_mem_cstr l.bytes
    cases htrue : isTrueText l.lang.bytes with
    | false =>
      rw [if_neg Bool.false_ne_true, component_no_lang htagged, hread]
      constructor
      · rintro ⟨hbytes, hlang⟩
        exact ⟨hnul hbytes, hbytes ▸ htagged, Or.inl hlang.symm⟩
      · intro h
        refine ⟨cstr_of_not_mem h.nul, ?_⟩
        rcases h.lang with hlang | ⟨hzero, -, htag⟩
        · exact hlang.symm
        · have hne := (NTriples.scanLang_chars htag).1
          simp [isTrueText, hne, hzero] at htrue
    | true =>
      have hfalse : l.lang.bytes ≠ [] ∧ l.lang.bytes ≠ ascii "0" := by
        simpa [isTrueText] using htrue
      rw [if_pos rfl]
      constructor
      · intro h
        obtain ⟨hlen, htag⟩ := isTag_of_component hfalse.1 htagged h
        rw [component_lang htagged htag hlen, hread] at h
        exact ⟨hnul h.1, h.1 ▸ htagged, Or.inr ⟨hfalse.2, hlen, htag⟩⟩
      · intro h
        rcases h.lang with hlang | ⟨-, hlen, htag⟩
        · exact absurd hlang hfalse.1
        · rw [component_lang htagged htag hlen, hread]
          exact ⟨cstr_of_not_mem h.nul, rfl⟩

/-- **A value is searched for** as it is exactly when nothing in it is taken for anything else. -/
theorem substituted_iff (prefixes : Bytes → Option Bytes) (n : Node) : Substituted prefixes n ↔ KeptValue prefixes n := by
  cases n with
  | literal l =>
    have hvalue : ∀ j text, valueText (some (.literal l)) j = some text ↔ j = 2 ∧ literalText l = text := by
      intro j text
      unfold valueText
      split_ifs with hj <;> simp [hj]
    unfold Substituted
    simp only [hvalue, Term.of]
    constructor
    · intro h
      exact literal_iff l |>.1 (h 2 _ ⟨rfl, rfl⟩)
    · rintro h j text ⟨-, rfl⟩
      exact (literal_iff l).2 h
  | resource r =>
    have hvalue : ∀ j text, valueText (some (.resource r)) j = some text ↔ resourceText r = text := by
      intro j text
      simp [valueText]
    have hiff : Substituted prefixes (.resource r) ↔
        component prefixes (resourceText r) = .terms [Term.of (.resource r)] := by
      unfold Substituted
      simp only [hvalue]
      exact ⟨fun h => h 0 _ rfl, fun h j text ht => ht ▸ h⟩
    rw [hiff]
    unfold resourceText Term.of KeptValue Node.toString
    cases hbnode : r.bnode with
    | true =>
      have h : component prefixes (0x3c :: (ascii "_:" ++ cstr r.bytes ++ [0x3e])) = .terms [.bnode r.bytes] ↔ _ :=
        component_bnode_iff r.bytes
      simpa [hbnode] using h
    | false =>
      have h : component prefixes (0x3c :: (cstr r.bytes ++ [0x3e])) = .terms [.resource r.bytes] ↔ _ :=
        component_uri_iff r.bytes
      simpa [hbnode] using h

/-! ## A value that changes -/

/-- `me@home` -/
def addressLiteral : Literal := ⟨some ⟨ascii "me@home", by decide⟩, .normal, CString.empty, none, 0⟩

/-- It is searched for as `me` in the language `home`. -/
theorem address_not_substituted : ¬ Substituted (fun _ => none) (.literal addressLiteral) := by
  intro h
  have hcomponent := h 2 _ rfl
  revert hcomponent
  decide

end RdfStore.Query
