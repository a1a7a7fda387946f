import RdfStore.NTriples.Documents

/-!
# How a document is cut

    a string is cut into the chunks of the document                (splitFields_docText)
    a file handle is cut into lines that end with a line feed      (readLines_docText)
-/

namespace RdfStore.NTriples

open ByteMem

/-! ## Characters of a line -/

/-- A character, or a tab. -/
def isLineChar (a : UInt8) : Bool := isCharacter a || a = 0x09

def LineChars (s : Bytes) : Prop := ∀ b ∈ s, isLineChar b = true

theorem lineChars_append {l r : Bytes} : LineChars (l ++ r) ↔ LineChars l ∧ LineChars r := List.forall_mem_append

theorem lineChars_cons {a : UInt8} {s : Bytes} : LineChars (a :: s) ↔ isLineChar a = true ∧ LineChars s :=
  List.forall_mem_cons

theorem lineChars_nil : LineChars [] := List.forall_mem_nil _

theorem isEol_of_lineChar {a : UInt8} (h : isLineChar a = true) : isEol a = false ∧ isAllowed a = true := by
  simp only [isLineChar, isCharacter, isEol, isAllowed, Bool.or_eq_true, Bool.and_eq_true, Bool.or_eq_false_iff,
    decide_eq_true_eq, decide_eq_false_iff_not, UInt8.le_iff_toNat_le, ← UInt8.toNat_inj, UInt8.reduceToNat] at h ⊢
  omega

theorem lineChars_of_character {s : Bytes} (h : ∀ b ∈ s, isCharacter b = true) : LineChars s := by
  intro b hb
  simp [isLineChar, h b hb]

theorem lineChars_blank {s : Bytes} (h : Blank s) : LineChars s := by
  intro b hb
  have hblank := h b hb
  simp only [isBlank, Bool.or_eq_true, decide_eq_true_eq] at hblank
  rcases hblank with rfl | rfl <;> decide

theorem lineChars_label {s : Bytes} (h : ∀ b ∈ s, isLabelChar b = true) : LineChars s := by
  intro b hb
  have hlabel := h b hb
  simp only [isLineChar, isCharacter, isLabelChar, isLetter, isDigit, Bool.or_eq_true, Bool.and_eq_true,
    decide_eq_true_eq, UInt8.le_iff_toNat_le, UInt8.reduceToNat] at hlabel ⊢
  omega

theorem NameText.lineChars {n : NameText} (hn : n.WellFormed) : LineChars n.bytes := by
  cases n with
  | uriref u =>
    simp only [NameText.bytes, lineChars_cons, lineChars_append]
    exact ⟨by decide, lineChars_of_character hn.character, by decide, lineChars_nil⟩
  | nodeId label =>
    obtain ⟨a, l, rfl, ha, hl⟩ := hn
    simp only [NameText.bytes, lineChars_cons (a := 0x5f), lineChars_cons (a := 0x3a)]
    exact ⟨by decide, by decide, lineChars_label (List.forall_mem_cons.2 ⟨by simp [isLabelChar, ha], hl⟩)⟩

theorem IsString.lineChars {s : Bytes} (h : IsString s) : LineChars s := by
  have hhex : ∀ ds : Bytes, (∀ a ∈ ds, isHex a = true) → LineChars ds := by
    intro ds hds
    refine lineChars_label fun b hb => ?_
    have hb' := hds b hb
    simp only [isHex, isLabelChar, isLetter, isDigit, Bool.or_eq_true, Bool.and_eq_true, decide_eq_true_eq,
      UInt8.le_iff_toNat_le, UInt8.reduceToNat] at hb' ⊢
    omega
  induction h with
  | nil => exact lineChars_nil
  | character ha _ _ _ ih => exact lineChars_cons.2 ⟨by simp [isLineChar, ha], ih⟩
  | @escape a s ha _ ih =>
    have hall : LineChars (ascii "tnr\"\\") := forall_mem_of_all (by decide)
    exact lineChars_cons.2 ⟨by decide, lineChars_cons.2 ⟨hall a ha, ih⟩⟩
  | short hds _ _ ih =>
    exact lineChars_cons.2 ⟨by decide, lineChars_cons.2 ⟨by decide, lineChars_append.2 ⟨hhex _ hds, ih⟩⟩⟩
  | long hds _ _ ih =>
    exact lineChars_cons.2 ⟨by decide, lineChars_cons.2 ⟨by decide, lineChars_append.2 ⟨hhex _ hds, ih⟩⟩⟩

theorem lineChars_langTag {lang : List Bytes} (h : ∀ part ∈ lang, part ≠ [] ∧ ∀ a ∈ part, isLangChar a = true) :
    LineChars (langTag lang) := by
  induction lang with
  | nil => exact lineChars_nil
  | cons part parts ih =>
    have hpart : LineChars part := by
      refine lineChars_label fun b hb => ?_
      have hb' := (h part List.mem_cons_self).2 b hb
      simp only [isLangChar, isLabelChar, isLetter, Bool.or_eq_true, Bool.and_eq_true, decide_eq_true_eq] at hb' ⊢
      tauto
    have hparts := ih fun p hp => h p (List.mem_cons_of_mem _ hp)
    cases parts with
    | nil => exact hpart
    | cons part' parts =>
      rw [langTag]
      · exact lineChars_append.2 ⟨hpart, lineChars_cons.2 ⟨by decide, hparts⟩⟩
      · simp

theorem ObjectText.lineChars {o : ObjectText} (ho : o.WellFormed) : LineChars o.bytes := by
  cases o with
  | name n => exact NameText.lineChars ho
  | literal string lang dataType =>
    obtain ⟨hstring, hlang, htype⟩ := ho
    have hsuffix : LineChars (suffixText lang dataType) := by
      unfold suffixText
      refine lineChars_append.2 ⟨?_, ?_⟩
      · split
        · exact lineChars_nil
        · exact lineChars_cons.2 ⟨by decide, lineChars_langTag hlang⟩
      · cases dataType with
        | none => exact lineChars_nil
        | some dt =>
          simp only [lineChars_cons, lineChars_append]
          exact ⟨by decide, by decide, by decide, lineChars_of_character (htype dt rfl).character, by decide,
            lineChars_nil⟩
    simp only [ObjectText.bytes, lineChars_cons, lineChars_append]
    exact ⟨by decide, hstring.lineChars, by decide, hsuffix⟩

theorem TripleText.lineChars_core {t : TripleText} (ht : t.WellFormed) : LineChars t.core := by
  have hpredicate : (NameText.uriref t.predicate).WellFormed := ht.predicate
  simp only [TripleText.core, lineChars_append]
  exact ⟨NameText.lineChars ht.subject, lineChars_blank ht.gap1.2, NameText.lineChars hpredicate,
    lineChars_blank ht.gap2.2, ObjectText.lineChars ht.object, lineChars_blank ht.gap3⟩

theorem LineKind.lineChars {k : LineKind} (hk : k.WellFormed) : LineChars k.content := by
  cases k with
  | blank => exact lineChars_nil
  | comment text =>
    refine lineChars_cons.2 ⟨by decide, fun b hb => ?_⟩
    rcases hk b hb with h | rfl
    · simp [isLineChar, h]
    · decide
  | triple t =>
    exact lineChars_append.2 ⟨TripleText.lineChars_core hk, lineChars_cons.2 ⟨by decide, lineChars_blank hk.gap4⟩⟩

/-- A line without its line end. -/
def Line.front (l : Line) : Bytes := l.indent ++ l.kind.content

theorem Line.text_eq (l : Line) : l.text = l.front ++ l.eol.bytes := by
  simp [Line.text, Line.front]

theorem Line.lineChars {l : Line} (hl : l.WellFormed) : LineChars l.front :=
  lineChars_append.2 ⟨lineChars_blank hl.indent, LineKind.lineChars hl.kind⟩

/-! ## Cutting a string -/

/-- Bytes in front of the first piece. -/
def consAll {α : Type*} (l : List α) (pieces : List (List α)) : List (List α) := l.foldr consHead pieces

@[simp] theorem consAll_nil {α : Type*} (pieces : List (List α)) : consAll [] pieces = pieces := rfl

@[simp] theorem consAll_cons {α : Type*} (a : α) (l : List α) (pieces : List (List α)) :
    consAll (a :: l) pieces = consHead a (consAll l pieces) := rfl

theorem consAll_append {α : Type*} (l r : List α) (pieces : List (List α)) :
    consAll (l ++ r) pieces = consAll l (consAll r pieces) := List.foldr_append

theorem consAll_head {α : Type*} (l : List α) (piece : List α) (pieces : List (List α)) :
    consAll l (piece :: pieces) = (l ++ piece) :: pieces := by
  induction l with
  | nil => rfl
  | cons a l ih => rw [consAll_cons, ih]; rfl

/-- A byte that neither ends a piece nor is one of the line ends behind it. -/
theorem splitFields_cons {inEol : Bool} {a : UInt8} {s : Bytes} (h1 : (inEol && isEol a) = false)
    (h2 : (a = 0x2e ∧ s.head?.any isEol = true) → False) :
    splitFields inEol (a :: s) = consHead a (splitFields false s) := by
  rw [splitFields, if_neg (by rw [h1]; decide), if_neg]
  simpa using h2

/-- The bytes of a line, which has no line end in it. -/
theorem splitFields_front {s rest : Bytes} (hs : LineChars s) (inEol : Bool)
    (hend : s.getLast? = some 0x2e → rest.head?.any isEol = false) (hne : s ≠ []) :
    splitFields inEol (s ++ rest) = consAll s (splitFields false rest) := by
  induction s generalizing inEol with
  | nil => exact absurd rfl hne
  | cons a s ih =>
    obtain ⟨ha, hs'⟩ := lineChars_cons.1 hs
    have hchar := (isEol_of_lineChar ha).1
    rw [List.cons_append, splitFields_cons (by rw [hchar, Bool.and_false]), consAll_cons]
    · cases s with
      | nil => rfl
      | cons b s =>
        rw [ih hs' false (by simpa using hend) (by simp)]
    · rintro ⟨rfl, hany⟩
      cases s with
      | nil =>
        rw [List.nil_append] at hany
        rw [hend rfl] at hany
        cases hany
      | cons b s =>
        have hb := (isEol_of_lineChar (lineChars_cons.1 hs').1).1
        simp [hb] at hany

theorem isEol_eol (e : LineEnd) : ∀ b ∈ e.bytes, isEol b = true ∧ b ≠ 0x2e := by
  cases e <;> exact forall_mem_of_all (by decide)

theorem splitFields_skip {s : Bytes} (hs : ∀ b ∈ s, isEol b = true ∧ b ≠ 0x2e) (rest : Bytes) :
    splitFields true (s ++ rest) = splitFields true rest := by
  induction s with
  | nil => rfl
  | cons a s ih =>
    obtain ⟨ha, hs'⟩ := List.forall_mem_cons.1 hs
    rw [List.cons_append, splitFields, if_pos (by rw [ha.1]; rfl), ih hs']

theorem splitFields_eol {s : Bytes} (hs : ∀ b ∈ s, isEol b = true ∧ b ≠ 0x2e) (rest : Bytes) :
    splitFields false (s ++ rest) = consAll s (splitFields false rest) := by
  induction s with
  | nil => rfl
  | cons a s ih =>
    obtain ⟨ha, hs'⟩ := List.forall_mem_cons.1 hs
    rw [List.cons_append, splitFields_cons rfl fun h => ha.2 h.1, ih hs', consAll_cons]

/-- A tight line without its full stop. -/
def Line.body (l : Line) : Bytes := l.front.dropLast

/-- The piece of the string: of the last line only what is before the full stop. -/
def chunkText : List Line → Bytes
  | [] => []
  | l :: lines => if l.tight then l.body else l.text ++ chunkText lines

theorem Line.tight_iff {l : Line} (hl : l.WellFormed) : l.tight = true ↔ l.front.getLast? = some 0x2e := by
  have hindent : l.indent.getLast? ≠ some 0x2e := by
    intro h
    exact absurd (hl.indent _ (List.mem_of_getLast? h)) (by decide)
  unfold Line.tight Line.front
  rw [decide_eq_true_eq]
  cases hc : l.kind.content with
  | nil => simpa using hindent
  | cons a s => rw [List.getLast?_append_of_ne_nil _ (List.cons_ne_nil a s)]

theorem Line.front_of_tight {l : Line} (hl : l.WellFormed) (h : l.tight = true) : l.front = l.body ++ [0x2e] :=
  (List.dropLast_append_getLast? _ ((Line.tight_iff hl).1 h)).symm

theorem Line.bare_of_front {l : Line} (h : l.front = []) : l.bare = true := by
  obtain ⟨hindent, hcontent⟩ := List.append_eq_nil_iff.1 h
  unfold Line.bare
  split
  · simpa using hindent
  · next hkind =>
    cases hk : l.kind with
    | blank => exact absurd hk hkind
    | comment text =>
      rw [hk] at hcontent
      cases hcontent
    | triple t =>
      rw [hk] at hcontent
      simp [LineKind.content] at hcontent

theorem Line.front_of_bare {l : Line} (h : l.bare = true) : l.front = [] := by
  unfold Line.bare at h
  split at h
  · next hkind =>
    have hindent : l.indent = [] := by simpa using h
    rw [Line.front, hkind, hindent]
    rfl
  · cases h

theorem Line.text_ne_nil (l : Line) : l.text ≠ [] := by
  cases he : l.eol <;> simp [Line.text, he, LineEnd.bytes]

theorem splitFields_line {l : Line} (hl : l.WellFormed) (inEol : Bool) (hbare : (inEol && l.bare) = false)
    (htight : l.tight = false) (rest : Bytes) :
    splitFields inEol (l.text ++ rest) = consAll l.text (splitFields false rest) := by
  rw [l.text_eq, List.append_assoc, consAll_append]
  by_cases hfront : l.front = []
  · rw [Line.bare_of_front hfront, Bool.and_true] at hbare
    rw [hfront, hbare]
    exact splitFields_eol (isEol_eol l.eol) rest
  · have hend : l.front.getLast? ≠ some 0x2e := by
      rw [Ne, ← Line.tight_iff hl, htight]
      decide
    rw [splitFields_front (Line.lineChars hl) inEol (fun h => absurd h hend) hfront,
      splitFields_eol (isEol_eol l.eol)]

theorem splitFields_tight {l : Line} (hl : l.WellFormed) (inEol : Bool) (htight : l.tight = true) (rest : Bytes) :
    splitFields inEol (l.text ++ rest) = l.body :: splitFields true rest := by
  have hfront := Line.front_of_tight hl htight
  have hchars := Line.lineChars hl
  rw [hfront] at hchars
  have hstop : ∀ inEol, splitFields inEol (0x2e :: (l.eol.bytes ++ rest)) = [] :: splitFields true rest := by
    intro inEol
    have hhead : (l.eol.bytes ++ rest).head?.any isEol = true := by cases l.eol <;> rfl
    have hno : isEol 0x2e = false := by decide
    rw [splitFields, if_neg (by rw [hno, Bool.and_false]; decide), if_pos (by rw [hhead]; rfl),
      splitFields_skip (isEol_eol l.eol)]
  rw [l.text_eq, hfront, List.append_assoc, List.append_assoc, List.singleton_append]
  by_cases hbody : l.body = []
  · rw [hbody, List.nil_append, hstop]
  · have hno : isEol 0x2e = false := by decide
    rw [splitFields_front (lineChars_append.1 hchars).1 inEol (fun _ => by simp [hno]) hbody, hstop, consAll_head,
      List.append_nil]

theorem chunksFrom_ne_nil (inEol : Bool) (lines : List Line) : ∃ c cs, chunksFrom inEol lines = c :: cs := by
  induction lines generalizing inEol with
  | nil => exact ⟨_, _, rfl⟩
  | cons l lines ih =>
    rw [chunksFrom]
    split
    · exact ih true
    · split
      · exact ⟨_, _, rfl⟩
      · obtain ⟨c, cs, h⟩ := ih false
        exact ⟨l :: c, cs, by rw [h]; rfl⟩

/-- A string is cut where the document is. -/
theorem splitFields_docText {lines : List Line} (hlines : ∀ l ∈ lines, l.WellFormed) (inEol : Bool) :
    splitFields inEol (docText lines) = (chunksFrom inEol lines).map chunkText := by
  induction lines generalizing inEol with
  | nil => cases inEol <;> rfl
  | cons l lines ih =>
    obtain ⟨hl, hlines⟩ := List.forall_mem_cons.1 hlines
    have hdoc : docText (l :: lines) = l.text ++ docText lines := rfl
    rw [chunksFrom, hdoc]
    split
    · next hskip =>
      simp only [Bool.and_eq_true] at hskip
      obtain ⟨rfl, hbare⟩ := hskip
      rw [← ih hlines true, l.text_eq, Line.front_of_bare hbare, List.nil_append, splitFields_skip (isEol_eol l.eol)]
    · next hskip =>
      split
      · next htight => rw [splitFields_tight hl inEol htight, ih hlines true, List.map_cons, chunkText, if_pos htight]
      · next htight =>
        obtain ⟨c, cs, hc⟩ := chunksFrom_ne_nil false lines
        have htight' : l.tight = false := Bool.eq_false_iff.2 htight
        rw [splitFields_line hl inEol (Bool.eq_false_iff.2 hskip) htight', ih hlines false, hc, List.map_cons,
          consAll_head, consHead, List.map_cons, chunkText, if_neg htight]

/-- Only the last piece may be empty. -/
theorem chunksFrom_dropLast (inEol : Bool) (lines : List Line) : ∀ c ∈ (chunksFrom inEol lines).dropLast, c ≠ [] := by
  induction lines generalizing inEol with
  | nil => exact fun c hc => by cases hc
  | cons l lines ih =>
    rw [chunksFrom]
    split
    · exact ih true
    · split
      · obtain ⟨c, cs, h⟩ := chunksFrom_ne_nil true lines
        have htail := ih true
        rw [h] at htail ⊢
        rw [List.dropLast_cons_cons]
        exact List.forall_mem_cons.2 ⟨by simp, htail⟩
      · obtain ⟨c, cs, h⟩ := chunksFrom_ne_nil false lines
        have htail := ih false
        rw [h] at htail ⊢
        cases cs with
        | nil => exact fun c hc => by cases hc
        | cons c' cs =>
          rw [consHead, List.dropLast_cons_cons]
          rw [List.dropLast_cons_cons] at htail
          exact List.forall_mem_cons.2 ⟨by simp, (List.forall_mem_cons.1 htail).2⟩

theorem mem_chunksFrom {inEol : Bool} {lines c : List Line} (hc : c ∈ chunksFrom inEol lines) : ∀ l ∈ c, l ∈ lines := by
  induction lines generalizing inEol c with
  | nil =>
    rw [chunksFrom, List.mem_singleton] at hc
    rw [hc]
    exact List.forall_mem_nil _
  | cons l lines ih =>
    rw [chunksFrom] at hc
    split at hc
    · exact fun l' hl' => List.mem_cons_of_mem _ (ih hc l' hl')
    · split at hc
      · rcases List.mem_cons.1 hc with rfl | hc
        · exact fun l' hl' => List.mem_singleton.1 hl' ▸ List.mem_cons_self
        · exact fun l' hl' => List.mem_cons_of_mem _ (ih hc l' hl')
      · obtain ⟨c', cs, h⟩ := chunksFrom_ne_nil false lines
        rw [h, consHead] at hc
        rcases List.mem_cons.1 hc with rfl | hc
        · intro l' hl'
          rcases List.mem_cons.1 hl' with rfl | hl'
          · exact List.mem_cons_self
          · exact List.mem_cons_of_mem _ (ih (c := c') (by rw [h]; exact List.mem_cons_self) l' hl')
        · exact fun l' hl' => List.mem_cons_of_mem _ (ih (c := c) (by rw [h]; exact List.mem_cons_of_mem _ hc) l' hl')

theorem Line.body_ne_nil {l : Line} (h : l.tight = true) : l.body ≠ [] := by
  have hlen : 2 ≤ l.front.length := by
    unfold Line.tight at h
    rw [decide_eq_true_eq] at h
    unfold Line.front
    cases hk : l.kind with
    | blank =>
      rw [hk] at h
      cases h
    | comment text =>
      rw [hk] at h
      cases text with
      | nil => exact absurd h (by decide)
      | cons a text =>
        simp only [LineKind.content, List.length_append, List.length_cons]
        omega
    | triple t =>
      simp only [LineKind.content, TripleText.core, NameText.bytes, List.length_append, List.length_cons]
      omega
  unfold Line.body
  intro hnil
  have hdrop : l.front.dropLast.length = l.front.length - 1 := List.length_dropLast
  rw [hnil] at hdrop
  simp only [List.length_nil] at hdrop
  omega

theorem chunkText_ne_nil {c : List Line} (hc : c ≠ []) : chunkText c ≠ [] := by
  obtain ⟨l, ls, rfl⟩ := List.exists_cons_of_ne_nil hc
  rw [chunkText]
  split
  · next h => exact Line.body_ne_nil h
  · simp [l.text_ne_nil]

theorem dropTrailing_chunkText {cs : List (List Line)} (h : ∀ c ∈ cs.dropLast, c ≠ []) :
    dropTrailing (cs.map chunkText) = (cs.filter (· ≠ [])).map chunkText := by
  induction cs with
  | nil => rfl
  | cons c cs ih =>
    cases cs with
    | nil =>
      by_cases hc : c = []
      · rw [hc]
        rfl
      · have hfilter : [c].filter (· ≠ []) = [c] := by simp [hc]
        rw [hfilter, List.map_singleton, dropTrailing, dropTrailing, if_neg (chunkText_ne_nil hc)]
    | cons c' cs =>
      rw [List.dropLast_cons_cons] at h
      obtain ⟨hc, h⟩ := List.forall_mem_cons.1 h
      have hfilter : (c :: c' :: cs).filter (· ≠ []) = c :: (c' :: cs).filter (· ≠ []) := by simp [hc]
      rw [hfilter, List.map_cons, dropTrailing, ih h, List.map_cons]
      cases hrest : ((c' :: cs).filter (· ≠ [])).map chunkText with
      | nil => rw [if_neg (chunkText_ne_nil hc)]
      | cons field fields => rfl

/-- The pieces of a string are the chunks of the document. -/
theorem fields_docText {lines : List Line} (hlines : ∀ l ∈ lines, l.WellFormed) :
    dropTrailing (splitFields false (docText lines)) = (chunks lines).map chunkText := by
  rw [splitFields_docText hlines, dropTrailing_chunkText (chunksFrom_dropLast false lines), chunks]

/-! ## Reading lines -/

theorem readLines_append {s : Bytes} (hs : 0x0a ∉ s) (rest : Bytes) :
    readLines (s ++ 0x0a :: rest) = (s ++ [0x0a]) :: readLines rest := by
  induction s with
  | nil => rw [List.nil_append, readLines, if_pos rfl, List.nil_append]
  | cons a s ih =>
    obtain ⟨ha, hs'⟩ := not_or.1 (fun h => hs (List.mem_cons.2 h))
    rw [List.cons_append, readLines, if_neg fun h => ha h.symm, ih hs']
    rfl

/-- A file handle gives the lines of the document, when each ends with a line feed. -/
theorem readLines_docText {lines : List Line} (hlines : ∀ l ∈ lines, l.WellFormed) (heol : ∀ l ∈ lines, l.eol ≠ .cr) :
    readLines (docText lines) = lines.map Line.text := by
  induction lines with
  | nil => rfl
  | cons l lines ih =>
    obtain ⟨hl, hlines⟩ := List.forall_mem_cons.1 hlines
    obtain ⟨he, heol⟩ := List.forall_mem_cons.1 heol
    have hfront : 0x0a ∉ l.front := fun hmem => by
      have hchar := (isEol_of_lineChar (Line.lineChars hl _ hmem)).1
      exact absurd hchar (by decide)
    have hdoc : docText (l :: lines) = l.text ++ docText lines := rfl
    have hend : ∃ s, l.text = s ++ [0x0a] ∧ 0x0a ∉ s := by
      rw [l.text_eq]
      cases heq : l.eol with
      | lf => exact ⟨l.front, rfl, hfront⟩
      | cr => exact absurd heq he
      | crlf => exact ⟨l.front ++ [0x0d], by simp [LineEnd.bytes], by simpa using hfront⟩
    obtain ⟨s, hs, hno⟩ := hend
    rw [hdoc, hs, List.append_assoc, List.singleton_append, readLines_append hno, ih hlines heol, List.map_cons, hs]

end RdfStore.NTriples
