import RdfStore.NTriples.Literals
import RdfStore.NTriples.Documents

/-!
# What stands behind a triple

Behind the object of a triple a field of a string may go on.  What follows starts
with a full stop or a space, and the expressions do not look past that, unless
there is a quotation mark or an angle bracket in it.

    a triple in front of something quiet is read as it is alone        (parseTriple_append)
-/

namespace RdfStore.NTriples

open ByteMem Scan

/-! ## Tokens -/

/-- Nothing, a space, or a full stop and more. -/
def Behind (b : Bytes) : Prop := b = [] ∨ b = [0x20] ∨ b.head? = some 0x2e

theorem Behind.head {a : UInt8} {b : Bytes} (h : Behind (a :: b)) : a = 0x20 ∨ a = 0x2e := by
  rcases h with h | h | h
  · cases h
  · exact .inl (List.cons.inj h).1
  · exact .inr (Option.some.inj h)

/-- A character that is neither is not in front. -/
theorem Behind.head_ne {a c : UInt8} {b : Bytes} (h : Behind (a :: b)) (h1 : c ≠ 0x20) (h2 : c ≠ 0x2e) : a ≠ c := by
  rintro rfl
  exact h.head.elim h1 h2

theorem Behind.skipBlanks {b : Bytes} (h : Behind b) : skipBlanks b = [] ∨ (skipBlanks b).head? = some 0x2e := by
  rcases h with rfl | rfl | h
  · exact .inl rfl
  · exact .inl (by decide)
  · obtain ⟨s, rfl⟩ := List.head?_eq_some_iff.1 h
    have hstop : isBlank 0x2e = false := by decide
    exact .inr (by simp [NTriples.skipBlanks, hstop])

/-- What was found, with more behind it. -/
def onto {γ : Type*} (b : Bytes) (t : γ × Bytes) : γ × Bytes := (t.1, t.2 ++ b)

/-- No character of the class in front. -/
theorem takeWhile_behind {p : UInt8 → Bool} {b : Bytes} (hb : Behind b) (h1 : p 0x20 = false) (h2 : p 0x2e = false)
    (s : Bytes) : (s ++ b).takeWhile p = s.takeWhile p ∧ (s ++ b).dropWhile p = s.dropWhile p ++ b := by
  have hempty : b.takeWhile p = [] ∧ b.dropWhile p = b := by
    cases b with
    | nil => exact ⟨rfl, rfl⟩
    | cons a b =>
      have ha : p a = false := by rcases hb.head with rfl | rfl <;> assumption
      simp [ha]
  induction s with
  | nil => exact hempty
  | cons a s ih =>
    by_cases ha : p a = true
    · simp only [List.cons_append, List.takeWhile_cons_of_pos ha, List.dropWhile_cons_of_pos ha, ih, and_self]
    · simp only [List.cons_append, List.takeWhile_cons_of_neg ha, List.dropWhile_cons_of_neg ha, and_self]

theorem scanUriref_append_right {b : Bytes} (hb : Behind b) (hangle : 0x3e ∉ b) (s : Bytes) :
    scanUriref (s ++ b) = (scanUriref s).map (onto b) := by
  cases s with
  | nil =>
    cases b with
    | nil => rfl
    | cons a b => exact scanUriref_of_ne (hb.head_ne (by decide) (by decide)) b
  | cons a s =>
    rw [List.cons_append]
    by_cases ha : a = 0x3c
    · subst ha
      by_cases hmem : 0x3e ∈ s
      · obtain ⟨x, y, rfl, hx⟩ := exists_first_split hmem
        rw [List.append_assoc, List.cons_append, scanUriref_append hx, scanUriref_append hx]
        rfl
      · have hmem' : 0x3e ∉ s ++ b := by
          rw [List.mem_append]
          tauto
        rw [scanUriref, if_neg fun h => hmem' h.2, scanUriref, if_neg fun h => hmem h.2]
        rfl
    · rw [scanUriref_of_ne ha, scanUriref_of_ne ha]
      rfl

theorem scanNodeId_append_right {b : Bytes} (hb : Behind b) (s : Bytes) :
    scanNodeId (s ++ b) = (scanNodeId s).map (onto b) := by
  have hlabel := fun t => takeWhile_behind (p := isLabelChar) hb (by decide) (by decide) t
  rcases s with _ | ⟨x, _ | ⟨y, _ | ⟨c, t⟩⟩⟩
  · rcases b with _ | ⟨a, _ | ⟨a', _ | ⟨a'', b⟩⟩⟩
    · rfl
    · rfl
    · rfl
    · rw [List.nil_append, scanNodeId, if_neg fun h => hb.head_ne (by decide) (by decide) h.1]
      rfl
  · rcases b with _ | ⟨a, _ | ⟨a', b⟩⟩
    · rfl
    · rfl
    · rw [List.cons_append, List.nil_append, scanNodeId, if_neg fun h => hb.head_ne (by decide) (by decide) h.2.1]
      rfl
  · rcases b with _ | ⟨a, b⟩
    · rfl
    · have ha : isLetter a = false := by rcases hb.head with rfl | rfl <;> decide
      rw [List.cons_append, List.cons_append, List.nil_append, scanNodeId, if_neg fun h => by simp [ha] at h]
      rfl
  · simp only [List.cons_append, scanNodeId, (hlabel t).1, (hlabel t).2]
    split <;> rfl

theorem scanLang_append_right {b : Bytes} (hb : Behind b) (s : Bytes) :
    scanLang (s ++ b) = (scanLang s).map (onto b) := by
  have hlang := fun t => takeWhile_behind (p := isLangChar) hb (by decide) (by decide) t
  rw [scanLang_eq, scanLang_eq, (hlang s).1, (hlang s).2]
  split
  · rfl
  · cases hdrop : s.dropWhile isLangChar with
    | nil =>
      cases b with
      | nil => rfl
      | cons a b =>
        have ha : a ≠ 0x2d := hb.head_ne (by decide) (by decide)
        simp [ha, onto]
    | cons m t =>
      simp only [List.cons_append, (hlang t).1, (hlang t).2]
      split <;> rfl

theorem scanAtLang_append_right {b : Bytes} (hb : Behind b) (s : Bytes) :
    scanAtLang (s ++ b) = (scanAtLang s).map (onto b) := by
  cases s with
  | nil =>
    cases b with
    | nil => rfl
    | cons a b => exact scanAtLang_of_ne (hb.head_ne (by decide) (by decide)) b
  | cons a s =>
    rw [List.cons_append, scanAtLang, scanAtLang, scanLang_append_right hb]
    split <;> rfl

theorem scanType_append_right {b : Bytes} (hb : Behind b) (hangle : 0x3e ∉ b) (s : Bytes) :
    scanType (s ++ b) = (scanType s).map (onto b) := by
  match s with
  | a :: a' :: s =>
    rw [List.cons_append, List.cons_append, scanType, scanType, scanUriref_append_right hb hangle]
    split <;> rfl
  | [] =>
    cases b with
    | nil => rfl
    | cons a b => exact scanType_of_ne (hb.head_ne (by decide) (by decide)) b
  | [x] =>
    cases b with
    | nil => rfl
    | cons a b =>
      rw [List.cons_append, List.nil_append, scanType, if_neg fun h => hb.head_ne (by decide) (by decide) h.2]
      rfl

theorem suffixPatterns_append_right {b : Bytes} (hb : Behind b) (hangle : 0x3e ∉ b)
    {p : Bytes → Option (Suffix × Bytes)} (hp : p ∈ suffixPatterns) (s : Bytes) :
    p (s ++ b) = (p s).map (onto b) := by
  simp only [suffixPatterns, typedPatterns, List.cons_append, List.nil_append, List.mem_cons, List.not_mem_nil,
    or_false] at hp
  rcases hp with rfl | rfl | rfl | rfl
  · unfold scanLangType
    rw [scanAtLang_append_right hb]
    cases scanAtLang s with
    | none => rfl
    | some l =>
      simp only [Option.map_some, Option.bind_some, onto]
      rw [scanType_append_right hb hangle, Option.map_map, Option.map_map]
      rfl
  · simp only [scanType_append_right hb hangle, Option.map_map]
    rfl
  · simp only [scanAtLang_append_right hb, Option.map_map]
    rfl
  · rfl

theorem scanLiteral_append_right {b : Bytes} (hb : Behind b) (hquote : 0x22 ∉ b) (hangle : 0x3e ∉ b) (s : Bytes) :
    scanLiteral (0x22 :: (s ++ b)) = (scanLiteral (0x22 :: s)).map (onto b) := by
  rw [scanLiteral_cons, scanLiteral_cons]
  have heach : ∀ p ∈ suffixPatterns, lastSplit p 0x22 (s ++ b) = (lastSplit p 0x22 s).map (onto b) := fun p hp =>
    lastSplit_append hquote fun _ z _ => suffixPatterns_append_right hb hangle hp z
  generalize suffixPatterns = ps at heach
  induction ps with
  | nil => rfl
  | cons p ps ih =>
    obtain ⟨hp, hps⟩ := List.forall_mem_cons.1 heach
    rw [List.findSome?_cons, List.findSome?_cons, hp]
    cases lastSplit p 0x22 s with
    | some t => rfl
    | none => exact ih hps

/-! ## What is left -/

theorem scanUriref_suffix {s x rest : Bytes} (h : scanUriref s = some (x, rest)) : rest <:+ s := by
  cases s with
  | nil => cases h
  | cons a s =>
    rw [scanUriref] at h
    split at h
    · cases h
      exact ((List.tail_suffix _).trans (List.dropWhile_suffix _)).trans (List.suffix_cons a s)
    · cases h

theorem scanType_suffix {s x rest : Bytes} (h : scanType s = some (x, rest)) : rest <:+ s := by
  unfold scanType at h
  split at h
  · next a b s =>
    split at h
    · exact (scanUriref_suffix h).trans ((List.suffix_cons b s).trans (List.suffix_cons a _))
    · cases h
  · cases h

theorem scanAtLang_suffix {s l rest : Bytes} (h : scanAtLang s = some (l, rest)) : rest <:+ s := by
  cases s with
  | nil => cases h
  | cons a s =>
    rw [scanAtLang] at h
    split at h
    · exact ⟨a :: l, by rw [(scanLang_append h).1, List.cons_append]⟩
    · cases h

theorem suffixPatterns_suffix {p : Bytes → Option (Suffix × Bytes)} (hp : p ∈ suffixPatterns) {s rest : Bytes}
    {c : Suffix} (h : p s = some (c, rest)) : rest <:+ s := by
  simp only [suffixPatterns, typedPatterns, List.cons_append, List.nil_append, List.mem_cons, List.not_mem_nil,
    or_false] at hp
  rcases hp with rfl | rfl | rfl | rfl
  · obtain ⟨l, hl, h⟩ := Option.bind_eq_some_iff.1 h
    obtain ⟨t, ht, h⟩ := Option.map_eq_some_iff.1 h
    cases h
    exact (scanType_suffix ht).trans (scanAtLang_suffix hl)
  · obtain ⟨t, ht, h⟩ := Option.map_eq_some_iff.1 h
    cases h
    exact scanType_suffix ht
  · obtain ⟨l, hl, h⟩ := Option.map_eq_some_iff.1 h
    cases h
    exact scanAtLang_suffix hl
  · cases h
    exact List.suffix_refl _

theorem scanLiteral_suffix {s rest : Bytes} {t : Bytes × Suffix} (h : scanLiteral (0x22 :: s) = some (t, rest)) :
    rest <:+ s := by
  rw [scanLiteral_cons] at h
  obtain ⟨p, hp, hsplit⟩ := List.exists_of_findSome?_eq_some h
  obtain ⟨y, rfl, hy⟩ := lastSplit_split (x := t.1) (c := t.2) hsplit
  exact (suffixPatterns_suffix hp hy).trans ⟨t.1 ++ [0x22], by simp⟩

/-- What is left behind the last quotation mark is no white space that is not blank. -/
theorem blank_of_white {s x rest : Bytes} (hx : ∀ a ∈ x, isWhite a = true → isBlank a = true)
    (h : rest <:+ s ++ 0x22 :: x) (hwhite : ∀ a ∈ rest, isWhite a = true) : Blank rest := by
  rcases le_or_gt rest.length x.length with hle | hgt
  · have hsuffix : rest <:+ x :=
      List.suffix_of_suffix_length_le h ((List.suffix_cons _ _).trans (List.suffix_append _ _)) hle
    exact fun a ha => hx a (hsuffix.subset ha) (hwhite a ha)
  · have hsuffix : 0x22 :: x <:+ rest := List.suffix_of_suffix_length_le (List.suffix_append _ _) h hgt
    exact absurd (hwhite 0x22 (hsuffix.subset List.mem_cons_self)) (by decide)

theorem skipBlanks_blank {s : Bytes} (hs : Blank s) (b : Bytes) : skipBlanks (s ++ b) = skipBlanks b :=
  List.dropWhile_append_of_pos hs

theorem scanContext_behind {b : Bytes} (h : b = [] ∨ b.head? = some 0x2e) : scanContext b = some none := by
  rcases h with rfl | h
  · rfl
  · obtain ⟨s, rfl⟩ := List.head?_eq_some_iff.1 h
    have hstop : isWhite 0x2e = false := by decide
    have hdot : startsWithFullStop (0x2e :: s) = true := by
      simp [startsWithFullStop, hstop]
    have hname : scanName (0x2e :: s) = none := by
      unfold scanName
      rw [scanUriref_of_ne (by decide)]
      match s with
      | [] => rfl
      | [_] => rfl
      | a :: b :: s =>
        rw [scanNodeId, if_neg fun h => absurd h.1 (by decide)]
        rfl
    rw [scanContext_eq, if_neg (by simp), hname, hdot]
    rfl

theorem scanName_append_right {b : Bytes} (hb : Behind b) (hangle : 0x3e ∉ b) (s : Bytes) :
    scanName (s ++ b) = (scanName s).map (onto b) := by
  unfold scanName
  rw [scanUriref_append_right hb hangle, scanNodeId_append_right hb]
  cases scanUriref s with
  | some t => rfl
  | none => cases scanNodeId s <;> rfl

theorem dropWhile_append_of_some {p : UInt8 → Bool} {s : Bytes} (hs : ¬ ∀ a ∈ s, p a = true) (b : Bytes) :
    (s ++ b).dropWhile p = s.dropWhile p ++ b ∧ s.dropWhile p ≠ [] := by
  induction s with
  | nil => exact absurd (List.forall_mem_nil _) hs
  | cons a s ih =>
    by_cases ha : p a = true
    · rw [List.cons_append, List.dropWhile_cons_of_pos ha, List.dropWhile_cons_of_pos ha]
      exact ih fun h => hs (List.forall_mem_cons.2 ⟨ha, h⟩)
    · rw [List.cons_append, List.dropWhile_cons_of_neg ha, List.dropWhile_cons_of_neg ha]
      exact ⟨rfl, List.cons_ne_nil a s⟩

theorem scanContext_append_right {b : Bytes} (hb : Behind b) (hangle : 0x3e ∉ b) {s : Bytes}
    (hs : (∀ a ∈ s, isWhite a = true) → Blank s) :
    scanContext (skipBlanks (s ++ b)) = scanContext (skipBlanks s) := by
  by_cases hblank : Blank s
  · have hnil : skipBlanks s = [] := List.dropWhile_eq_nil_iff.2 hblank
    rw [skipBlanks_blank hblank, scanContext_behind hb.skipBlanks, hnil]
    rfl
  · obtain ⟨hdrop, hne⟩ := dropWhile_append_of_some hblank b
    have hnot : ¬ ∀ a ∈ skipBlanks s, isWhite a = true := by
      intro h
      refine hblank (hs fun a ha => ?_)
      rw [← List.takeWhile_append_dropWhile (p := isBlank) (l := s), List.mem_append] at ha
      rcases ha with ha | ha
      · have hmem := List.mem_takeWhile_imp ha
        simp only [isBlank, Bool.or_eq_true, decide_eq_true_eq] at hmem
        rcases hmem with rfl | rfl <;> decide
      · exact h a ha
    obtain ⟨hwhite, hwhitene⟩ := dropWhile_append_of_some hnot b
    have hstop : startsWithFullStop (skipBlanks s ++ b) = startsWithFullStop (skipBlanks s) := by
      unfold startsWithFullStop
      rw [hwhite, List.head?_append_of_ne_nil _ hwhitene]
    have hskip : skipBlanks (s ++ b) = skipBlanks s ++ b := hdrop
    have hne : skipBlanks s ≠ [] := hne
    rw [hskip, scanContext_eq, scanContext_eq, if_neg (by simpa using fun h => absurd h hne), if_neg hne,
      scanName_append_right hb hangle, hstop]
    cases scanName (skipBlanks s) <;> rfl

/-! ## A triple -/

/-- Its escape sequences do not depend on what follows. -/
def Closed (a : Bytes) : Prop := ∀ b, unescape (a ++ b) = unescape a ++ unescape b

theorem Closed.append {a b : Bytes} (ha : Closed a) (hb : Closed b) : Closed (a ++ b) := by
  intro c
  rw [List.append_assoc, ha, hb, ha, List.append_assoc]

theorem closed_stop {x : UInt8} (hx : Stops x) (a : Bytes) : Closed (a ++ [x]) := by
  intro b
  rw [List.append_assoc, List.singleton_append, unescape_append hx, unescape_append hx, List.append_assoc]
  rfl

theorem closed_of_ne {a : Bytes} (ha : ∀ b ∈ a, b ≠ 0x5c) : Closed a := by
  intro b
  rw [unescape_of_ne ha]
  have hself := unescape_of_ne ha []
  rw [List.append_nil] at hself
  rw [hself]
  simp [unescape, unescapeFrom]

theorem unescape_self {a : Bytes} (ha : ∀ b ∈ a, b ≠ 0x5c) : unescape a = a :=
  unescape_of_noSequence fun _ hr => absurd rfl (ha 0x5c (hr.subset List.mem_cons_self))

theorem blank_ne {s : Bytes} (hs : Blank s) : ∀ b ∈ s, b ≠ 0x5c := by
  rintro _ hb rfl
  exact absurd (hs _ hb) (by decide)

theorem NameText.nodeId_ne {label : Bytes} (h : (Name.bnode label).WellFormed) :
    ∀ b ∈ (NameText.nodeId label).bytes, b ≠ 0x5c := by
  obtain ⟨a, l, rfl, ha, hl⟩ := h
  have hlabel : isLabelChar a = true := by simp [isLabelChar, ha]
  simp only [NameText.bytes, List.forall_mem_cons]
  exact ⟨by decide, by decide, isLabelChar_ne_backslash hlabel, fun b hb => isLabelChar_ne_backslash (hl b hb)⟩

theorem NameText.closed {n : NameText} (hn : n.WellFormed) : Closed n.bytes := by
  cases n with
  | uriref u => exact closed_stop stops_rangle (0x3c :: u)
  | nodeId label => exact closed_of_ne (NameText.nodeId_ne hn)

/-- The resource that a name is read as. -/
def NameText.resource : NameText → Option Resource
  | .uriref u => createResource (unescape u)
  | .nodeId label => createbNode label

theorem scanNodeId_label {label : Bytes} (h : (Name.bnode label).WellFormed) {rest : Bytes}
    (hrest : ∀ a ∈ rest.head?, isLabelChar a = false) :
    scanNodeId (0x5f :: 0x3a :: (label ++ rest)) = some (label, rest) := by
  obtain ⟨a, l, rfl, ha, hl⟩ := h
  have hempty : rest.takeWhile isLabelChar = [] ∧ rest.dropWhile isLabelChar = rest := by
    cases rest with
    | nil => exact ⟨rfl, rfl⟩
    | cons b rest =>
      have hb := hrest b rfl
      simp [hb]
  rw [List.cons_append, scanNodeId, if_pos ⟨rfl, rfl, ha⟩, List.takeWhile_append_of_pos hl,
    List.dropWhile_append_of_pos hl, hempty.1, hempty.2, List.append_nil]

/-- A name is read up to what cannot belong to it. -/
theorem NameText.scan {n : NameText} (hn : n.WellFormed) {rest : Bytes}
    (hrest : ∀ a ∈ rest.head?, isLabelChar a = false) :
    scanName (unescape n.bytes ++ rest) = some (n.resource, rest) := by
  unfold scanName
  cases n with
  | uriref u =>
    have hangle : 0x3e ∉ unescape u := fun h => (hn.escaped _ h).2.1 rfl
    have hbytes : unescape (NameText.uriref u).bytes ++ rest = 0x3c :: (unescape u ++ 0x3e :: rest) := by
      have hu := unescape_append stops_rangle (0x3c :: u) []
      rw [List.cons_append, unescape_cons (by decide) u] at hu
      rw [NameText.bytes, hu]
      simp [unescape, unescapeFrom]
    rw [hbytes, scanUriref_append hangle]
    rfl
  | nodeId label =>
    rw [unescape_self (NameText.nodeId_ne hn), NameText.bytes, List.cons_append, List.cons_append,
      scanUriref_of_ne (by decide), scanNodeId_label hn hrest]
    rfl

theorem NameText.head {n : NameText} (hn : n.WellFormed) (rest : Bytes) :
    ∃ a s, unescape n.bytes ++ rest = a :: s ∧ isWhite a = false ∧ isBlank a = false ∧ a ≠ 0x23 := by
  cases n with
  | uriref u =>
    rw [NameText.bytes, unescape_cons (by decide)]
    exact ⟨0x3c, _, rfl, by decide, by decide, by decide⟩
  | nodeId label =>
    rw [unescape_self (NameText.nodeId_ne hn)]
    exact ⟨0x5f, _, rfl, by decide, by decide, by decide⟩

theorem isLabelChar_blank {a : UInt8} (h : isBlank a = true) : isLabelChar a = false := by
  simp only [isBlank, Bool.or_eq_true, decide_eq_true_eq] at h
  rcases h with rfl | rfl <;> decide

/-- A name and the white space behind it. -/
theorem NameText.scanSubject {n : NameText} (hn : n.WellFormed) {gap more : Bytes} (hgap : gap ≠ [] ∧ Blank gap)
    (hmore : ∃ a s, more = a :: s ∧ isBlank a = false) :
    scanSubject (unescape n.bytes ++ (gap ++ more)) = some (n.resource, more) := by
  obtain ⟨g, gap, rfl⟩ := List.exists_cons_of_ne_nil hgap.1
  obtain ⟨a, s, rfl, ha⟩ := hmore
  have hg : isBlank g = true := hgap.2 g List.mem_cons_self
  have hhead : ∀ b ∈ (g :: gap ++ a :: s).head?, isLabelChar b = false := by
    rintro _ ⟨⟩
    exact isLabelChar_blank hg
  have hscan := NameText.scan hn hhead
  have hskip : (g :: gap ++ a :: s).dropWhile isBlank = a :: s := by
    rw [List.dropWhile_append_of_pos hgap.2, List.dropWhile_cons_of_neg (by rw [ha]; decide)]
  have hblanks : blanks (g :: gap ++ a :: s) = some (a :: s) := by
    rw [blanks, if_pos (by simpa using hg), hskip]
  rw [scanSubject_eq, hscan, Option.bind_some, hblanks, Option.map_some]

/-- An object that is a literal. -/
def ObjectText.IsLiteral : ObjectText → Prop
  | .name _ => False
  | .literal .. => True

instance (o : ObjectText) : Decidable o.IsLiteral :=
  match o with
  | .name _ => .isFalse id
  | .literal .. => .isTrue trivial

theorem closed_suffixText {lang : List Bytes} (hlang : LangWellFormed lang) (dataType : Option Bytes) :
    Closed (suffixText lang dataType) := by
  have hbackslash : 0x5c ∉ langText lang := not_mem_langText hlang (by decide) (by decide) (by decide)
  rw [suffixText_eq]
  refine Closed.append (closed_of_ne fun b hb h => hbackslash (h ▸ hb)) ?_
  cases dataType with
  | none => exact closed_of_ne (List.forall_mem_nil _)
  | some dt => exact closed_stop stops_rangle (0x5e :: 0x5e :: 0x3c :: dt)

theorem ObjectText.closed {o : ObjectText} (ho : o.WellFormed) : Closed o.bytes := by
  cases o with
  | name n => exact NameText.closed ho
  | literal string lang dataType =>
    have hsplit : (ObjectText.literal string lang dataType).bytes =
        (0x22 :: string ++ [0x22]) ++ suffixText lang dataType := by
      simp [ObjectText.bytes]
    rw [hsplit]
    exact (closed_stop stops_quote (0x22 :: string)).append (closed_suffixText ho.2.1 dataType)

/-- No white space behind the string. -/
theorem white_suffixText {lang : List Bytes} (hlang : LangWellFormed lang) {dataType : Option Bytes}
    (htype : ∀ dt ∈ dataType, IsUriref dt) : ∀ a ∈ unescape (suffixText lang dataType), isWhite a = false := by
  have hbackslash : 0x5c ∉ langText lang := not_mem_langText hlang (by decide) (by decide) (by decide)
  have hwhite : ∀ a ∈ langText lang, isWhite a = false := by
    intro a ha
    by_contra hw
    have hcases : a = 0x20 ∨ a = 0x09 ∨ a = 0x0a ∨ a = 0x0c ∨ a = 0x0d := by
      simpa only [isWhite, Bool.not_eq_false, Bool.or_eq_true, decide_eq_true_eq, or_assoc] using hw
    rcases hcases with rfl | rfl | rfl | rfl | rfl <;>
      exact not_mem_langText hlang (by decide) (by decide) (by decide) ha
  rw [suffixText_eq, unescape_of_ne fun b hb h => hbackslash (h ▸ hb)]
  refine List.forall_mem_append.2 ⟨hwhite, ?_⟩
  cases dataType with
  | none => exact List.forall_mem_nil _
  | some dt =>
    have hdt := htype dt rfl
    have hangle := unescape_append stops_rangle (0x5e :: 0x5e :: 0x3c :: dt) []
    have hplain : ∀ b ∈ ([0x5e, 0x5e, 0x3c] : Bytes), b ≠ 0x5c := forall_mem_of_all (by decide)
    have hfront := unescape_of_ne hplain dt
    have htext : unescape (typeText (some dt)) = 0x5e :: 0x5e :: 0x3c :: (unescape dt ++ [0x3e]) := by
      have happ : typeText (some dt) = 0x5e :: 0x5e :: 0x3c :: dt ++ [0x3e] := rfl
      rw [happ, hangle]
      exact congrArg (· ++ [0x3e]) hfront
    rw [htext]
    simp only [List.forall_mem_cons, List.forall_mem_append]
    exact ⟨by decide, by decide, by decide, fun a ha => (hdt.escaped a ha).2.2.2, by decide, List.forall_mem_nil _⟩

theorem TripleText.closed_core {t : TripleText} (ht : t.WellFormed) : Closed t.core := by
  have hpredicate : (NameText.uriref t.predicate).WellFormed := ht.predicate
  have hgap {s : Bytes} (hs : Blank s) : Closed s := closed_of_ne (blank_ne hs)
  exact (NameText.closed ht.subject).append ((hgap ht.gap1.2).append ((NameText.closed hpredicate).append
    ((hgap ht.gap2.2).append ((ObjectText.closed ht.object).append (hgap ht.gap3)))))

/-- The core with its escape sequences replaced. -/
theorem TripleText.unescape_core {t : TripleText} (ht : t.WellFormed) :
    unescape t.core = unescape t.subject.bytes ++ (t.gap1 ++ (unescape (NameText.uriref t.predicate).bytes ++
      (t.gap2 ++ (unescape t.object.bytes ++ t.gap3)))) := by
  have hpredicate : (NameText.uriref t.predicate).WellFormed := ht.predicate
  unfold TripleText.core
  rw [NameText.closed ht.subject, unescape_of_ne (blank_ne ht.gap1.2), NameText.closed hpredicate,
    unescape_of_ne (blank_ne ht.gap2.2), ObjectText.closed ht.object, unescape_self (blank_ne ht.gap3)]

theorem ObjectText.head {o : ObjectText} (ho : o.WellFormed) (rest : Bytes) :
    ∃ a s, unescape o.bytes ++ rest = a :: s ∧ isBlank a = false := by
  cases o with
  | name n =>
    obtain ⟨a, s, hsplit, -, ha, -⟩ := NameText.head ho rest
    exact ⟨a, s, hsplit, ha⟩
  | literal string lang dataType =>
    rw [ObjectText.bytes, unescape_cons (by decide)]
    exact ⟨0x22, _, rfl, by decide⟩

/-- Object and context, in front of something quiet. -/
theorem scanObject_append {o : ObjectText} (ho : o.WellFormed) {gap b : Bytes} (hgap : Blank gap) (hb : Behind b)
    (hquiet : o.IsLiteral → 0x22 ∉ b ∧ 0x3e ∉ b) :
    ((scanObject (unescape o.bytes ++ (gap ++ b))).bind fun t => (scanContext t.2).map fun c => (t.1, c)) =
      (scanObject (unescape o.bytes ++ gap)).bind fun t => (scanContext t.2).map fun c => (t.1, c) := by
  cases o with
  | name n =>
    have hlabel : ∀ b, Behind b → ∀ a ∈ (gap ++ b).head?, isLabelChar a = false := by
      intro b hb a ha
      cases gap with
      | nil =>
        obtain ⟨s, rfl⟩ := List.head?_eq_some_iff.1 ha
        rcases hb.head with rfl | rfl <;> decide
      | cons g gap =>
        have hg : a = g := (Option.some.inj ha).symm
        exact isLabelChar_blank (hgap a (hg ▸ List.mem_cons_self))
    have hscan : ∀ b, Behind b → ((scanObject (unescape (ObjectText.name n).bytes ++ (gap ++ b))).bind fun t =>
        (scanContext t.2).map fun c => (t.1, c)) = some (n.resource.map .resource, none) := by
      intro b hb
      have hcontext := scanContext_behind hb.skipBlanks
      rw [ObjectText.bytes, scanObject_eq, NameText.scan ho (hlabel b hb)]
      simp only [Option.bind_some, skipBlanks_blank hgap, hcontext, Option.map_some]
    have hnil := hscan [] (.inl rfl)
    rw [List.append_nil] at hnil
    rw [hscan b hb, hnil]
  | literal string lang dataType =>
    obtain ⟨hquote, hangle⟩ := hquiet trivial
    have hbytes : ∀ r, unescape (ObjectText.literal string lang dataType).bytes ++ r =
        0x22 :: (unescape string ++ 0x22 :: (unescape (suffixText lang dataType) ++ r)) := by
      intro r
      rw [ObjectText.bytes, unescape_cons (by decide), unescape_append stops_quote]
      simp
    have hname : ∀ s, scanName (0x22 :: s) = none := by
      intro s
      unfold scanName
      rw [scanUriref_of_ne (by decide)]
      match s with
      | [] => rfl
      | [_] => rfl
      | a :: b :: s =>
        rw [scanNodeId, if_neg fun h => absurd h.1 (by decide)]
        rfl
    have hsame : unescape string ++ 0x22 :: (unescape (suffixText lang dataType) ++ (gap ++ b)) =
        (unescape string ++ 0x22 :: (unescape (suffixText lang dataType) ++ gap)) ++ b := by simp
    rw [hbytes, hbytes, scanObject_eq, scanObject_eq, hname, hname, hsame,
      scanLiteral_append_right hb hquote hangle]
    cases hscan : scanLiteral (0x22 :: (unescape string ++ 0x22 :: (unescape (suffixText lang dataType) ++ gap))) with
    | none => rfl
    | some t =>
      have hrest : (∀ a ∈ t.2, isWhite a = true) → Blank t.2 := by
        refine blank_of_white ?_ (scanLiteral_suffix hscan)
        intro a ha hw
        rcases List.mem_append.1 ha with ha | ha
        · rw [white_suffixText ho.2.1 ho.2.2 a ha] at hw
          cases hw
        · exact hgap a ha
      simp only [Option.map_some, Option.bind_some, onto, scanContext_append_right hb hangle hrest]

/-- A triple in front of something quiet is read as it is alone. -/
theorem parseTriple_append (sSource : Option Bytes) {t : TripleText} (ht : t.WellFormed) {b : Bytes} (hb : Behind b)
    (hquiet : t.object.IsLiteral → 0x22 ∉ b ∧ 0x3e ∉ b) :
    parseTriple sSource (unescape t.core ++ b) = parseTriple sSource (unescape t.core) := by
  have hpredicate : (NameText.uriref t.predicate).WellFormed := ht.predicate
  have hparse : ∀ b, parseTriple sSource (unescape t.subject.bytes ++ (t.gap1 ++
      (unescape (NameText.uriref t.predicate).bytes ++ (t.gap2 ++ (unescape t.object.bytes ++ b))))) =
      ((scanObject (unescape t.object.bytes ++ b)).bind fun o => (scanContext o.2).map fun c => (o.1, c)).map
        fun o => addTriple sSource t.subject.resource (NameText.uriref t.predicate).resource o.1 o.2 := by
    intro b
    obtain ⟨a, s, hhead, -, hblank, -⟩ := NameText.head hpredicate (t.gap2 ++ (unescape t.object.bytes ++ b))
    unfold parseTriple
    rw [NameText.scanSubject ht.subject ht.gap1 ⟨a, s, hhead, hblank⟩]
    simp only [Option.bind_eq_bind, Option.bind_some]
    rw [NameText.scanSubject hpredicate ht.gap2 (ObjectText.head ht.object b), Option.bind_some]
    cases scanObject (unescape t.object.bytes ++ b) with
    | none => rfl
    | some o =>
      simp only [Option.bind_some]
      cases scanContext o.2 <;> rfl
  have hassoc : unescape t.core ++ b = unescape t.subject.bytes ++ (t.gap1 ++
      (unescape (NameText.uriref t.predicate).bytes ++ (t.gap2 ++ (unescape t.object.bytes ++ (t.gap3 ++ b))))) := by
    rw [TripleText.unescape_core ht]
    simp
  rw [hassoc, hparse, TripleText.unescape_core ht, hparse, scanObject_append ht.object ht.gap3 hb hquiet]

end RdfStore.NTriples
