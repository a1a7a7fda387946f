import RdfStore.Query.Uris
import RdfStore.NTriples.Literals

/-!
# URIs and bNodes in place of variables

What `_nextMatch` puts in place of a variable is the text of a node, without any
escaping, and `_prepareTriplepattern` takes the text apart again.

    a bNode is searched for ↔ its label is one             (component_bnode_iff)
    a URI is searched for ↔ nothing in it is taken for anything else,
      or it is a name for itself                           (component_uri_iff)
-/

namespace RdfStore.Query

open ByteMem

/-! ## What should be searched for -/

/-- The node with the kind, the label and the language of a value. -/
def Term.of : Node → Term
  | .resource r => if r.bnode then .bnode r.bytes else .resource r.bytes
  | .literal l => .literal l.bytes l.lang.bytes

/-- At every position at which the value is substituted, the search has the node and nothing else. -/
def Substituted (prefixes : Bytes → Option Bytes) (n : Node) : Prop :=
  ∀ j text, valueText (some n) j = some text → component prefixes text = .terms [Term.of n]

/-! ## What is taken for something else -/

/-- `@` in front of a character of a language. -/
def Tagged (s : Bytes) : Prop := ∃ x b y, s = x ++ 0x40 :: b :: y ∧ NTriples.isLangChar b = true

/-- `^[a-z0-9]+(-[a-z0-9]+)?$` -/
def IsTag (lang : Bytes) : Prop := NTriples.scanLang lang = some (lang, [])

/-- `^[A-Za-z][A-Za-z0-9_\-\.]*$` -/
def isBnodeLabel : Bytes → Bool
  | [] => false
  | c :: t => NTriples.isLetter c && t.all fun d => NTriples.isLabelChar d || d = 0x5f || d = 0x2d || d = 0x2e

/-- A literal without a NUL and without anything that looks like a language, whose own language is none or can be read. -/
structure KeptLiteral (l : Literal) : Prop where
  nul : 0 ∉ l.bytes
  untagged : ¬ Tagged l.bytes
  lang : l.lang.bytes = [] ∨
    l.lang.bytes ≠ ascii "0" ∧ l.lang.bytes.length ≤ maxLangLength ∧ IsTag l.lang.bytes

/-- What is in front of the first colon, and what is behind it. -/
def scheme (s : Bytes) : Bytes := s.takeWhile (· ≠ 0x3a)

def behindColon (s : Bytes) : Bytes := (s.dropWhile (· ≠ 0x3a)).tail

def localName (s : Bytes) : Bytes := if (behindColon s).head? = some 0x3a then (behindColon s).tail else behindColon s

/-- A URI with a colon inside: its scheme is no declared prefix. -/
structure KeptQualified (prefixes : Bytes → Option Bytes) (u : Bytes) : Prop where
  line : 0x0a ∉ behindColon u
  bnode : bnodeLabel u = none
  undeclared : prefixes (scheme u) = none

/-- Any other URI: it does not look like a literal. -/
structure KeptPlain (u : Bytes) : Prop where
  ne_nil : u ≠ []
  ne_zero : u ≠ ascii "0"
  closing : 0x3e ∉ u
  untagged : stripLang true u = none
  unquoted : stripOpening u = none

/-- A URI without a NUL and without a comma in white space. -/
structure KeptUri (prefixes : Bytes → Option Bytes) (u : Bytes) : Prop where
  nul : 0 ∉ u
  comma : splitOred u = [u]
  qualified : isQualified u = true → KeptQualified prefixes u
  plain : isQualified u = false → KeptPlain u

/-- A URI that is taken for a name with a declared prefix, and the name is one of its own. -/
def OwnName (prefixes : Bytes → Option Bytes) (u : Bytes) : Prop :=
  isQualified (cstr u) = true ∧ ∃ f ns,
    (splitOred (cstr u)).filter (fun f => (qualifiedTerm prefixes f).isSome) = [f] ∧ bnodeLabel (chomp f) = none ∧
      prefixes (scheme (chomp f)) = some ns ∧ createQualified ns (localName (chomp f)) = some (.resource u)

/-- Nothing in a value is taken for anything else. -/
def KeptValue (prefixes : Bytes → Option Bytes) : Node → Prop
  | .literal l => KeptLiteral l
  | .resource r =>
    if r.bnode then isBnodeLabel r.bytes = true else KeptUri prefixes r.bytes ∨ OwnName prefixes r.bytes

variable {prefixes : Bytes → Option Bytes}

/-! ## C strings -/

theorem length_cstr (s : Bytes) : (cstr s).length ≤ s.length := (List.takeWhile_prefix _).length_le

/-- A text that is as long as before is whole. -/
theorem cstr_eq_of_length {s : Bytes} (h : s.length ≤ (cstr s).length) : cstr s = s :=
  (List.takeWhile_prefix _).eq_of_length_le h

theorem cstr_cstr (s : Bytes) : cstr (cstr s) = cstr s := cstr_of_not_mem (not_mem_cstr s)

theorem length_chomp (s : Bytes) : (chomp s).length ≤ s.length := by
  unfold chomp
  split_ifs
  · rw [List.length_dropLast]
    omega
  · exact le_rfl

/-! ## Commas -/

/-- The text is whole, or every piece is shorter. -/
theorem splitCommas_cases (n : ℕ) (field s : Bytes) :
    splitCommas n field s = [field ++ s] ∨ ∀ f ∈ splitCommas n field s, f.length < (field ++ s).length := by
  induction n generalizing field s with
  | zero => exact Or.inl rfl
  | succ n ih =>
    cases s with
    | nil => exact Or.inl (by rw [List.append_nil]; rfl)
    | cons a s =>
      have hnext : splitCommas n (field ++ [a]) s = [field ++ a :: s] ∨
          ∀ f ∈ splitCommas n (field ++ [a]) s, f.length < (field ++ a :: s).length := by
        simpa using ih (field ++ [a]) s
      unfold splitCommas
      by_cases ha : NTriples.isWhite a = true
      · rw [if_pos ha]
        cases hw : s.dropWhile NTriples.isWhite with
        | nil => exact hnext
        | cons b t =>
          simp only
          split_ifs with hcomma
          · refine Or.inr fun f hf => ?_
            have hlen : (b :: t).length ≤ s.length := by
              rw [← hw]
              exact (List.dropWhile_suffix _).length_le
            have htail : (t.dropWhile NTriples.isWhite).length ≤ t.length := (List.dropWhile_suffix _).length_le
            have hle : ∀ f ∈ splitCommas n [] (t.dropWhile NTriples.isWhite), f.length ≤ t.length := by
              intro f hf
              rcases ih [] (t.dropWhile NTriples.isWhite) with h | h
              · rw [h, List.mem_singleton] at hf
                rw [hf]
                exact htail
              · exact (h f hf).le.trans htail
            simp only [List.length_append, List.length_cons] at hlen ⊢
            rcases List.mem_cons.1 hf with rfl | hf
            · omega
            · have := hle f hf
              omega
          · exact hnext
      · rw [if_neg ha]
        exact hnext

theorem mem_splitOred {s f : Bytes} (h : f ∈ splitOred s) : f ∈ splitCommas s.length [] s := by
  rw [splitOred, List.mem_reverse] at h
  exact List.mem_reverse.1 ((List.dropWhile_suffix _).subset h)

theorem splitOred_length {s f : Bytes} (h : f ∈ splitOred s) : f.length ≤ s.length := by
  rcases splitCommas_cases s.length [] s with hs | hs
  · have hmem := mem_splitOred h
    rw [hs, List.mem_singleton] at hmem
    exact hmem ▸ le_rfl
  · exact (hs f (mem_splitOred h)).le

/-- A piece that is as long as the text is the only one. -/
theorem splitOred_whole {s f : Bytes} (h : f ∈ splitOred s) (hlen : s.length ≤ f.length) : f = s ∧ splitOred s = [s] := by
  rcases splitCommas_cases s.length [] s with hs | hs
  · have hmem := mem_splitOred h
    rw [hs, List.nil_append, List.mem_singleton] at hmem
    refine ⟨hmem, ?_⟩
    have hne : s ≠ [] := by
      rintro rfl
      cases h
    unfold splitOred
    rw [hs]
    simp [hne]
  · exact absurd (hs f (mem_splitOred h)) (not_lt.2 hlen)

/-! ## Nodes of the factory -/

theorem createResource_some {s : Bytes} {t : Term} (h : createResource s = some t) : t = .resource (cstr s) := by
  unfold createResource at h
  split_ifs at h
  exact (Option.some.inj h).symm

theorem bnodeLabel_iff {s label : Bytes} :
    bnodeLabel s = some label ↔ chomp s = 0x5f :: 0x3a :: label ∧ isBnodeLabel label = true := by
  unfold bnodeLabel
  match chomp s with
  | [] => simp
  | [a] => simp
  | [a, b] =>
    simp only [List.cons.injEq, reduceCtorEq, false_iff, not_and]
    rintro ⟨-, -, rfl⟩ h
    cases h
  | a :: b :: c :: t =>
    simp only [List.cons.injEq]
    constructor
    · intro h
      split_ifs at h with hlabel
      obtain ⟨ha, hb, hc, ht⟩ := hlabel
      cases h
      exact ⟨⟨ha, hb, rfl⟩, by rw [isBnodeLabel, hc, ht]; rfl⟩
    · rintro ⟨⟨ha, hb, rfl⟩, hlabel⟩
      rw [isBnodeLabel, Bool.and_eq_true] at hlabel
      rw [if_pos ⟨ha, hb, hlabel.1, hlabel.2⟩]

/-- A name, a colon, and no line feed behind it. -/
structure Named (s : Bytes) : Prop where
  colon : 0x3a ∈ s
  scheme : scheme s ≠ []
  line : 0x0a ∉ behindColon s

theorem dropWhile_colon {s : Bytes} (h : 0x3a ∈ s) : s.dropWhile (· ≠ 0x3a) = 0x3a :: behindColon s := by
  induction s with
  | nil => cases h
  | cons a s ih =>
    by_cases ha : a = 0x3a
    · subst ha
      rfl
    · have hmem : 0x3a ∈ s := (List.mem_cons.1 h).resolve_left (Ne.symm ha)
      have hcons : (a :: s).dropWhile (· ≠ 0x3a) = s.dropWhile (· ≠ 0x3a) :=
        List.dropWhile_cons_of_pos (by simpa using ha)
      unfold behindColon
      rw [hcons]
      exact ih hmem

/-- The three kinds of names with a colon. -/
theorem qualifiedTerm_named {s : Bytes} (h : Named (chomp s)) :
    qualifiedTerm prefixes s =
      match bnodeLabel (chomp s) with
      | some label => some (.bnode label)
      | none =>
        match prefixes (scheme (chomp s)) with
        | some ns => createQualified ns (localName (chomp s))
        | none => createResource (chomp s) := by
  unfold qualifiedTerm localName
  simp only [dropWhile_colon h.colon]
  exact if_neg (not_or.2 ⟨h.scheme, h.line⟩)

theorem Named.of_some {s : Bytes} {t : Term} (h : qualifiedTerm prefixes s = some t) : Named (chomp s) := by
  unfold qualifiedTerm at h
  cases hdrop : (chomp s).dropWhile (· ≠ 0x3a) with
  | nil =>
    simp only [hdrop] at h
    cases h
  | cons a behind =>
    simp only [hdrop] at h
    by_cases hout : (chomp s).takeWhile (· ≠ 0x3a) = [] ∨ 0x0a ∈ behind
    · rw [if_pos hout] at h
      cases h
    · obtain ⟨hscheme, hline⟩ := not_or.1 hout
      have hcolon : 0x3a ∈ chomp s := by
        by_contra hmem
        have hnil : (chomp s).dropWhile (· ≠ 0x3a) = [] :=
          List.dropWhile_eq_nil_iff.2 fun b hb => decide_eq_true fun heq => hmem (heq ▸ hb)
        rw [hnil] at hdrop
        cases hdrop
      refine ⟨hcolon, hscheme, ?_⟩
      unfold behindColon
      rwa [hdrop]

theorem createQualified_ne_bnode {ns l label : Bytes} : createQualified ns l ≠ some (.bnode label) := by
  unfold createQualified
  split_ifs <;> simp

theorem qualifiedTerm_bnode {s label : Bytes} (h : qualifiedTerm prefixes s = some (.bnode label)) :
    bnodeLabel (chomp s) = some label := by
  rw [qualifiedTerm_named (Named.of_some h)] at h
  split at h
  · next l hl =>
    cases h
    exact hl
  · split at h
    · exact absurd h createQualified_ne_bnode
    · cases createResource_some h

/-- A resource has a declared prefix, or it is the text. -/
theorem qualifiedTerm_resource {s u : Bytes} (h : qualifiedTerm prefixes s = some (.resource u)) :
    bnodeLabel (chomp s) = none ∧
      ((∃ ns, prefixes (scheme (chomp s)) = some ns ∧ createQualified ns (localName (chomp s)) = some (.resource u)) ∨
        prefixes (scheme (chomp s)) = none ∧ u = cstr (chomp s)) := by
  rw [qualifiedTerm_named (Named.of_some h)] at h
  split at h
  · cases h
  · next hbnode =>
    refine ⟨hbnode, ?_⟩
    split at h
    · next ns hns => exact Or.inl ⟨ns, hns, h⟩
    · next hns =>
      have heq := createResource_some h
      cases heq
      exact Or.inr ⟨hns, rfl⟩

/-- Of a list that gives one value, one element gives it, and no other element gives any. -/
theorem filterMap_singleton {α β : Type} {g : α → Option β} {l : List α} {y : β} :
    l.filterMap g = [y] ↔ ∃ f, l.filter (fun f => (g f).isSome) = [f] ∧ g f = some y := by
  induction l with
  | nil => simp
  | cons a l ih =>
    cases ha : g a with
    | none => simp [ha, ih]
    | some z =>
      simp only [List.filterMap_cons, ha, List.cons.injEq, List.filter_cons, Option.isSome_some, if_true]
      constructor
      · rintro ⟨rfl, hl⟩
        refine ⟨a, ⟨rfl, ?_⟩, ha⟩
        rw [List.filter_eq_nil_iff]
        intro b hb
        rw [List.filterMap_eq_nil_iff] at hl
        simp [hl b hb]
      · rintro ⟨f, ⟨rfl, hl⟩, hf⟩
        rw [ha, Option.some.injEq] at hf
        refine ⟨hf, List.filterMap_eq_nil_iff.2 fun b hb => ?_⟩
        have hb' := List.filter_eq_nil_iff.1 hl b hb
        rwa [Option.not_isSome_iff_eq_none] at hb'

/-! ## URIs and bNodes -/

/-- A text between angle brackets. -/
theorem bracketed (inner : Bytes) :
    (0x3c :: (inner ++ [0x3e]) : Bytes).tail.dropLast = inner ∧ (0x3c :: (inner ++ [0x3e]) : Bytes).head? = some 0x3c ∧
      (0x3c :: (inner ++ [0x3e]) : Bytes).getLast? = some 0x3e ∧ 2 ≤ (0x3c :: (inner ++ [0x3e]) : Bytes).length := by
  refine ⟨by simp, rfl, ?_, by simp⟩
  rw [← List.cons_append, List.getLast?_concat]

theorem component_qualified {inner : Bytes} (h : isQualified inner = true) :
    component prefixes (0x3c :: (inner ++ [0x3e])) = .terms ((splitOred inner).filterMap (qualifiedTerm prefixes)) := by
  obtain ⟨hinner, hbracketed⟩ := bracketed inner
  rw [component, if_neg (by simp [isVariable])]
  simp only [hinner]
  exact if_pos ⟨hbracketed, h⟩

theorem component_plain {inner : Bytes} (h : isQualified inner = false) (hne : inner ≠ []) (hclosing : 0x3e ∉ inner) :
    component prefixes (0x3c :: (inner ++ [0x3e])) = .terms ((splitOred inner).filterMap plainTerm) := by
  obtain ⟨hinner, hbracketed⟩ := bracketed inner
  rw [component, if_neg (by simp [isVariable])]
  simp only [hinner]
  rw [if_neg (by simp [h])]
  exact if_pos ⟨hbracketed, hne, hclosing⟩

/-- What is neither is taken for a literal. -/
theorem component_neither (prefixes : Bytes → Option Bytes) {inner : Bytes} (h : isQualified inner = false) (hout : ¬ (inner ≠ [] ∧ 0x3e ∉ inner)) :
    ∃ content lang, component prefixes (0x3c :: (inner ++ [0x3e])) = .terms (createLiteral content lang).toList := by
  obtain ⟨hinner, -⟩ := bracketed inner
  rw [component, if_neg (by simp [isVariable])]
  simp only [hinner]
  rw [if_neg (by simp [h]), if_neg fun hp => hout hp.2]
  exact ⟨_, _, if_neg (by simp)⟩

theorem createLiteral_ne_resource {content lang u : Bytes} : (createLiteral content lang).toList ≠ [.resource u] := by
  unfold createLiteral
  split_ifs <;> simp

theorem createLiteral_ne_bnode {content lang label : Bytes} : (createLiteral content lang).toList ≠ [.bnode label] := by
  unfold createLiteral
  split_ifs <;> simp

theorem isBnodeLabel_chars {label : Bytes} (h : isBnodeLabel label = true) :
    label ≠ [] ∧ ∀ a ∈ label, (NTriples.isLabelChar a || a = 0x5f || a = 0x2d || a = 0x2e) = true := by
  cases label with
  | nil => cases h
  | cons c t =>
    rw [isBnodeLabel, Bool.and_eq_true, List.all_eq_true] at h
    refine ⟨List.cons_ne_nil _ _, fun a ha => ?_⟩
    rcases List.mem_cons.1 ha with rfl | ha
    · have hlabel : NTriples.isLabelChar a = true := by
        unfold NTriples.isLabelChar
        rw [h.1, Bool.true_or]
      simp [hlabel]
    · exact h.2 a ha

theorem isQualified_iff {inner : Bytes} :
    isQualified inner = true ↔ scheme inner ≠ [] ∧ behindColon inner ≠ [] ∧ 0x3e ∉ behindColon inner := by
  simp [isQualified, scheme, behindColon, and_assoc]

/-- What can be a bNode has a name, a colon and something behind it. -/
theorem isQualified_bnode {s label : Bytes} (h : bnodeLabel s = some label) : isQualified s = true := by
  obtain ⟨hchomp, hlabel⟩ := bnodeLabel_iff.1 h
  obtain ⟨hne, hchars⟩ := isBnodeLabel_chars hlabel
  have hclosing : 0x3e ∉ label := fun hmem => absurd (hchars _ hmem) (by decide)
  rw [isQualified_iff]
  unfold chomp at hchomp
  split_ifs at hchomp with hlast
  · obtain ⟨y, rfl⟩ := List.getLast?_eq_some_iff.1 hlast
    rw [List.dropLast_concat] at hchomp
    subst hchomp
    refine ⟨by simp [scheme], by simp [behindColon, List.dropWhile], ?_⟩
    simpa [behindColon, List.dropWhile] using hclosing
  · subst hchomp
    refine ⟨by simp [scheme], by simpa [behindColon, List.dropWhile] using hne, ?_⟩
    simpa [behindColon, List.dropWhile] using hclosing

theorem plainTerm_bnode {s label : Bytes} (h : plainTerm s = some (.bnode label)) : isBnodeLabel label = true := by
  unfold plainTerm at h
  simp only at h
  split at h
  · unfold createLiteral at h
    split_ifs at h
    cases h
  · split at h
    · next l hl =>
      cases h
      exact (bnodeLabel_iff.1 hl).2
    · cases createResource_some h

theorem labelChar_not_white {a : UInt8} (h : (NTriples.isLabelChar a || a = 0x5f || a = 0x2d || a = 0x2e) = true) :
    NTriples.isWhite a = false := by
  induction a using forall_byte with
  | h n hn =>
    revert n
    decide +kernel

theorem component_bnode_iff (label : Bytes) :
    component prefixes (0x3c :: (ascii "_:" ++ cstr label ++ [0x3e])) = .terms [.bnode label] ↔ isBnodeLabel label = true := by
  constructor
  · intro h
    cases hqualified : isQualified (ascii "_:" ++ cstr label) with
    | true =>
      rw [component_qualified hqualified, Component.terms.injEq, filterMap_singleton] at h
      obtain ⟨f, -, hterm⟩ := h
      exact (bnodeLabel_iff.1 (qualifiedTerm_bnode hterm)).2
    | false =>
      by_cases hplain : ascii "_:" ++ cstr label ≠ [] ∧ 0x3e ∉ ascii "_:" ++ cstr label
      · rw [component_plain hqualified hplain.1 hplain.2, Component.terms.injEq, filterMap_singleton] at h
        obtain ⟨f, -, hterm⟩ := h
        exact plainTerm_bnode hterm
      · obtain ⟨content, lang, heq⟩ := component_neither prefixes hqualified hplain
        rw [heq, Component.terms.injEq] at h
        exact absurd h createLiteral_ne_bnode
  · intro h
    obtain ⟨hne, hchars⟩ := isBnodeLabel_chars h
    have hnul : 0 ∉ label := fun hmem => absurd (hchars 0 hmem) (by decide)
    have hwhite : ∀ a ∈ ascii "_:" ++ label, NTriples.isWhite a = false := by
      have hsign : ∀ a ∈ ascii "_:", NTriples.isWhite a = false := forall_mem_of_all (by decide)
      intro a ha
      rcases List.mem_append.1 ha with ha | ha
      · exact hsign a ha
      · exact labelChar_not_white (hchars a ha)
    have hline : 0x0a ∉ ascii "_:" ++ label := fun hmem => absurd (hwhite _ hmem) (by decide)
    have hchomp := chomp_of_not_mem hline
    have hlabel : bnodeLabel (ascii "_:" ++ label) = some label := bnodeLabel_iff.2 ⟨hchomp, h⟩
    have hqualified := isQualified_bnode hlabel
    obtain ⟨hscheme, -, -⟩ := isQualified_iff.1 hqualified
    have hnamed : Named (chomp (ascii "_:" ++ label)) := by
      rw [hchomp]
      refine ⟨by simp [ascii], hscheme, fun hmem => hline ?_⟩
      exact (List.dropWhile_suffix _).subset (List.mem_of_mem_tail hmem)
    rw [cstr_of_not_mem hnul, component_qualified hqualified, splitOred_eq (by simp [ascii]) hwhite, List.filterMap_cons,
      qualifiedTerm_named hnamed, hchomp, hlabel]
    rfl

/-! ## URIs -/

theorem stripLang_length {atEnd : Bool} {s l r : Bytes} (h : stripLang atEnd s = some (l, r)) : r.length < s.length := by
  induction s generalizing l r with
  | nil => cases h
  | cons a s ih =>
    have hnext : ∀ {l r}, ((stripLang atEnd s).map fun t => (t.1, a :: t.2)) = some (l, r) → r.length < (a :: s).length := by
      intro l r h
      obtain ⟨t, ht, heq⟩ := Option.map_eq_some_iff.1 h
      cases heq
      exact Nat.succ_lt_succ (ih ht)
    unfold stripLang at h
    simp only at h
    split at h
    · next lang rest hhere =>
      have hscan : NTriples.scanLang s = some (lang, rest) := by
        split_ifs at hhere
        exact hhere
      have hlen : s.length = lang.length + rest.length := by
        rw [(NTriples.scanLang_append hscan).1, List.length_append]
      have hwhite : (rest.takeWhile NTriples.isWhite).length + (rest.dropWhile NTriples.isWhite).length = rest.length := by
        rw [← List.length_append, List.takeWhile_append_dropWhile]
      split_ifs at h with hend hline
      · cases h
        rw [List.length_cons]
        omega
      · cases h
        have htake : ((rest.takeWhile NTriples.isWhite).reverse.takeWhile (· ≠ 0x0a)).length <
            (rest.takeWhile NTriples.isWhite).length := by
          have hreverse : (rest.takeWhile NTriples.isWhite).reverse.length = (rest.takeWhile NTriples.isWhite).length :=
            List.length_reverse
          rw [← hreverse]
          refine lt_of_le_of_ne (List.takeWhile_prefix _).length_le fun heq => ?_
          have hall := (List.takeWhile_prefix _).eq_of_length heq
          rw [List.takeWhile_eq_self_iff] at hall
          exact absurd (hall 0x0a (List.mem_reverse.2 hline)) (by decide)
        simp only [List.cons_append, List.length_cons, List.length_append, List.length_reverse]
        omega
      · exact hnext h
    · exact hnext h

theorem stripOpening_length {s r : Bytes} (h : stripOpening s = some r) : r.length < s.length := by
  have hle : (s.dropWhile NTriples.isWhite).length ≤ s.length := (List.dropWhile_suffix _).length_le
  unfold stripOpening at h
  split at h
  · cases h
  · next a t hdrop =>
    rw [hdrop, List.length_cons] at hle
    split_ifs at h
    cases h
    omega

/-- A resource that is as long as its text is the text. -/
theorem plainTerm_resource {s u : Bytes} (h : plainTerm s = some (.resource u)) (hlen : s.length ≤ u.length) :
    u = cstr s ∧ stripLang true s = none ∧ stripOpening s = none ∧ s ≠ [] ∧ s ≠ ascii "0" := by
  have hlang : stripLang true s = none := by
    by_contra hne
    obtain ⟨⟨l, r⟩, hstrip⟩ := Option.ne_none_iff_exists'.1 hne
    have hlt := stripLang_length hstrip
    unfold plainTerm at h
    simp only [hstrip, Option.map_some, Option.getD_some] at h
    split at h
    · unfold createLiteral at h
      split_ifs at h
      cases h
    · split at h
      · cases h
      · have heq := createResource_some h
        cases heq
        have hcstr := length_cstr ((stripOpening r).getD r)
        cases hopen : stripOpening r with
        | none =>
          rw [hopen, Option.getD_none] at hcstr hlen
          omega
        | some o =>
          have := stripOpening_length hopen
          rw [hopen, Option.getD_some] at hcstr hlen
          omega
  have hopen : stripOpening s = none := by
    by_contra hne
    obtain ⟨o, hopen⟩ := Option.ne_none_iff_exists'.1 hne
    have hlt := stripOpening_length hopen
    unfold plainTerm at h
    simp only [hlang, Option.map_none, Option.getD_none, hopen, Option.bind_some, Option.getD_some] at h
    split at h
    · unfold createLiteral at h
      split_ifs at h
      cases h
    · split at h
      · cases h
      · have heq := createResource_some h
        cases heq
        have hcstr := length_cstr o
        omega
  unfold plainTerm at h
  simp only [hlang, Option.map_none, Option.getD_none, hopen, Option.bind_none] at h
  split at h
  · cases h
  · have heq := createResource_some h
    cases heq
    unfold createResource at h
    split_ifs at h with hfalse
    exact ⟨rfl, hlang, hopen, fun hnil => hfalse (Or.inl hnil), fun hzero => hfalse (Or.inr (Or.inl hzero))⟩

theorem mem_colon_of_behind {s : Bytes} (h : behindColon s ≠ []) : 0x3a ∈ s := by
  by_contra hmem
  have hnil : s.dropWhile (· ≠ 0x3a) = [] :=
    List.dropWhile_eq_nil_iff.2 fun b hb => decide_eq_true fun heq => hmem (heq ▸ hb)
  unfold behindColon at h
  rw [hnil] at h
  exact h rfl

/-- A line feed at the end is behind the colon. -/
theorem chomp_of_behind {s : Bytes} (hbehind : behindColon s ≠ []) (hline : 0x0a ∉ behindColon s) : chomp s = s := by
  refine if_neg fun hlast => hline ?_
  have hs : s = (s.takeWhile (· ≠ 0x3a) ++ [0x3a]) ++ behindColon s := by
    rw [List.append_assoc, List.singleton_append, ← dropWhile_colon (mem_colon_of_behind hbehind),
      List.takeWhile_append_dropWhile]
  rw [hs, List.getLast?_append_of_ne_nil _ hbehind] at hlast
  exact List.mem_of_getLast? hlast

theorem chomp_eq_of_length {s : Bytes} (h : s.length ≤ (chomp s).length) (hne : s ≠ []) : chomp s = s := by
  refine if_neg fun hlast => ?_
  have hpos := List.length_pos_of_ne_nil hne
  rw [chomp, if_pos hlast, List.length_dropLast] at h
  omega

theorem KeptUri.component {u : Bytes} (h : KeptUri prefixes u) :
    component prefixes (0x3c :: (cstr u ++ [0x3e])) = .terms [.resource u] := by
  rw [cstr_of_not_mem h.nul]
  cases hqualified : isQualified u with
  | true =>
    obtain ⟨hscheme, hbehind, -⟩ := isQualified_iff.1 hqualified
    obtain ⟨hline, hbnode, hundeclared⟩ := h.qualified hqualified
    have hchomp := chomp_of_behind hbehind hline
    have hcolon := mem_colon_of_behind hbehind
    have hnamed : Named (chomp u) := by
      rw [hchomp]
      exact ⟨hcolon, hscheme, hline⟩
    rw [component_qualified hqualified, h.comma, List.filterMap_cons, qualifiedTerm_named hnamed, hchomp, hbnode,
      hundeclared, createResource_eq hcolon h.nul]
    rfl
  | false =>
    obtain ⟨hne, hzero, hclosing, huntagged, hunquoted⟩ := h.plain hqualified
    have hbnode : bnodeLabel u = none := by
      by_contra hsome
      obtain ⟨l, hl⟩ := Option.ne_none_iff_exists'.1 hsome
      rw [isQualified_bnode hl] at hqualified
      cases hqualified
    have hterm : plainTerm u = some (.resource u) := by
      unfold plainTerm
      simp only [huntagged, Option.map_none, Option.getD_none, hunquoted, Option.bind_none, hbnode]
      rw [createResource, cstr_of_not_mem h.nul, if_neg (by simp [hne, hzero])]
    rw [component_plain hqualified hne hclosing, h.comma, List.filterMap_cons, hterm]
    rfl

theorem OwnName.component {u : Bytes} (h : OwnName prefixes u) :
    component prefixes (0x3c :: (cstr u ++ [0x3e])) = .terms [.resource u] := by
  obtain ⟨hqualified, f, ns, hf, hbnode, hns, hcreate⟩ := h
  have hmem : f ∈ (splitOred (cstr u)).filter fun f => (qualifiedTerm prefixes f).isSome := hf ▸ List.mem_singleton_self f
  have hsome : (qualifiedTerm prefixes f).isSome = true := (List.mem_filter.1 hmem).2
  obtain ⟨t, ht⟩ := Option.isSome_iff_exists.1 hsome
  rw [component_qualified hqualified, Component.terms.injEq, filterMap_singleton]
  refine ⟨f, hf, ?_⟩
  rw [qualifiedTerm_named (Named.of_some ht), hbnode, hns]
  exact hcreate

theorem component_uri_iff (u : Bytes) :
    component prefixes (0x3c :: (cstr u ++ [0x3e])) = .terms [.resource u] ↔ KeptUri prefixes u ∨ OwnName prefixes u := by
  refine ⟨fun h => ?_, fun h => h.elim KeptUri.component OwnName.component⟩
  have hcstr := length_cstr u
  cases hqualified : isQualified (cstr u) with
  | true =>
    rw [component_qualified hqualified, Component.terms.injEq, filterMap_singleton] at h
    obtain ⟨f, hf, hterm⟩ := h
    have hmem : f ∈ splitOred (cstr u) := (List.mem_filter.1 (hf ▸ List.mem_singleton_self f)).1
    obtain ⟨hbnode, ⟨ns, hns, hcreate⟩ | ⟨hundeclared, hu⟩⟩ := qualifiedTerm_resource hterm
    · exact Or.inr ⟨hqualified, f, ns, hf, hbnode, hns, hcreate⟩
    · have hfield := splitOred_length hmem
      have hchomp := length_chomp f
      have hback := length_cstr (chomp f)
      rw [← hu] at hback
      have hwhole : cstr u = u := cstr_eq_of_length (by omega)
      rw [hwhole] at hmem hqualified
      obtain ⟨rfl, hcomma⟩ := splitOred_whole hmem (by omega)
      obtain ⟨-, hbehind, -⟩ := isQualified_iff.1 hqualified
      have hne : f ≠ [] := List.ne_nil_of_mem (mem_colon_of_behind hbehind)
      have heq : chomp f = f := chomp_eq_of_length (by omega) hne
      have hnamed := Named.of_some hterm
      rw [heq] at hbnode hundeclared hnamed
      refine Or.inl ⟨hwhole ▸ not_mem_cstr f, hcomma, fun _ => ⟨hnamed.line, hbnode, hundeclared⟩, fun hfalse => ?_⟩
      rw [hqualified] at hfalse
      cases hfalse
  | false =>
    by_cases hplain : cstr u ≠ [] ∧ 0x3e ∉ cstr u
    · rw [component_plain hqualified hplain.1 hplain.2, Component.terms.injEq, filterMap_singleton] at h
      obtain ⟨f, hf, hterm⟩ := h
      have hmem : f ∈ splitOred (cstr u) := (List.mem_filter.1 (hf ▸ List.mem_singleton_self f)).1
      have hfield := splitOred_length hmem
      obtain ⟨hu, huntagged, hunquoted, hne, hzero⟩ := plainTerm_resource hterm (hfield.trans hcstr)
      have hback := length_cstr f
      rw [← hu] at hback
      have hwhole : cstr u = u := cstr_eq_of_length (by omega)
      rw [hwhole] at hmem hqualified hplain
      obtain ⟨rfl, hcomma⟩ := splitOred_whole hmem (by omega)
      refine Or.inl ⟨hwhole ▸ not_mem_cstr f, hcomma, fun htrue => ?_, fun _ =>
        ⟨hne, hzero, hplain.2, huntagged, hunquoted⟩⟩
      rw [hqualified] at htrue
      cases htrue
    · obtain ⟨content, lang, heq⟩ := component_neither prefixes hqualified hplain
      rw [heq, Component.terms.injEq] at h
      exact absurd h createLiteral_ne_resource

end RdfStore.Query
