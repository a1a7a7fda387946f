import RdfStore.Rdql.Expressions
import RdfStore.Rdql.Scans

/-!
# Leaves are read (`Var`, `URIOrQName` and `Literal` of `RDQL/Parser.pm`)

A leaf has white space, a closing parenthesis, a comma or the end of the query behind it.

    what stands for a leaf in the list is what the parser makes of it, or never is    (operandToken_leaf)
-/

namespace RdfStore.Rdql

open ByteMem Scan Tokens NTriples

/-! ## What stands behind a leaf -/

def EndsLeaf (s : Bytes) : Prop := ∀ a ∈ s.head?, a = 0x20 ∨ a = 0x29 ∨ a = 0x2c

theorem EndsLeaf.stops {s : Bytes} (h : EndsLeaf s) {p : UInt8 → Bool} (hspace : p 0x20 = false)
    (hclosing : p 0x29 = false) (hcomma : p 0x2c = false) : ∀ a ∈ s.head?, p a = false := by
  intro a ha
  rcases h a ha with rfl | rfl | rfl
  · exact hspace
  · exact hclosing
  · exact hcomma

theorem EndsLeaf.ne {s : Bytes} (h : EndsLeaf s) {c : UInt8} (hspace : c ≠ 0x20) (hclosing : c ≠ 0x29)
    (hcomma : c ≠ 0x2c) : ∀ a ∈ s.head?, a ≠ c := by
  intro a ha
  rcases h a ha with rfl | rfl | rfl
  · exact hspace.symm
  · exact hclosing.symm
  · exact hcomma.symm

theorem head_append {P : UInt8 → Prop} {x s : Bytes} (hx : ∀ a ∈ x.head?, P a) (hs : ∀ a ∈ s.head?, P a) :
    ∀ a ∈ (x ++ s).head?, P a := by
  cases x with
  | nil => exact hs
  | cons a x => exact hx

/-- The first of some elements. -/
theorem head_of_all {P : UInt8 → Prop} {x : Bytes} (hx : ∀ a ∈ x, P a) : ∀ a ∈ x.head?, P a :=
  fun a ha => hx a (List.mem_of_mem_head? ha)

/-- The first of some elements, of which there is one. -/
theorem head_append_of_ne_nil {P : UInt8 → Prop} {x : Bytes} (hne : x ≠ []) (hx : ∀ a ∈ x, P a) (s : Bytes) :
    ∀ a ∈ (x ++ s).head?, P a := by
  cases x with
  | nil => exact absurd rfl hne
  | cons a x => exact fun b hb => hx b (List.mem_of_mem_head? hb)

theorem dropWhile_of_head {p : UInt8 → Bool} {s : Bytes} (h : ∀ a ∈ s.head?, p a = false) : s.dropWhile p = s :=
  (takeWhile_append_stop (x := []) (fun _ ha => absurd ha List.not_mem_nil) h).2

theorem skipWhite_of_head {s : Bytes} (h : ∀ a ∈ s.head?, isWhite a = false) : skipWhite s = s := dropWhile_of_head h

/-! ## Numbers -/

/-- What begins no variable and no name in brackets. -/
def startsLiteral (a : UInt8) : Bool := (isNameChar a && a ≠ 0x24) || isQuote a || a = 0x25

theorem isDigit_facts {a : UInt8} (h : NTriples.isDigit a = true) :
    (a = 0x2b || a = 0x2d) = false ∧ (a = 0x65 || a = 0x45) = false ∧ isSuffix a = false ∧ isQuote a = false ∧
      a ≠ 0x25 ∧ a ≠ 0x2e ∧ a ≠ 0x3a ∧ isWhite a = false ∧ startsLiteral a = true := by
  refine ⟨?_, ?_, ?_, ?_, ?_, ?_, ?_, ?_, ?_⟩ <;>
    grind only [NTriples.isDigit, isSuffix, isQuote, isWhite, startsLiteral, isNameChar, isLabelChar, isLetter]

theorem isSuffix_facts {a : UInt8} (h : isSuffix a = true) :
    NTriples.isDigit a = false ∧ (a = 0x65 || a = 0x45) = false ∧ a ≠ 0x2e ∧ a ≠ 0x3a := by
  grind only [NTriples.isDigit, isSuffix]

section

variable {s : Bytes}

theorem chr_none {c : UInt8} (h : ∀ a ∈ s.head?, a ≠ c) : chr c s = none :=
  one_none fun a ha => decide_eq_false (h a ha)

theorem reads_chr (c : UInt8) (s : Bytes) : Reads (chr c) [c] s :=
  @reads_one UInt8 (fun a => decide (a = c)) c (decide_eq_true rfl) s

theorem scanExponent_none (h : ∀ a ∈ s.head?, (a = 0x65 || a = 0x45) = false) : scanExponent s = none :=
  seq_none (one_none h)

theorem reads_scanExponent {x : Exponent} (hx : x.WellFormed) (hs : ∀ a ∈ s.head?, NTriples.isDigit a = false) :
    Reads scanExponent x.text s := by
  have hdigits := reads_many1 hx.nonempty hx.digits hs
  have hhead : ∀ a ∈ (x.digits ++ s).head?, (a = 0x2b || a = 0x2d) = false :=
    head_append_of_ne_nil hx.nonempty (fun a ha => (isDigit_facts (hx.digits a ha)).1) s
  obtain ⟨sign, htext, hsign⟩ : ∃ sign, x.text = ([if x.capital then 0x45 else 0x65] : Bytes) ++ (sign ++ x.digits) ∧
      Reads (opt (one fun a => a = 0x2b || a = 0x2d)) sign (x.digits ++ s) := by
    unfold Exponent.text
    cases x.sign with
    | none => exact ⟨[], rfl, reads_opt_nil (one_none hhead)⟩
    | some b =>
      cases b with
      | true => exact ⟨[0x2d], rfl, (reads_one rfl _).opt⟩
      | false => exact ⟨[0x2b], rfl, (reads_one rfl _).opt⟩
  rw [htext]
  refine Reads.seq ?_ (Reads.seq hsign hdigits)
  cases x.capital <;> exact reads_one rfl _

/-- The suffix, if there is one. -/
theorem reads_suffix {suffix : Option UInt8} (h : ∀ a ∈ suffix, isSuffix a = true) (hs : EndsLeaf s) :
    Reads (opt (one isSuffix)) suffix.toList s := by
  cases suffix with
  | none => exact reads_opt_nil (one_none (hs.stops rfl rfl rfl))
  | some a => exact (reads_one (h a rfl) s).opt

theorem suffix_stops {suffix : Option UInt8} (h : ∀ a ∈ suffix, isSuffix a = true) (hs : EndsLeaf s) {p : UInt8 → Bool}
    (hp : ∀ a, isSuffix a = true → p a = false) (hspace : p 0x20 = false) (hclosing : p 0x29 = false)
    (hcomma : p 0x2c = false) : ∀ a ∈ (suffix.toList ++ s).head?, p a = false :=
  head_append (head_of_all fun a ha => hp a (h a (Option.mem_toList.1 ha))) (hs.stops hspace hclosing hcomma)

/-- The exponent, if there is one, with what is behind it. -/
theorem reads_exponent {x : Number} (hx : x.WellFormed) (hs : EndsLeaf s) :
    Reads (opt scanExponent) (x.exponent.elim [] Exponent.text) (x.suffix.toList ++ s) := by
  cases hexp : x.exponent with
  | none =>
    exact reads_opt_nil (scanExponent_none (suffix_stops hx.suffix hs (fun a ha => (isSuffix_facts ha).2.1) rfl rfl rfl))
  | some e =>
    exact (reads_scanExponent (hx.exponent e hexp)
      (suffix_stops hx.suffix hs (fun a ha => (isSuffix_facts ha).1) rfl rfl rfl)).opt

/-- Behind the digits. -/
theorem exponent_stops {x : Number} (hx : x.WellFormed) (hs : EndsLeaf s) {p : UInt8 → Bool}
    (hp : ∀ a, isSuffix a = true → p a = false) (hspace : p 0x20 = false) (hclosing : p 0x29 = false)
    (hcomma : p 0x2c = false) (he : p 0x65 = false) (he' : p 0x45 = false) :
    ∀ a ∈ (x.exponent.elim [] Exponent.text ++ (x.suffix.toList ++ s)).head?, p a = false := by
  refine head_append ?_ (suffix_stops hx.suffix hs hp hspace hclosing hcomma)
  cases x.exponent with
  | none => exact fun a ha => by cases ha
  | some e =>
    intro a ha
    obtain rfl : (if e.capital then 0x45 else 0x65) = a := Option.some.inj ha
    cases e.capital with
    | true => exact he'
    | false => exact he

/-- A number that is more than digits. -/
theorem reads_scanDecimal {x : Number} (hx : x.WellFormed) (hs : EndsLeaf s)
    (hmore : x.fraction ≠ none ∨ x.exponent ≠ none ∨ x.suffix ≠ none) : Reads scanDecimal x.text s := by
  have hdigit : ∀ a, isSuffix a = true → NTriples.isDigit a = false := fun a ha => (isSuffix_facts ha).1
  have hend := (reads_exponent hx hs).seq (reads_suffix hx.suffix hs)
  have hbehind := exponent_stops hx hs hdigit rfl rfl rfl rfl rfl
  rw [← List.append_assoc] at hbehind
  unfold Reads scanDecimal
  cases hfraction : x.fraction with
  | some ds =>
    have hds := hx.fraction ds hfraction
    have htext : x.text = x.integer ++ ([0x2e] ++ (ds ++ (x.exponent.elim [] Exponent.text ++ x.suffix.toList))) := by
      rw [Number.text, hfraction]
      rfl
    by_cases hint : x.integer = []
    · have hne : ds ≠ [] := by
        obtain h | ⟨ds', hds', hne⟩ := hx.nonempty
        · exact absurd hint h
        · rw [hfraction] at hds'
          cases hds'
          exact hne
      rw [htext, hint, List.nil_append, seq_none (many1_none fun a ha => ?_)]
      · rw [(reads_chr 0x2e _).seq ((reads_many1 hne hds hbehind).seq hend)]
        rfl
      · obtain rfl : 0x2e = a := Option.some.inj ha
        rfl
    · rw [htext, (reads_many1 hint hx.integer fun a ha => ?_).seq ((reads_chr 0x2e _).seq
        ((reads_many hds hbehind).seq hend))]
      · rfl
      · obtain rfl : 0x2e = a := Option.some.inj ha
        rfl
  | none =>
    have hint : x.integer ≠ [] := by
      obtain h | ⟨ds', hds', -⟩ := hx.nonempty
      · exact h
      · rw [hfraction] at hds'
        cases hds'
    have htext : x.text = x.integer ++ (x.exponent.elim [] Exponent.text ++ x.suffix.toList) := by
      rw [Number.text, hfraction]
      rfl
    have hreads := reads_many1 hint hx.integer hbehind
    have hdot : ∀ a ∈ ((x.exponent.elim [] Exponent.text ++ x.suffix.toList) ++ s).head?, a ≠ 0x2e := by
      have hno := exponent_stops hx hs (p := fun a => decide (a = 0x2e))
        (fun a ha => decide_eq_false (isSuffix_facts ha).2.2.1) rfl rfl rfl rfl rfl
      rw [← List.append_assoc] at hno
      exact fun a ha => of_decide_eq_false (hno a ha)
    rw [htext, List.append_assoc, hreads.seq_none (seq_none (chr_none hdot)),
      seq_none (chr_none (head_append_of_ne_nil hint (fun a ha => (isDigit_facts (hx.integer a ha)).2.2.2.2.2.1) _)),
      ← List.append_assoc]
    have hsuffix := reads_suffix hx.suffix hs
    cases hexp : x.exponent with
    | some e =>
      rw [hexp] at hreads
      rw [hreads.seq ((reads_scanExponent (hx.exponent e hexp) (suffix_stops hx.suffix hs hdigit rfl rfl rfl)).seq hsuffix)]
      rfl
    | none =>
      rw [hexp] at hreads
      obtain ⟨f, hf⟩ := Option.ne_none_iff_exists'.1 ((hmore.resolve_left (not_not.2 hfraction)).resolve_left
        (not_not.2 hexp))
      have hno : scanExponent (x.suffix.toList ++ s) = none :=
        scanExponent_none (suffix_stops hx.suffix hs (fun a ha => (isSuffix_facts ha).2.1) rfl rfl rfl)
      have hone : Reads (one isSuffix) x.suffix.toList s := by
        rw [hf]
        exact reads_one (hx.suffix f hf) s
      have hlast := hreads.seq ((reads_opt_nil hno).seq hone)
      simp only [Option.elim_none, List.nil_append] at hreads hlast ⊢
      rw [hlast, List.append_assoc, hreads.seq_none (seq_none hno)]
      rfl

theorem scanDecimal_none_of_head (hdigit : ∀ a ∈ s.head?, NTriples.isDigit a = false) (hdot : ∀ a ∈ s.head?, a ≠ 0x2e) :
    scanDecimal s = none := by
  have hno : many1 NTriples.isDigit s = none := many1_none hdigit
  unfold scanDecimal
  rw [seq_none hno, seq_none (chr_none hdot), seq_none hno, seq_none hno]
  rfl

/-- Digits are no number with a full stop, an exponent or a suffix. -/
theorem scanDecimal_none {ds : Bytes} (hne : ds ≠ []) (hds : ∀ a ∈ ds, NTriples.isDigit a = true)
    (h1 : ∀ a ∈ s.head?, NTriples.isDigit a = false) (h2 : ∀ a ∈ s.head?, (a = 0x65 || a = 0x45) = false)
    (h3 : ∀ a ∈ s.head?, isSuffix a = false) (h4 : ∀ a ∈ s.head?, a ≠ 0x2e) : scanDecimal (ds ++ s) = none := by
  have hdot : ∀ a ∈ (ds ++ s).head?, a ≠ 0x2e :=
    head_append_of_ne_nil hne (fun a ha => (isDigit_facts (hds a ha)).2.2.2.2.2.1) s
  have hreads := reads_many1 hne hds h1
  unfold scanDecimal
  rw [hreads.seq_none (seq_none (chr_none h4)), seq_none (chr_none hdot),
    hreads.seq_none (seq_none (scanExponent_none h2)),
    hreads.seq_none ((reads_opt_nil (scanExponent_none h2)).seq_none (one_none h3))]
  rfl

/-! ## Strings -/

theorem scanString_quote {q : UInt8} (hq : isQuote q = true) (z : Bytes) : scanString (q :: z) = ([], q :: z) := by
  have hplain : isPlain q = false := by
    unfold isPlain
    rw [hq]
    rfl
  have hback : q ≠ 0x5c := by
    rintro rfl
    exact absurd hq (by decide)
  cases z with
  | nil => rw [scanString, if_neg (Bool.eq_false_iff.1 hplain)]
  | cons b z => rw [scanString, if_neg (Bool.eq_false_iff.1 hplain), if_neg fun h => hback h.1]

theorem scanString_plain {a : UInt8} (ha : isPlain a = true) (z : Bytes) :
    scanString (a :: z) = (a :: (scanString z).1, (scanString z).2) := by
  cases z with
  | nil =>
    rw [scanString]
    exact if_pos ha
  | cons b z => rw [scanString, if_pos ha]

theorem scanString_escape {a : UInt8} (ha : isEscape a = true) (z : Bytes) :
    scanString (0x5c :: a :: z) = (0x5c :: a :: (scanString z).1, (scanString z).2) := by
  rw [scanString, if_neg (by decide), if_pos ⟨rfl, ha⟩]

/-- A plain string is taken up to the mark behind it. -/
theorem scanString_of_plain {x : Bytes} (hx : IsPlainString x) {q : UInt8} (hq : isQuote q = true) (z : Bytes) :
    scanString (x ++ q :: z) = (x, q :: z) := by
  induction hx with
  | nil => exact scanString_quote hq z
  | character ha hs ih => rw [List.cons_append, scanString_plain ha, ih]
  | escape ha hs ih => rw [List.cons_append, List.cons_append, scanString_escape ha, ih]

/-- Any other is cut off at a mark of the other kind. -/
theorem scanString_of_not_plain {q : UInt8} {x : Bytes} (hx : IsString q x) (hno : ¬ IsPlainString x) :
    ∃ u q' w, x = u ++ q' :: w ∧ isQuote q' = true ∧ ∀ z, scanString (x ++ z) = (u, q' :: (w ++ z)) := by
  induction hx with
  | nil => exact absurd .nil hno
  | @character a s hmark hbackslash hlf hcr hs ih =>
    by_cases ha : isQuote a = true
    · exact ⟨[], a, s, rfl, ha, fun z => scanString_quote ha (s ++ z)⟩
    · have hplain : isPlain a = true := by
        simp [isPlain, ha, hbackslash, hlf, hcr]
      obtain ⟨u, q', w, rfl, hq', hscan⟩ := ih fun hs => hno (.character hplain hs)
      exact ⟨a :: u, q', w, rfl, hq', fun z => by rw [List.cons_append, scanString_plain hplain, hscan]⟩
  | @escape a s ha hs ih =>
    obtain ⟨u, q', w, rfl, hq', hscan⟩ := ih fun hs => hno (.escape ha hs)
    exact ⟨0x5c :: a :: u, q', w, rfl, hq', fun z => by
      rw [List.cons_append, List.cons_append, scanString_escape ha, hscan]⟩

/-- The language, if there is one. -/
theorem reads_scanTag {lang : Option (Bytes × Option Bytes)} (hl : ∀ l ∈ lang, l.1 ≠ [] ∧ (∀ a ∈ l.1, isLangChar a = true) ∧
      ∀ part ∈ l.2, part ≠ [] ∧ ∀ a ∈ part, isLangChar a = true)
    (hs : ∀ a ∈ s.head?, isLangChar a = false ∧ a ≠ 0x2d ∧ a ≠ 0x40) :
    Reads (opt scanTag) (lang.elim [] tagText) s := by
  cases lang with
  | none => exact reads_opt_nil (seq_none (chr_none fun a ha => (hs a ha).2.2))
  | some l =>
    obtain ⟨hne, hchars, hpart⟩ := hl l rfl
    refine Reads.opt (x := [0x40] ++ (l.1 ++ l.2.elim [] fun part => 0x2d :: part)) ((reads_chr 0x40 _).seq ?_)
    unfold Reads
    rw [scanLang_eq]
    cases hl2 : l.2 with
    | none =>
      obtain ⟨htake, hdrop⟩ := takeWhile_append_stop hchars fun a ha => (hs a ha).1
      rw [Option.elim_none, List.append_nil, htake, hdrop, if_neg hne]
      cases s with
      | nil => rfl
      | cons b s => exact if_neg fun h => (hs b rfl).2.1 h.1
    | some part =>
      obtain ⟨hne', hchars'⟩ := hpart part hl2
      obtain ⟨htake, hdrop⟩ := takeWhile_append_stop (s := 0x2d :: (part ++ s)) hchars fun a ha => by
        obtain rfl : 0x2d = a := Option.some.inj ha
        rfl
      obtain ⟨htake', hdrop'⟩ := takeWhile_append_stop hchars' fun a ha => (hs a ha).1
      rw [Option.elim_some, List.append_assoc, List.cons_append, htake, hdrop, if_neg hne]
      simp only
      rw [if_pos ⟨trivial, by rw [htake']; exact hne'⟩, htake', hdrop']

/-- A per cent sign, if there is one. -/
theorem reads_optional (c : UInt8) (sign : Bool) {z : Bytes} (hz : ∀ a ∈ z.head?, a ≠ c) :
    Reads (opt (chr c)) (if sign then [c] else []) z := by
  cases sign with
  | true => exact (reads_chr c z).opt
  | false => exact reads_opt_nil (chr_none hz)

theorem QuotedString.text_append (x : QuotedString) (z : Bytes) :
    x.text ++ z = (if x.before then [0x25] else []) ++ ([x.mark] ++ (x.inside ++ ([x.mark] ++ (x.lang.elim [] tagText ++
      ((if x.behind then [0x25] else []) ++ z))))) := by
  simp only [QuotedString.text, List.append_assoc, List.cons_append, List.nil_append]

theorem isQuote_facts {q : UInt8} (hq : isQuote q = true) :
    q ≠ 0x25 ∧ q ≠ 0x2e ∧ NTriples.isDigit q = false ∧ isNameChar q = false ∧ q ≠ 0x3a ∧ isWhite q = false := by
  refine ⟨?_, ?_, ?_, ?_, ?_, ?_⟩ <;>
    grind only [NTriples.isDigit, isQuote, isWhite, isNameChar, isLabelChar, isLetter]

/-- A plain string is read as it is written. -/
theorem reads_scanQuotedString {x : QuotedString} (hx : x.WellFormed) (hplain : IsPlainString x.inside)
    (hs : EndsLeaf s) :
    Reads scanQuotedString x.text s := by
  have hmark := hx.mark
  have hpercent := reads_optional 0x25 x.behind (hs.ne (c := 0x25) (by decide) (by decide) (by decide))
  have hbehind : ∀ a ∈ ((if x.behind then [0x25] else []) ++ s).head?, isLangChar a = false ∧ a ≠ 0x2d ∧ a ≠ 0x40 := by
    refine head_append ?_ fun a ha => ⟨hs.stops rfl rfl rfl a ha, hs.ne (by decide) (by decide) (by decide) a ha,
      hs.ne (by decide) (by decide) (by decide) a ha⟩
    intro a ha
    cases hb : x.behind with
    | false => rw [hb] at ha; cases ha
    | true =>
      rw [hb] at ha
      obtain rfl : 0x25 = a := Option.some.inj ha
      decide
  have hend := (reads_one hmark _).seq ((reads_scanTag hx.lang hbehind).seq hpercent)
  have hinside : Reads (fun s => some (scanString s)) x.inside ([x.mark] ++ (x.lang.elim [] tagText ++
      (if x.behind then [0x25] else [])) ++ s) := congrArg some (scanString_of_plain hplain hmark _)
  have hopening : ∀ a ∈ ([x.mark] ++ (x.inside ++ ([x.mark] ++ (x.lang.elim [] tagText ++
      (if x.behind then [0x25] else [])))) ++ s).head?, a ≠ 0x25 := by
    intro a ha
    obtain rfl : x.mark = a := Option.some.inj ha
    exact (isQuote_facts hmark).1
  exact (reads_optional 0x25 x.before hopening).seq ((reads_one hmark _).seq (hinside.seq hend))

/-- What may stand behind a mark has no mark in it. -/
theorem exists_scanTag (z : Bytes) :
    ∃ v r, seq (opt scanTag) (opt (chr 0x25)) z = some (v, r) ∧ ∀ a ∈ v, isQuote a = false := by
  have hchr : ∀ c, isQuote c = false → ∀ z : Bytes, ∀ t, chr c z = some t → ∀ a ∈ t.1, isQuote a = false := by
    intro c hc z t h a ha
    rwa [of_decide_eq_true (of_mem_one h a ha)]
  refine ⟨_, _, rfl, fun a ha => ?_⟩
  rcases List.mem_append.1 ha with ha | ha
  · cases htag : scanTag z with
    | none => rw [htag] at ha; cases ha
    | some t =>
      obtain ⟨u, hu, hrest⟩ := Option.bind_eq_some_iff.1 htag
      obtain ⟨l, hl, rfl⟩ := Option.map_eq_some_iff.1 hrest
      rw [htag] at ha
      rcases List.mem_append.1 ha with ha | ha
      · exact hchr 0x40 (by decide) z u hu a ha
      · exact (tagChar_plain ((scanLang_chars hl).2 a ha)).2
  · generalize ((scanTag z).getD ([], z)).2 = z' at ha
    cases hsign : chr 0x25 z' with
    | none => rw [hsign] at ha; cases ha
    | some t =>
      rw [hsign] at ha
      exact hchr 0x25 (by decide) z' t hsign a ha

/-- Any other string is read up to a mark of the other kind. -/
theorem scanQuotedString_of_not_plain {x : QuotedString} (hx : x.WellFormed) (hno : ¬ IsPlainString x.inside)
    (s : Bytes) :
    ∃ y r, scanQuotedString (x.text ++ s) = some (y, r) ∧ y ≠ x.text := by
  have hmark := hx.mark
  obtain ⟨u, q', w, hinside, hq', hscan⟩ := scanString_of_not_plain hx.inside hno
  obtain ⟨v, r, hv, hclean⟩ := exists_scanTag (w ++ ([x.mark] ++ (x.lang.elim [] tagText ++
    ((if x.behind then [0x25] else []) ++ s))))
  refine ⟨(if x.before then [0x25] else []) ++ ([x.mark] ++ (u ++ ([q'] ++ v))), r, ?_, fun heq => ?_⟩
  · have hopening : ∀ a ∈ ([x.mark] ++ (x.inside ++ ([x.mark] ++ (x.lang.elim [] tagText ++
        ((if x.behind then [0x25] else []) ++ s))))).head?, a ≠ 0x25 := by
      intro a ha
      obtain rfl : x.mark = a := Option.some.inj ha
      exact (isQuote_facts hmark).1
    have hstring : ∀ (q : Scanner UInt8) (z : Bytes), seq (fun s => some (scanString s)) q (x.inside ++ z) =
        (q ([q'] ++ (w ++ z))).map fun t => (u ++ t.1, t.2) := by
      intro q z
      show ((some (scanString (x.inside ++ z))).bind _) = _
      rw [hscan, Option.bind_some]
      rfl
    rw [x.text_append, scanQuotedString, (reads_optional 0x25 x.before hopening).seq_eq,
      (reads_one hmark _).seq_eq, hstring,
      (reads_one hq' _).seq_eq, hv]
    rfl
  · have htext := x.text_append []
    rw [List.append_nil, hinside] at htext
    rw [htext, List.append_cancel_left_eq, List.append_cancel_left_eq, List.append_assoc, List.append_cancel_left_eq,
      List.cons_append, List.cons_append, List.nil_append, List.cons.injEq] at heq
    have hquote := hclean x.mark (by rw [heq.2]; simp)
    rw [hmark] at hquote
    cases hquote

/-! ## Names -/

theorem isNameChar_facts {a : UInt8} (h : isNameChar a = true) : isWhite a = false ∧ a ≠ 0x3a ∧ a ≠ 0x3f ∧ a ≠ 0x3c := by
  grind only [NTriples.isDigit, isWhite, isNameChar, isLabelChar, isLetter]

/-- What is behind the characters of a name is no colon. -/
theorem dropWhile_ne_colon {t : Bytes} (ht : 0x3a ∉ t) (hs : EndsLeaf s) :
    ∀ a ∈ ((t ++ s).dropWhile isNameChar).head?, a ≠ 0x3a := by
  induction t with
  | nil =>
    rw [List.nil_append, dropWhile_of_head (hs.stops rfl rfl rfl)]
    exact hs.ne (by decide) (by decide) (by decide)
  | cons b t ih =>
    rw [List.cons_append, List.dropWhile_cons]
    split
    · exact ih fun h => ht (List.mem_cons_of_mem b h)
    · rintro a ha rfl
      obtain rfl : b = 0x3a := Option.some.inj ha
      exact ht List.mem_cons_self

theorem scanQName_eq_none (h : ∀ a ∈ (s.dropWhile isNameChar).head?, a ≠ 0x3a) : scanQName s = none := by
  unfold scanQName
  cases hdrop : s.dropWhile isNameChar with
  | nil => rfl
  | cons a t => exact if_neg fun h0 => h a (by rw [hdrop]; rfl) h0.1

/-- What begins with no character of a name, and no colon. -/
theorem scanQName_none_of_head (hname : ∀ a ∈ s.head?, isNameChar a = false) (hcolon : ∀ a ∈ s.head?, a ≠ 0x3a) :
    scanQName s = none :=
  scanQName_eq_none (by rwa [dropWhile_of_head hname])

theorem scanQName_name {name localName : Bytes} (hname : ∀ a ∈ name, isNameChar a = true) (hne : localName ≠ [])
    (hlocal : ∀ a ∈ localName, isNameChar a = true) (hs : EndsLeaf s) :
    scanQName (name ++ 0x3a :: localName ++ s) = some ((name, localName), s) := by
  obtain ⟨htake, hdrop⟩ := takeWhile_append_stop (s := 0x3a :: (localName ++ s)) hname fun a ha => by
    obtain rfl : 0x3a = a := Option.some.inj ha
    rfl
  obtain ⟨htake', hdrop'⟩ := takeWhile_append_stop hlocal (hs.stops rfl rfl rfl)
  rw [List.append_assoc, List.cons_append]
  unfold scanQName
  rw [hdrop]
  simp only
  rw [if_pos ⟨trivial, by rw [htake']; exact hne⟩, htake, htake', hdrop']

/-! ## Leaves -/

variable {prefixes : Prefixes}

/-- What begins a leaf: no white space, no sign of a comment and no operator but a per cent sign. -/
def startsLeaf (a : UInt8) : Bool := isNameChar a || a = 0x3f || a = 0x3a || isQuote a || a = 0x25

theorem startsLeaf_facts {a : UInt8} (h : startsLeaf a = true) :
    isWhite a = false ∧ a ≠ 0x23 ∧ a ≠ 0x2f ∧ a ≠ 0x28 ∧ a ≠ 0x7e ∧ a ≠ 0x21 ∧ a ≠ 0x3c := by
  refine ⟨?_, ?_, ?_, ?_, ?_, ?_, ?_⟩ <;>
    grind only [startsLeaf, NTriples.isDigit, isQuote, isWhite, isNameChar, isLabelChar, isLetter]

theorem isDigit_name {a : UInt8} (h : NTriples.isDigit a = true) : isNameChar a = true := by
  simp only [isNameChar, isLabelChar, h, Bool.or_true, Bool.true_or]

theorem Number.head {x : Number} (hx : x.WellFormed) : ∀ a ∈ x.text.head?, NTriples.isDigit a = true ∨ a = 0x2e := by
  unfold Number.text
  obtain hne | ⟨ds, hds, -⟩ := hx.nonempty
  · exact head_append_of_ne_nil hne (fun a ha => Or.inl (hx.integer a ha)) _
  · rw [hds]
    refine head_append (head_of_all fun a ha => Or.inl (hx.integer a ha)) ?_
    rintro a ha
    exact Or.inr (Option.some.inj ha).symm

theorem Number.text_ne_nil {x : Number} (hx : x.WellFormed) : x.text ≠ [] := by
  unfold Number.text
  obtain hne | ⟨ds, hds, -⟩ := hx.nonempty
  · exact List.append_ne_nil_of_left_ne_nil hne _
  · rw [hds]
    exact List.append_ne_nil_of_right_ne_nil _ (List.cons_ne_nil _ _)

theorem QuotedString.head {x : QuotedString} (hx : x.WellFormed) : ∀ a ∈ x.text.head?, isQuote a = true ∨ a = 0x25 := by
  intro a ha
  unfold QuotedString.text at ha
  cases hb : x.before with
  | true =>
    rw [hb] at ha
    exact Or.inr (Option.some.inj ha).symm
  | false =>
    rw [hb] at ha
    obtain rfl : x.mark = a := Option.some.inj ha
    exact Or.inl hx.mark

theorem QuotedString.text_ne_nil (x : QuotedString) : x.text ≠ [] :=
  List.append_ne_nil_of_right_ne_nil _ (List.cons_ne_nil _ _)

theorem startsLiteral_facts {a : UInt8} (h : startsLiteral a = true) :
    isWhite a = false ∧ ¬ (a = 0x3f ∨ a = 0x24) ∧ a ≠ 0x3c := by
  grind only [startsLiteral, NTriples.isDigit, isQuote, isWhite, isNameChar, isLabelChar, isLetter]

theorem operandToken_literal {t : Bytes} (hhead : ∀ a ∈ t.head?, startsLiteral a = true) (hno : scanQName t = none) :
    operandToken prefixes t = some (scanLiteral t) := by
  have hwhite : skipWhite t = t := skipWhite_of_head fun a ha => (startsLiteral_facts (hhead a ha)).1
  have hvar : scanVar t = none := by
    unfold scanVar
    rw [hwhite]
    cases t with
    | nil => rfl
    | cons a t => exact if_neg fun h => (startsLiteral_facts (hhead a rfl)).2.1 h.1
  have huri : scanUriref t = none := by
    cases t with
    | nil => rfl
    | cons a t => exact if_neg fun h => (startsLiteral_facts (hhead a rfl)).2.2 h.1
  have hname : scanURIOrQName prefixes t = some none := by
    unfold scanURIOrQName
    rw [hwhite, huri, hno]
  unfold operandToken
  rw [hvar, hname]
  rfl

theorem operandToken_of_literalToken {t y r : Bytes} (hhead : ∀ a ∈ t.head?, startsLiteral a = true)
    (hno : scanQName t = none) (h : literalToken t = some (y, r)) :
    operandToken prefixes t = some (some (y, skipWhite r)) := by
  have hwhite : skipWhite t = t := skipWhite_of_head fun a ha => (startsLiteral_facts (hhead a ha)).1
  rw [operandToken_literal hhead hno, scanLiteral_eq, padded, hwhite, h]
  rfl

/-- What a number is written with. -/
def isNumberChar (a : UInt8) : Bool :=
  NTriples.isDigit a || a = 0x2e || a = 0x65 || a = 0x45 || a = 0x2b || a = 0x2d || isSuffix a

theorem Number.not_mem {x : Number} (hx : x.WellFormed) {c : UInt8} (hc : isNumberChar c = false) : c ∉ x.text := by
  simp only [isNumberChar, Bool.or_eq_false_iff, decide_eq_false_iff_not] at hc
  obtain ⟨⟨⟨⟨⟨⟨hdigit, hdot⟩, hsmall⟩, hcapital⟩, hplus⟩, hminus⟩, hsuffix⟩ := hc
  have hdigits : ∀ {ds : Bytes}, (∀ a ∈ ds, NTriples.isDigit a = true) → c ∉ ds :=
    fun hds h => Bool.false_ne_true (hdigit.symm.trans (hds c h))
  unfold Number.text
  rw [List.mem_append, List.mem_append, List.mem_append, not_or, not_or, not_or]
  refine ⟨hdigits hx.integer, ?_, ?_,
    fun h => Bool.false_ne_true (hsuffix.symm.trans (hx.suffix c (Option.mem_toList.1 h)))⟩
  · cases hf : x.fraction with
    | none => exact List.not_mem_nil
    | some ds => exact List.not_mem_cons_of_ne_of_not_mem hdot (hdigits (hx.fraction ds hf))
  · cases he : x.exponent with
    | none => exact List.not_mem_nil
    | some e =>
      have hwf := hx.exponent e he
      show c ∉ (if e.capital then 0x45 else 0x65) :: _
      refine List.not_mem_cons_of_ne_of_not_mem ?_ ?_
      · cases e.capital with
        | true => exact hcapital
        | false => exact hsmall
      · rw [List.mem_append, not_or]
        refine ⟨?_, hdigits hwf.digits⟩
        cases e.sign with
        | none => exact List.not_mem_nil
        | some b =>
          cases b with
          | true => exact fun h => hminus (List.mem_singleton.1 h)
          | false => exact fun h => hplus (List.mem_singleton.1 h)

theorem scanQuotedString_none (h : ∀ a ∈ s.head?, a ≠ 0x25 ∧ isQuote a = false) : scanQuotedString s = none :=
  (reads_opt_nil (chr_none fun a ha => (h a ha).1)).seq_none (seq_none (one_none fun a ha => (h a ha).2))

theorem literalToken_of_decimal {t : Bytes × Bytes} (h : scanDecimal s = some t) : literalToken s = some t := by
  unfold literalToken
  rw [h]
  rfl

theorem literalToken_of_string {t : Bytes × Bytes} (hno : scanDecimal s = none) (h : scanQuotedString s = some t) :
    literalToken s = some t := by
  unfold literalToken
  rw [hno, h]
  rfl

theorem literalToken_of_integer {t : Bytes × Bytes} (hno : scanDecimal s = none) (hno' : scanQuotedString s = none)
    (h : scanInteger s = some t) : literalToken s = some t := by
  unfold literalToken
  rw [hno, hno', h]
  rfl

/-- A number is read as it is written. -/
theorem operandToken_number {x : Number} (hx : x.WellFormed) (hs : EndsLeaf s) :
    operandToken prefixes (x.text ++ s) = some (some (x.text, skipWhite s)) := by
  have hhead : ∀ a ∈ (x.text ++ s).head?, NTriples.isDigit a = true ∨ a = 0x2e := by
    obtain ⟨a, t, ht⟩ := List.exists_cons_of_ne_nil (Number.text_ne_nil hx)
    have hfirst := Number.head hx
    rw [ht] at hfirst ⊢
    exact hfirst
  refine operandToken_of_literalToken (fun a ha => ?_)
    (scanQName_eq_none (dropWhile_ne_colon (Number.not_mem hx rfl) hs)) ?_
  · rcases hhead a ha with h | rfl
    · exact (isDigit_facts h).2.2.2.2.2.2.2.2
    · decide
  by_cases hmore : x.fraction ≠ none ∨ x.exponent ≠ none ∨ x.suffix ≠ none
  · exact literalToken_of_decimal (reads_scanDecimal hx hs hmore)
  · push Not at hmore
    obtain ⟨hfraction, hexponent, hsuffix⟩ := hmore
    have htext : x.text = x.integer := by
      simp only [Number.text, hfraction, hexponent, hsuffix, Option.elim_none, Option.toList_none, List.append_nil]
    have hne : x.integer ≠ [] := htext ▸ Number.text_ne_nil hx
    rw [htext]
    refine literalToken_of_integer (scanDecimal_none hne hx.integer (hs.stops rfl rfl rfl) (hs.stops rfl rfl rfl)
      (hs.stops rfl rfl rfl)
      (hs.ne (by decide) (by decide) (by decide))) (scanQuotedString_none ?_) (reads_many1 hne hx.integer (hs.stops rfl rfl rfl))
    exact head_append_of_ne_nil hne (fun a ha => ⟨(isDigit_facts (hx.integer a ha)).2.2.2.2.1,
      (isDigit_facts (hx.integer a ha)).2.2.2.1⟩) s

/-- Of a number in hexadecimal only the zero is read. -/
theorem operandToken_hex (capital : Bool) {digits : Bytes} (hdigits : ∀ a ∈ digits, isHex a = true) (hs : EndsLeaf s) :
    ∃ r, operandToken prefixes ((Leaf.hex capital digits).text ++ s) = some (some ([0x30], r)) := by
  have hx : ∀ a ∈ ((if capital then 0x58 else 0x78) :: (digits ++ s)).head?, a = 0x58 ∨ a = 0x78 := by
    intro a ha
    cases capital <;> cases ha
    · exact Or.inr rfl
    · exact Or.inl rfl
  have hcolon : 0x3a ∉ (Leaf.hex capital digits).text := by
    intro h
    rcases List.mem_cons.1 h with h | h
    · cases h
    rcases List.mem_cons.1 h with h | h
    · cases capital <;> cases h
    · exact absurd (hdigits 0x3a h) (by decide)
  refine ⟨_, operandToken_of_literalToken (fun a ha => ?_) (scanQName_eq_none (dropWhile_ne_colon hcolon hs))
    (r := (if capital then 0x58 else 0x78) :: (digits ++ s)) ?_⟩
  · obtain rfl : 0x30 = a := Option.some.inj ha
    decide
  have hstop : ∀ {p : UInt8 → Bool}, p 0x58 = false → p 0x78 = false →
      ∀ a ∈ ((if capital then 0x58 else 0x78) :: (digits ++ s)).head?, p a = false := by
    intro p h1 h2 a ha
    rcases hx a ha with rfl | rfl
    · exact h1
    · exact h2
  have hzero : ∀ a ∈ [(0x30 : UInt8)], NTriples.isDigit a = true := fun a ha => by
    rw [List.mem_singleton.1 ha]
    rfl
  show literalToken ([0x30] ++ ((if capital then 0x58 else 0x78) :: (digits ++ s))) = _
  refine literalToken_of_integer
    (scanDecimal_none (by decide) hzero (hstop rfl rfl) (hstop rfl rfl) (hstop rfl rfl) fun a ha => ?_)
    (scanQuotedString_none fun a ha => ?_) (reads_many1 (by decide) hzero (hstop rfl rfl))
  · rcases hx a ha with rfl | rfl <;> decide
  · obtain rfl : 0x30 = a := Option.some.inj ha
    decide

theorem scanWord_self (word s : Bytes) : scanWord word (word ++ s) = some (word, s) := by
  unfold scanWord
  rw [if_pos (List.isPrefixOf_iff_prefix.2 (List.prefix_append word s)), List.drop_left]

/-- What begins a word. -/
structure StartsWord (a : UInt8) : Prop where
  digit : NTriples.isDigit a = false
  dot : a ≠ 0x2e
  quote : a ≠ 0x25 ∧ isQuote a = false

/-- None of the other expressions fits a word. -/
theorem literalToken_of_word {a : UInt8} (ha : StartsWord a) (t : Bytes) :
    literalToken (a :: t) = (scanWord (ascii "true") (a :: t) <|> scanWord (ascii "false") (a :: t) <|>
      scanWord (ascii "null") (a :: t)) := by
  have hhead : ∀ {P : UInt8 → Prop}, P a → ∀ b ∈ (a :: t).head?, P b := by
    intro P hP b hb
    obtain rfl : a = b := Option.some.inj hb
    exact hP
  have hdecimal : scanDecimal (a :: t) = none := scanDecimal_none_of_head (hhead ha.digit) (hhead ha.dot)
  have hquoted : scanQuotedString (a :: t) = none := scanQuotedString_none (hhead ha.quote)
  have hinteger : scanInteger (a :: t) = none := many1_none (hhead ha.digit)
  have hhex : scanHex (a :: t) = none := by
    refine seq_none (chr_none (hhead ?_))
    rintro rfl
    exact absurd ha.digit (by decide)
  unfold literalToken
  rw [hdecimal, hquoted, hinteger, hhex]
  rfl

/-- A word is read in the case in which it is written. -/
theorem operandToken_word {word : Bytes} (hword : word = ascii "true" ∨ word = ascii "false" ∨ word = ascii "null")
    (hs : EndsLeaf s) : operandToken prefixes (word ++ s) = some (some (word, skipWhite s)) := by
  have hcolon : 0x3a ∉ word := by
    rcases hword with rfl | rfl | rfl <;> decide
  have hchars : ∀ a ∈ word, startsLiteral a = true := by
    rcases hword with rfl | rfl | rfl <;> exact forall_mem_of_all (by decide +kernel)
  have hne : word ≠ [] := by
    rcases hword with rfl | rfl | rfl <;> decide
  refine operandToken_of_literalToken (head_append_of_ne_nil hne hchars s)
    (scanQName_eq_none (dropWhile_ne_colon hcolon hs)) ?_
  rcases hword with rfl | rfl | rfl
  · refine (literalToken_of_word (a := 0x74) ⟨by decide, by decide, by decide⟩ _).trans ?_
    exact congrArg (· <|> _) (scanWord_self (ascii "true") s)
  · refine (literalToken_of_word (a := 0x66) ⟨by decide, by decide, by decide⟩ _).trans ?_
    exact congrArg (· <|> scanWord (ascii "null") (ascii "false" ++ s)) (scanWord_self (ascii "false") s)
  · refine (literalToken_of_word (a := 0x6e) ⟨by decide, by decide, by decide⟩ _).trans ?_
    exact scanWord_self (ascii "null") s

/-- A string is read as it is written, or up to a mark of the other kind. -/
theorem operandToken_string {x : QuotedString} (hx : x.WellFormed) (hs : EndsLeaf s) :
    ∃ y r, operandToken prefixes (x.text ++ s) = some (some (y, skipWhite r)) ∧
      (IsPlainString x.inside → y = x.text ∧ r = s) ∧ (¬ IsPlainString x.inside → y ≠ x.text) := by
  have hhead : ∀ a ∈ (x.text ++ s).head?, isQuote a = true ∨ a = 0x25 := by
    obtain ⟨a, t, ht⟩ := List.exists_cons_of_ne_nil x.text_ne_nil
    have hfirst := QuotedString.head hx
    rw [ht] at hfirst ⊢
    exact hfirst
  have hfacts : ∀ a ∈ (x.text ++ s).head?, startsLiteral a = true ∧ isNameChar a = false ∧ a ≠ 0x3a ∧
      NTriples.isDigit a = false ∧ a ≠ 0x2e := by
    intro a ha
    rcases hhead a ha with hq | rfl
    · obtain ⟨-, hdot, hdigit, hname, hcolon, -⟩ := isQuote_facts hq
      refine ⟨?_, hname, hcolon, hdigit, hdot⟩
      unfold startsLiteral
      rw [hq, Bool.or_true, Bool.true_or]
    · decide
  have hno : scanQName (x.text ++ s) = none :=
    scanQName_none_of_head (fun a ha => (hfacts a ha).2.1) fun a ha => (hfacts a ha).2.2.1
  have hdecimal : scanDecimal (x.text ++ s) = none :=
    scanDecimal_none_of_head (fun a ha => (hfacts a ha).2.2.2.1) fun a ha => (hfacts a ha).2.2.2.2
  by_cases hplain : IsPlainString x.inside
  · exact ⟨x.text, s, operandToken_of_literalToken (fun a ha => (hfacts a ha).1) hno
      (literalToken_of_string hdecimal (reads_scanQuotedString hx hplain hs)), fun _ => ⟨rfl, rfl⟩,
      fun h => absurd hplain h⟩
  · obtain ⟨y, r, hread, hne⟩ := scanQuotedString_of_not_plain hx hplain s
    exact ⟨y, r, operandToken_of_literalToken (fun a ha => (hfacts a ha).1) hno (literalToken_of_string hdecimal hread),
      fun h => absurd h hplain, fun _ => hne⟩

/-- The name of a variable is read to its end. -/
theorem operandToken_var (dollar : Bool) {name : Bytes} (hne : name ≠ []) (hname : ∀ a ∈ name, isVarChar a = true)
    (hs : EndsLeaf s) :
    operandToken prefixes ((Leaf.var dollar name).text ++ s) = some (some (0x3f :: name, skipWhite s)) := by
  obtain ⟨htake, hdrop⟩ := takeWhile_append_stop hname (hs.stops (p := isVarChar) rfl rfl rfl)
  have hsign : ((if dollar then 0x24 else 0x3f : UInt8) = 0x3f ∨ (if dollar then 0x24 else 0x3f : UInt8) = 0x24) := by
    cases dollar <;> decide
  have htext : (Leaf.var dollar name).text ++ s = (if dollar then 0x24 else 0x3f) :: (name ++ s) := rfl
  have hwhite : skipWhite ((Leaf.var dollar name).text ++ s) = (Leaf.var dollar name).text ++ s := by
    refine skipWhite_of_head fun a ha => ?_
    cases dollar <;> cases ha <;> rfl
  have hvar : scanVar ((Leaf.var dollar name).text ++ s) = some (0x3f :: name, skipWhite s) := by
    unfold scanVar
    rw [hwhite, htext]
    simp only
    rw [if_pos ⟨hsign, by rw [htake]; exact hne⟩, htake, hdrop]
  unfold operandToken
  rw [hvar]

/-- A QName is expanded. -/
theorem operandToken_qname {name localName : Bytes} (h : (Leaf.qname name localName).WellFormed prefixes)
    (hs : EndsLeaf s) :
    ∃ y, operandToken prefixes ((Leaf.qname name localName).text ++ s) = some (some (y, skipWhite s)) ∧
      ((Leaf.qname name localName).Plain prefixes → y = (Leaf.qname name localName).entry prefixes) ∧
      (¬ (Leaf.qname name localName).Plain prefixes → y ≠ (Leaf.qname name localName).entry prefixes) := by
  obtain ⟨hname, hne, hlocal⟩ := h
  have hchars : ∀ a ∈ name, isNameChar a = true := fun a ha => (hname (List.ne_nil_of_mem ha)).2 a ha
  have htext : (Leaf.qname name localName).text ++ s = name ++ 0x3a :: localName ++ s := rfl
  have hhead : ∀ a ∈ (name ++ 0x3a :: localName ++ s).head?, isWhite a = false ∧ ¬ (a = 0x3f ∨ a = 0x24) ∧ a ≠ 0x3c := by
    rw [List.append_assoc]
    refine head_append (fun a ha => ?_) fun a ha => ?_
    · have hmem := List.mem_of_mem_head? ha
      have hdollar : a ≠ 0x24 := by
        rintro rfl
        obtain ⟨u, hu⟩ := Option.isSome_iff_exists.1 (hname (List.ne_nil_of_mem hmem)).1
        rcases prefixes.word name u hu with rfl | ⟨-, hword⟩
        · exact absurd (hchars 0x23 (by decide)) (by decide)
        · exact absurd (hword 0x24 hmem) (by decide)
      obtain ⟨hwhite, -, hquestion, hopening⟩ := isNameChar_facts (hchars a hmem)
      exact ⟨hwhite, not_or.2 ⟨hquestion, hdollar⟩, hopening⟩
    · obtain rfl : 0x3a = a := Option.some.inj ha
      decide
  have hwhite := skipWhite_of_head fun a ha => (hhead a ha).1
  have hvar : scanVar (name ++ 0x3a :: localName ++ s) = none := by
    unfold scanVar
    rw [hwhite]
    split
    · rfl
    · next a t heq => exact if_neg fun h => (hhead a (by rw [heq]; rfl)).2.1 h.1
  have huri : scanUriref (name ++ 0x3a :: localName ++ s) = none := by
    cases heq : name ++ 0x3a :: localName ++ s with
    | nil => rfl
    | cons a t => exact if_neg fun h => (hhead a (by rw [heq]; rfl)).2.2 h.1
  have hscan : operandToken prefixes (name ++ 0x3a :: localName ++ s) =
      (expand prefixes name localName).map fun uri => some (uri, skipWhite s) := by
    unfold operandToken scanURIOrQName
    rw [hvar, hwhite, huri, scanQName_name hchars hne hlocal hs]
    simp only [Option.map_map]
    rfl
  have hentry : ∀ u : Bytes, 0x3c :: (u ++ localName ++ [0x3e]) = (Leaf.qname name localName).entry prefixes ↔
      u = namespaceOf prefixes name := by
    intro u
    rw [Leaf.entry, List.cons.injEq, List.append_left_inj, List.append_left_inj]
    exact and_iff_right rfl
  rw [htext, hscan]
  by_cases hnone : name = [] ∨ name = ascii "0"
  · refine ⟨_, by rw [expand, if_pos hnone]; rfl, fun hplain => (hentry _).2 ?_,
      fun hplain heq => hplain fun _ => (hentry _).1 heq⟩
    rcases hnone with rfl | hzero
    · rfl
    · exact hplain hzero
  · obtain ⟨hnil, hzero⟩ := not_or.1 hnone
    obtain ⟨u, hu⟩ := Option.isSome_iff_exists.1 (hname hnil).1
    have huri : u = namespaceOf prefixes name := by rw [namespaceOf, if_neg hnil, hu]; rfl
    exact ⟨_, by rw [expand, if_neg hnone, hu]; rfl, fun _ => (hentry u).2 huri,
      fun hplain => absurd (fun h => absurd h hzero) hplain⟩

theorem Leaf.text_cons {l : Leaf} (hl : l.WellFormed prefixes) : ∃ a t, l.text = a :: t ∧ startsLeaf a = true := by
  have hsplit : ∀ {x : Bytes}, x ≠ [] → (∀ a ∈ x.head?, startsLeaf a = true) →
      ∃ a t, x = a :: t ∧ startsLeaf a = true := by
    intro x hne hx
    obtain ⟨a, t, rfl⟩ := List.exists_cons_of_ne_nil hne
    exact ⟨a, t, rfl, hx a rfl⟩
  cases l with
  | var dollar name => exact ⟨_, _, rfl, by cases dollar <;> rfl⟩
  | qname name localName =>
    cases name with
    | nil => exact ⟨_, _, rfl, rfl⟩
    | cons a name =>
      refine ⟨a, _, rfl, ?_⟩
      unfold startsLeaf
      rw [(hl.1 (List.cons_ne_nil a name)).2 a List.mem_cons_self]
      rfl
  | number x =>
    refine hsplit (Number.text_ne_nil hl) fun a ha => ?_
    rcases Number.head hl a ha with h | rfl
    · unfold startsLeaf
      rw [isDigit_name h]
      rfl
    · rfl
  | hex capital digits => exact ⟨_, _, rfl, rfl⟩
  | string x =>
    refine hsplit x.text_ne_nil fun a ha => ?_
    rcases QuotedString.head hl a ha with h | rfl
    · unfold startsLeaf
      rw [h, Bool.or_true, Bool.true_or]
    · rfl
  | yes => exact ⟨_, _, rfl, rfl⟩
  | no => exact ⟨_, _, rfl, rfl⟩
  | null => exact ⟨_, _, rfl, rfl⟩

theorem lf_not_mem {p : UInt8 → Bool} (hp : p 0x0a = false) {x : Bytes} (hx : ∀ a ∈ x, p a = true) : 0x0a ∉ x :=
  fun h => Bool.false_ne_true (hp.symm.trans (hx _ h))

theorem IsString.oneLine {q : UInt8} {x : Bytes} (hx : IsString q x) : 0x0a ∉ x := by
  induction hx with
  | nil => exact List.not_mem_nil
  | character _ _ hlf _ _ ih => exact List.not_mem_cons_of_ne_of_not_mem (Ne.symm hlf) ih
  | escape ha _ ih =>
    refine List.not_mem_cons_of_ne_of_not_mem (by decide) (List.not_mem_cons_of_ne_of_not_mem ?_ ih)
    rintro rfl
    cases ha

theorem QuotedString.oneLine {x : QuotedString} (hx : x.WellFormed) : 0x0a ∉ x.text := by
  have hsign : ∀ b : Bool, (0x0a : UInt8) ∉ (if b then [0x25] else [] : Bytes) := by decide
  have hmark : (0x0a : UInt8) ≠ x.mark := by
    intro h
    have := hx.mark
    rw [← h] at this
    cases this
  unfold QuotedString.text
  rw [List.mem_append, not_or]
  refine ⟨hsign _, List.not_mem_cons_of_ne_of_not_mem hmark ?_⟩
  rw [List.mem_append, not_or]
  refine ⟨hx.inside.oneLine, List.not_mem_cons_of_ne_of_not_mem hmark ?_⟩
  rw [List.mem_append, not_or]
  refine ⟨?_, hsign _⟩
  cases hlang : x.lang with
  | none => exact List.not_mem_nil
  | some l =>
    obtain ⟨-, hchars, hpart⟩ := hx.lang l hlang
    refine List.not_mem_cons_of_ne_of_not_mem (by decide) ?_
    rw [List.mem_append, not_or]
    refine ⟨lf_not_mem rfl hchars, ?_⟩
    cases htail : l.2 with
    | none => exact List.not_mem_nil
    | some part => exact List.not_mem_cons_of_ne_of_not_mem (by decide) (lf_not_mem rfl (hpart part htail).2)

theorem Leaf.oneLine {l : Leaf} (hl : l.WellFormed prefixes) : 0x0a ∉ l.text := by
  cases l with
  | var dollar name =>
    refine List.not_mem_cons_of_ne_of_not_mem ?_ (lf_not_mem rfl hl.2)
    cases dollar <;> decide
  | qname name localName =>
    unfold Leaf.text
    rw [List.mem_append, not_or]
    refine ⟨?_, List.not_mem_cons_of_ne_of_not_mem (by decide) (lf_not_mem rfl hl.2.2)⟩
    cases name with
    | nil => exact List.not_mem_nil
    | cons a name => exact lf_not_mem rfl (hl.1 (List.cons_ne_nil a name)).2
  | number x => exact Number.not_mem hl rfl
  | hex capital digits =>
    refine List.not_mem_cons_of_ne_of_not_mem (by decide) (List.not_mem_cons_of_ne_of_not_mem ?_ (lf_not_mem rfl hl.2))
    cases capital <;> decide
  | string x => exact QuotedString.oneLine hl
  | yes => unfold Leaf.text; decide
  | no => unfold Leaf.text; decide
  | null => unfold Leaf.text; decide

/-- What is read for a leaf is what stands for it in the list if it is plain, and something else if not. -/
theorem operandToken_leaf {l : Leaf} (hl : l.WellFormed prefixes) (hs : EndsLeaf s) :
    ∃ y r, operandToken prefixes (l.text ++ s) = some (some (y, r)) ∧
      (l.Plain prefixes → y = l.entry prefixes ∧ r = skipWhite s) ∧ (¬ l.Plain prefixes → y ≠ l.entry prefixes) := by
  cases l with
  | var dollar name => exact ⟨_, _, operandToken_var dollar hl.1 hl.2 hs, fun _ => ⟨rfl, rfl⟩, fun h => absurd trivial h⟩
  | qname name localName =>
    obtain ⟨y, hread, hplain, hother⟩ := operandToken_qname hl hs
    exact ⟨y, _, hread, fun h => ⟨hplain h, rfl⟩, hother⟩
  | number x => exact ⟨_, _, operandToken_number hl hs, fun _ => ⟨rfl, rfl⟩, fun h => absurd trivial h⟩
  | hex capital digits =>
    obtain ⟨r, hread⟩ := operandToken_hex capital hl.2 hs
    refine ⟨_, r, hread, fun h => absurd h id, fun _ h => ?_⟩
    cases List.cons_ne_nil _ _ (List.cons.inj h).2.symm
  | string x =>
    obtain ⟨y, r, hread, hplain, hother⟩ := operandToken_string hl hs
    exact ⟨y, _, hread, fun h => ⟨(hplain h).1, by rw [(hplain h).2]⟩, hother⟩
  | yes => exact ⟨_, _, operandToken_word (Or.inl rfl) hs, fun _ => ⟨rfl, rfl⟩, fun h => absurd trivial h⟩
  | no => exact ⟨_, _, operandToken_word (Or.inr (Or.inl rfl)) hs, fun _ => ⟨rfl, rfl⟩, fun h => absurd trivial h⟩
  | null => exact ⟨_, _, operandToken_word (Or.inr (Or.inr rfl)) hs, fun _ => ⟨rfl, rfl⟩, fun h => absurd trivial h⟩

end

end RdfStore.Rdql
