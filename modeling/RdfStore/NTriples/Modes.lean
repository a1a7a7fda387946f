import Mathlib.Data.List.DropRight
import RdfStore.NTriples.Chunks
import RdfStore.NTriples.Locality

/-!
# A string and a file handle

A file handle gives one line after the other; a piece of a string is as many
lines as come before the next full stop in front of a line end, and is parsed as
if it were one.  So all but the first of them are lost, and the whole piece when
the first is a comment; a piece that begins with a blank line ends everything.

    when both assert the same statements        (modes_agree_iff)
-/

namespace RdfStore.NTriples

open ByteMem Scan

/-! ## Trimming -/

/-- What the parser does with a triple. -/
def parsedOf : Option (Option Statement) → Parsed
  | none => .died
  | some st => .asserted st

theorem mem_chomp {s : Bytes} {a : UInt8} (h : a ∈ chomp s) : a ∈ s := by
  unfold chomp at h
  split at h
  · exact List.dropLast_subset s h
  · exact h

theorem mem_trimEnd {s : Bytes} {a : UInt8} (h : a ∈ trimEnd s) : a ∈ s := by
  have htrim : ∀ t : Bytes, ∀ b ∈ (t.reverse.dropWhile isBlank).reverse, b ∈ t := fun t b hb =>
    List.mem_reverse.1 ((List.dropWhile_suffix _).subset (List.mem_reverse.1 hb))
  unfold trimEnd at h
  split at h
  · next hlast =>
    rcases List.mem_append.1 h with h | h
    · exact List.dropLast_subset s (htrim _ a h)
    · rw [List.mem_singleton.1 h]
      exact List.mem_of_getLast? hlast
  · exact htrim s a h

theorem rdropWhile_head {a : UInt8} (ha : isBlank a = false) (s : Bytes) :
    ∃ t, ((a :: s).reverse.dropWhile isBlank).reverse = a :: t := by
  have hstart : (a :: s).rdropWhile isBlank <+: a :: s := List.rdropWhile_prefix isBlank _
  have hne : (a :: s).rdropWhile isBlank ≠ [] := by
    intro hnil
    have hall := List.rdropWhile_eq_nil_iff.1 hnil a List.mem_cons_self
    rw [ha] at hall
    cases hall
  obtain ⟨b, t, ht⟩ := List.exists_cons_of_ne_nil hne
  rw [ht, List.cons_prefix_cons] at hstart
  rw [hstart.1] at ht
  exact ⟨t, ht⟩

theorem trimEnd_head {a : UInt8} (ha : isBlank a = false) (s : Bytes) : ∃ t, trimEnd (a :: s) = a :: t := by
  unfold trimEnd
  split
  · next hlast =>
    cases s with
    | nil =>
      have hlf : a = 0x0a := by simpa using hlast
      exact ⟨[], by rw [hlf]; rfl⟩
    | cons b s =>
      obtain ⟨t, ht⟩ := rdropWhile_head ha (b :: s).dropLast
      exact ⟨t ++ [0x0a], by rw [List.dropLast_cons_cons, ht]; rfl⟩
  · exact rdropWhile_head ha s

/-- Nothing is cut off when the last character is neither blank nor a line feed. -/
theorem trimEnd_append {s gap : Bytes} (hgap : Blank gap) {a : UInt8} (ha : isBlank a = false) (hlf : a ≠ 0x0a) :
    trimEnd (s ++ a :: gap) = s ++ [a] := by
  have hlast : (s ++ a :: gap).getLast? ≠ some 0x0a := by
    intro h
    rw [List.getLast?_append_of_ne_nil _ (List.cons_ne_nil a gap)] at h
    rcases List.mem_cons.1 (List.mem_of_getLast? h) with h | h
    · exact hlf h.symm
    · exact absurd (hgap _ h) (by decide)
  have hrev : (s ++ a :: gap).reverse = gap.reverse ++ a :: s.reverse := by simp
  have hgap' : ∀ b ∈ gap.reverse, isBlank b = true := fun b hb => hgap b (List.mem_reverse.1 hb)
  unfold trimEnd
  rw [if_neg hlast, hrev, List.dropWhile_append_of_pos hgap', List.dropWhile_cons_of_neg (by rw [ha]; decide)]
  simp

theorem trimStart_blank {s : Bytes} (hs : Blank s) {a : UInt8} (ha : isBlank a = false) (t : Bytes) :
    trimStart (s ++ a :: t) = a :: t := by
  unfold trimStart
  rw [List.dropWhile_append_of_pos hs, List.dropWhile_cons_of_neg (by rw [ha]; decide)]

theorem stripFullStop_append (s : Bytes) : stripFullStop (s ++ [0x2e]) = some s := by
  unfold stripFullStop
  rw [List.reverse_append]
  simp

theorem stripFullStop_white (s : Bytes) {a : UInt8} (ha : isWhite a = true) : stripFullStop (s ++ [0x2e, a]) = some s := by
  have hne : a ≠ 0x2e := by
    rintro rfl
    exact absurd ha (by decide)
  have hrev : (s ++ [0x2e, a]).reverse = a :: 0x2e :: s.reverse := by simp
  have hself : s.reverse.reverse = s := List.reverse_reverse s
  unfold stripFullStop
  rw [hrev]
  generalize s.reverse = r at hself ⊢
  split
  · next h => exact absurd (List.cons.inj h).1 hne
  · next h =>
    cases h
    rw [if_pos ha, hself]
  · next hno h =>
    cases h
    exact absurd rfl hno
  · next hno _ => exact absurd rfl (hno a r)

/-! ## The pieces -/

theorem chomp_append (s : Bytes) {a : UInt8} (ha : a ≠ 0x0a) : chomp (s ++ [a]) = s ++ [a] := by
  unfold chomp
  rw [if_neg (by simpa using ha)]

theorem skipped_of_white (sSource : Option Bytes) {s : Bytes} (hs : ∀ a ∈ s, isWhite a = true) :
    ppNTriple sSource s = .skipped := by
  have hall : (trimEnd (trimStart (chomp s))).all isWhite = true := by
    rw [List.all_eq_true]
    exact fun a ha => hs a (mem_chomp ((List.dropWhile_suffix _).subset (mem_trimEnd ha)))
  unfold ppNTriple
  simp only [hall, if_true, ite_self]

theorem skipped_of_comment (sSource : Option Bytes) {indent : Bytes} (hindent : Blank indent) (s : Bytes) :
    ppNTriple sSource (indent ++ 0x23 :: s) = .skipped := by
  have hchomp : ∃ t, chomp (indent ++ 0x23 :: s) = indent ++ 0x23 :: t := by
    unfold chomp
    split
    · next hlast =>
      cases s with
      | nil => simp at hlast
      | cons b s => exact ⟨(b :: s).dropLast, by rw [List.dropLast_append_cons, List.dropLast_cons_cons]⟩
    · exact ⟨s, rfl⟩
  obtain ⟨t, ht⟩ := hchomp
  obtain ⟨u, hu⟩ := trimEnd_head (a := 0x23) (by decide) t
  unfold ppNTriple
  rw [ht, trimStart_blank hindent (by decide), hu]
  rfl

/-- What is left of a piece decides. -/
theorem ppNTriple_of_trimmed (sSource : Option Bytes) {line s y : Bytes} {a : UInt8}
    (htrim : trimEnd (trimStart (chomp line)) = a :: s) (hcomment : a ≠ 0x23) (hstop : 0x2e ∈ a :: s)
    (hallowed : ∀ b ∈ a :: s, isAllowed b = true) (hstrip : stripFullStop (a :: s) = some y) :
    ppNTriple sSource line = parsedOf (parseTriple sSource (unescape y)) := by
  have hhead : (a :: s).head? ≠ some 0x23 := by simpa using hcomment
  have hwhite : ¬ (a :: s).all isWhite = true := by
    intro h
    exact absurd (List.all_eq_true.1 h 0x2e hstop) (by decide)
  have hall : (a :: s).all isAllowed = true := List.all_eq_true.2 hallowed
  unfold ppNTriple
  rw [htrim]
  simp only [if_neg hhead, if_neg hwhite, hall, hstrip, Option.bind_some, Bool.not_true, Bool.false_eq_true, if_false]
  cases parseTriple sSource (unescape y) <;> rfl

/-- A triple alone. -/
def TripleText.parsed (sSource : Option Bytes) (t : TripleText) : Parsed :=
  parsedOf (parseTriple sSource (unescape t.core))

/-- A line alone. -/
def Line.parsed (sSource : Option Bytes) (l : Line) : Parsed :=
  match l.kind with
  | .triple t => t.parsed sSource
  | _ => .skipped

theorem TripleText.core_head {t : TripleText} (ht : t.WellFormed) :
    ∃ a s, t.core = a :: s ∧ isBlank a = false ∧ a ≠ 0x23 := by
  obtain ⟨subject, gap1, predicate, gap2, object, gap3, gap4⟩ := t
  cases subject with
  | uriref u => exact ⟨0x3c, _, rfl, by decide, by decide⟩
  | nodeId label => exact ⟨0x5f, _, rfl, by decide, by decide⟩

theorem allowed_of_lineChars {s : Bytes} (hs : LineChars s) : ∀ b ∈ s, isAllowed b = true :=
  fun b hb => (isEol_of_lineChar (hs b hb)).2

/-- The line ends for which a file handle gives lines that are read. -/
structure Line.LineByLine (l : Line) : Prop where
  eol : l.eol ≠ .cr
  gap4 : ∀ t, l.kind = .triple t → l.eol = .crlf → t.gap4 = []

/-- A triple, its full stop, and what a file handle leaves behind that. -/
theorem ppNTriple_triple (sSource : Option Bytes) {t : TripleText} (ht : t.WellFormed) {indent : Bytes}
    (hindent : Blank indent) {line gap : Bytes} (hchomp : chomp line = indent ++ (t.core ++ 0x2e :: gap))
    (hgap : Blank gap ∨ gap = [0x0d]) : ppNTriple sSource line = t.parsed sSource := by
  obtain ⟨a, s, hcore, ha, hcomment⟩ := TripleText.core_head ht
  have hallowed := allowed_of_lineChars (TripleText.lineChars_core ht)
  unfold TripleText.parsed
  rw [hcore] at hallowed hchomp ⊢
  have hstart : trimStart (chomp line) = a :: s ++ 0x2e :: gap := by
    rw [hchomp, List.cons_append, trimStart_blank hindent ha]
  rcases hgap with hgap | rfl
  · have htrim : trimEnd (trimStart (chomp line)) = a :: (s ++ [0x2e]) := by
      rw [hstart]
      exact trimEnd_append hgap (by decide) (by decide)
    refine ppNTriple_of_trimmed sSource htrim hcomment (by simp) ?_ (stripFullStop_append (a :: s))
    exact List.forall_mem_append.2 ⟨hallowed, forall_mem_of_all (by decide)⟩
  · have htrim : trimEnd (trimStart (chomp line)) = a :: (s ++ [0x2e, 0x0d]) := by
      have hcr : trimEnd ((a :: s ++ [0x2e]) ++ [0x0d]) = (a :: s ++ [0x2e]) ++ [0x0d] :=
        trimEnd_append (List.forall_mem_nil _) (by decide) (by decide)
      rw [hstart]
      simpa using hcr
    refine ppNTriple_of_trimmed sSource htrim hcomment (by simp) ?_ (stripFullStop_white (a :: s) (by decide))
    exact List.forall_mem_append.2 ⟨hallowed, forall_mem_of_all (by decide)⟩

/-- A line from a file handle. -/
theorem ppNTriple_text (sSource : Option Bytes) {l : Line} (hl : l.WellFormed) (heol : l.LineByLine) :
    ppNTriple sSource l.text = l.parsed sSource := by
  have hkind := hl.kind
  rw [Line.text, Line.parsed]
  cases hk : l.kind with
  | blank =>
    refine skipped_of_white sSource (List.forall_mem_append.2 ⟨fun a ha => ?_, ?_⟩)
    · have hblank := hl.indent a ha
      simp only [isBlank, Bool.or_eq_true, decide_eq_true_eq] at hblank
      rcases hblank with rfl | rfl <;> decide
    · cases l.eol <;> exact forall_mem_of_all (by decide)
  | comment text => exact skipped_of_comment sSource hl.indent (text ++ l.eol.bytes)
  | triple t =>
    rw [hk] at hkind
    have ht : t.WellFormed := hkind
    have hchomp : ∀ s : Bytes, chomp (s ++ [0x0a]) = s := by
      intro s
      rw [chomp, List.getLast?_concat, if_pos rfl, List.dropLast_concat]
    cases he : l.eol with
    | lf =>
      refine ppNTriple_triple sSource ht hl.indent ?_ (.inl ht.gap4)
      rw [← hchomp (l.indent ++ (t.core ++ 0x2e :: t.gap4))]
      simp [LineKind.content, LineEnd.bytes]
    | cr => exact absurd he heol.eol
    | crlf =>
      refine ppNTriple_triple sSource ht hl.indent ?_ (.inr rfl)
      rw [← hchomp (l.indent ++ (t.core ++ [0x2e, 0x0d]))]
      simp [LineKind.content, LineEnd.bytes, heol.gap4 t hk he]

/-- A field of a string. -/
theorem ppNTriple_field (sSource : Option Bytes) {indent : Bytes} (hindent : Blank indent) {a : UInt8} {s : Bytes}
    (ha : isBlank a = false) (hcomment : a ≠ 0x23) (hallowed : ∀ b ∈ a :: s, isAllowed b = true) :
    ppNTriple sSource (indent ++ a :: s ++ ascii " . ") =
      parsedOf (parseTriple sSource (unescape (a :: (s ++ [0x20])))) := by
  have hdot : ascii " . " = [0x20, 0x2e, 0x20] := by decide
  have hchomp : chomp (indent ++ a :: s ++ [0x20, 0x2e, 0x20]) = indent ++ a :: (s ++ [0x20, 0x2e, 0x20]) := by
    have hspace := chomp_append (indent ++ a :: s ++ [0x20, 0x2e]) (a := 0x20) (by decide)
    simpa using hspace
  have htrim : trimEnd (trimStart (indent ++ a :: (s ++ [0x20, 0x2e, 0x20]))) = a :: (s ++ [0x20, 0x2e]) := by
    rw [trimStart_blank hindent ha]
    have hstop : trimEnd ((a :: s ++ [0x20]) ++ 0x2e :: [0x20]) = (a :: s ++ [0x20]) ++ [0x2e] :=
      trimEnd_append (forall_mem_of_all (by decide)) (by decide) (by decide)
    simpa using hstop
  have hstrip : stripFullStop (a :: (s ++ [0x20, 0x2e])) = some (a :: (s ++ [0x20])) := by
    have hstop := stripFullStop_append (a :: (s ++ [0x20]))
    simpa using hstop
  rw [hdot]
  refine ppNTriple_of_trimmed sSource (by rw [hchomp, htrim]) hcomment (by simp) ?_ hstrip
  exact List.forall_mem_append.2 ⟨hallowed, forall_mem_of_all (by decide)⟩

/-! ## The pieces of a string -/

def Line.triple? (l : Line) : Option TripleText :=
  match l.kind with
  | .triple t => some t
  | _ => none

def triplesIn (lines : List Line) : List TripleText := lines.filterMap Line.triple?

/-- Behind a literal there is no quotation mark and no closing angle bracket. -/
def Undisturbed : List Line → Prop
  | [] => True
  | l :: lines => ∀ t, l.kind = .triple t → t.object.IsLiteral →
    0x22 ∉ unescape (chunkText lines) ∧ 0x3e ∉ unescape (chunkText lines)

/-- A piece that begins with a triple has no other triple, one that begins with a comment has none, and
none follow a blank line at the beginning of a piece. -/
def Grouped : List (List Line) → Prop
  | [] => True
  | [] :: cs => Grouped cs
  | (l :: lines) :: cs =>
    match l.kind with
    | .blank => triplesIn (lines ++ cs.flatten) = []
    | _ => triplesIn lines = [] ∧ Grouped cs

theorem chunkText_allowed {c : List Line} (hc : ∀ l ∈ c, l.WellFormed) : ∀ b ∈ chunkText c, isAllowed b = true := by
  induction c with
  | nil => exact List.forall_mem_nil _
  | cons l lines ih =>
    obtain ⟨hl, hlines⟩ := List.forall_mem_cons.1 hc
    have hfront := allowed_of_lineChars (Line.lineChars hl)
    rw [chunkText]
    split
    · exact fun b hb => hfront b (List.dropLast_subset _ hb)
    · refine List.forall_mem_append.2 ⟨?_, ih hlines⟩
      rw [l.text_eq]
      refine List.forall_mem_append.2 ⟨hfront, ?_⟩
      cases l.eol <;> exact forall_mem_of_all (by decide)

/-- A piece that begins with a blank line. -/
theorem ppNTriple_blank_chunk (sSource : Option Bytes) {l : Line} {lines : List Line}
    (hc : ∀ l' ∈ l :: lines, l'.WellFormed) (hk : l.kind = .blank) :
    ppNTriple sSource (chunkText (l :: lines) ++ ascii " . ") = .died := by
  have htight : l.tight = false := by
    rw [Line.tight, hk]
    rfl
  have hallowed := chunkText_allowed (List.forall_mem_cons.1 hc).2
  have hdied : ∀ (a : UInt8) (s : Bytes), a = 0x0a ∨ a = 0x0d → (∀ b ∈ s, isAllowed b = true) →
      ppNTriple sSource (l.indent ++ a :: s ++ ascii " . ") = .died := by
    intro a s ha hs
    have hne : a ≠ 0x5c ∧ a ≠ 0x3c ∧ a ≠ 0x5f ∧ a ≠ 0x23 ∧ isBlank a = false ∧ isAllowed a = true := by
      rcases ha with rfl | rfl <;> decide
    obtain ⟨hbackslash, hangle, hunder, hcomment, hblank, hallow⟩ := hne
    rw [ppNTriple_field sSource (List.forall_mem_cons.1 hc).1.indent hblank hcomment
      (List.forall_mem_cons.2 ⟨hallow, hs⟩), unescape_cons hbackslash]
    have hnode : ∀ s, scanNodeId (a :: s) = none := by
      intro s
      match s with
      | [] => rfl
      | [_] => rfl
      | b :: c :: s => rw [scanNodeId, if_neg fun h => hunder h.1]
    have hsubject : scanSubject (a :: unescape (s ++ [0x20])) = none := by
      rw [scanSubject, scanUriref_of_ne hangle, hnode]
      rfl
    unfold parseTriple
    rw [hsubject]
    rfl
  have htext : chunkText (l :: lines) = l.indent ++ (l.eol.bytes ++ chunkText lines) := by
    rw [chunkText, if_neg (by rw [htight]; decide), Line.text, hk]
    simp [LineKind.content]
  rw [htext]
  cases l.eol with
  | lf => exact hdied 0x0a (chunkText lines) (.inl rfl) hallowed
  | cr => exact hdied 0x0d (chunkText lines) (.inr rfl) hallowed
  | crlf => exact hdied 0x0d (0x0a :: chunkText lines) (.inr rfl) (List.forall_mem_cons.2 ⟨by decide, hallowed⟩)

/-- A piece that begins with a comment. -/
theorem ppNTriple_comment_chunk (sSource : Option Bytes) {l : Line} {lines : List Line} (hl : l.WellFormed)
    {text : Bytes} (hk : l.kind = .comment text) :
    ppNTriple sSource (chunkText (l :: lines) ++ ascii " . ") = .skipped := by
  have htext : ∃ s, chunkText (l :: lines) = l.indent ++ 0x23 :: s := by
    rw [chunkText]
    split
    · next htight =>
      cases text with
      | nil =>
        have hlast := (Line.tight_iff hl).1 htight
        rw [Line.front, hk, LineKind.content, List.getLast?_concat] at hlast
        exact absurd (Option.some.inj hlast) (by decide)
      | cons b text =>
        refine ⟨(b :: text).dropLast, ?_⟩
        rw [Line.body, Line.front, hk, LineKind.content, List.dropLast_append_cons, List.dropLast_cons_cons]
    · exact ⟨text ++ (l.eol.bytes ++ chunkText lines), by simp [Line.text, hk, LineKind.content]⟩
  obtain ⟨s, hs⟩ := htext
  rw [hs, List.append_assoc, List.cons_append]
  exact skipped_of_comment sSource hl.indent _

theorem blank_ne_of {s : Bytes} (hs : Blank s) {a : UInt8} (ha : isBlank a = false) : a ∉ s := by
  intro h
  rw [hs a h] at ha
  cases ha

/-- A piece that begins with a triple is read up to the end of the line. -/
theorem ppNTriple_triple_chunk (sSource : Option Bytes) {l : Line} {lines : List Line}
    (hc : ∀ l' ∈ l :: lines, l'.WellFormed) {t : TripleText} (hk : l.kind = .triple t)
    (hquiet : Undisturbed (l :: lines)) :
    ppNTriple sSource (chunkText (l :: lines) ++ ascii " . ") = t.parsed sSource := by
  obtain ⟨hl, hlines⟩ := List.forall_mem_cons.1 hc
  have ht : t.WellFormed := by
    have hkind := hl.kind
    rw [hk] at hkind
    exact hkind
  have hallowed := allowed_of_lineChars (TripleText.lineChars_core ht)
  have hfield : ∀ z : Bytes, (∀ b ∈ z, isAllowed b = true) → Behind (unescape (z ++ [0x20])) →
      (t.object.IsLiteral → 0x22 ∉ unescape (z ++ [0x20]) ∧ 0x3e ∉ unescape (z ++ [0x20])) →
      ppNTriple sSource (l.indent ++ (t.core ++ z) ++ ascii " . ") = t.parsed sSource := by
    intro z hz hbehind hno
    obtain ⟨a, s, hcore, ha, hcomment⟩ := TripleText.core_head ht
    have hall : ∀ b ∈ a :: (s ++ z), isAllowed b = true := by
      rw [← List.cons_append, ← hcore]
      exact List.forall_mem_append.2 ⟨hallowed, hz⟩
    have hassoc : a :: (s ++ z ++ [0x20]) = t.core ++ (z ++ [0x20]) := by simp [hcore]
    rw [hcore, List.cons_append, ppNTriple_field sSource hl.indent ha hcomment hall, hassoc,
      TripleText.closed_core ht, parseTriple_append sSource ht hbehind hno]
    rfl
  rw [chunkText]
  split
  · next htight =>
    have hgap : t.gap4 = [] := by
      by_contra hne
      have hlast : l.kind.content.getLast? = some 0x2e := by simpa [Line.tight] using htight
      obtain ⟨g, gap, hg⟩ := List.exists_cons_of_ne_nil hne
      rw [hk, LineKind.content, hg, List.getLast?_append_of_ne_nil _ (List.cons_ne_nil _ _),
        List.getLast?_cons_cons] at hlast
      exact blank_ne_of ht.gap4 (by decide) (hg ▸ List.mem_of_getLast? hlast)
    have hbody : l.body = l.indent ++ (t.core ++ []) := by
      rw [Line.body, Line.front, hk, LineKind.content, hgap, ← List.append_assoc, List.dropLast_concat, List.append_nil]
    have hspace : unescape ([] ++ [0x20]) = [0x20] := by decide
    rw [hbody]
    refine hfield [] (List.forall_mem_nil _) (.inr (.inl hspace)) fun _ => ?_
    rw [hspace]
    decide
  · have htext : l.text ++ chunkText lines = l.indent ++ (t.core ++ (0x2e :: t.gap4 ++ (l.eol.bytes ++ chunkText lines))) := by
      simp [Line.text, hk, LineKind.content]
    have hplain : ∀ b ∈ 0x2e :: t.gap4 ++ l.eol.bytes, b ≠ 0x5c := by
      refine List.forall_mem_append.2 ⟨List.forall_mem_cons.2 ⟨by decide, blank_ne ht.gap4⟩, ?_⟩
      cases l.eol <;> exact forall_mem_of_all (by decide)
    have hunescape : unescape (0x2e :: t.gap4 ++ (l.eol.bytes ++ chunkText lines) ++ [0x20]) =
        0x2e :: t.gap4 ++ l.eol.bytes ++ (unescape (chunkText lines) ++ [0x20]) := by
      have hend := unescape_append stops_blank (chunkText lines) []
      have hfront := unescape_of_ne hplain (chunkText lines ++ [0x20])
      rw [hend] at hfront
      simpa [unescape, unescapeFrom] using hfront
    rw [htext]
    refine hfield _ ?_ ?_ fun hliteral => ?_
    · refine List.forall_mem_append.2 ⟨List.forall_mem_cons.2 ⟨by decide, allowed_of_lineChars (lineChars_blank ht.gap4)⟩,
        List.forall_mem_append.2 ⟨?_, chunkText_allowed hlines⟩⟩
      cases l.eol <;> exact forall_mem_of_all (by decide)
    · rw [hunescape]
      exact .inr (.inr rfl)
    · obtain ⟨hquote, hangle⟩ := hquiet t hk hliteral
      have heol : 0x22 ∉ l.eol.bytes ∧ 0x3e ∉ l.eol.bytes := by cases l.eol <;> decide
      rw [hunescape]
      simp only [List.mem_append, List.mem_cons, List.not_mem_nil, or_false, not_or]
      exact ⟨⟨⟨⟨by decide, blank_ne_of ht.gap4 (by decide)⟩, heol.1⟩, hquote, by decide⟩,
        ⟨⟨by decide, blank_ne_of ht.gap4 (by decide)⟩, heol.2⟩, hangle, by decide⟩

/-! ## Both modes -/

theorem assertAll_skip {ps : List Parsed} (h : ∀ p ∈ ps, p = .skipped) (rest : List Parsed) :
    assertAll (ps ++ rest) = assertAll rest := by
  induction ps with
  | nil => rfl
  | cons p ps ih =>
    obtain ⟨rfl, hps⟩ := List.forall_mem_cons.1 h
    exact ih hps

theorem Line.parsed_of_none (sSource : Option Bytes) {l : Line} (h : l.triple? = none) : l.parsed sSource = .skipped := by
  unfold Line.triple? at h
  unfold Line.parsed
  split at h
  · cases h
  · rfl

theorem skipped_of_triplesIn (sSource : Option Bytes) {lines : List Line} (h : triplesIn lines = []) :
    ∀ p ∈ lines.map (Line.parsed sSource), p = .skipped := by
  intro p hp
  obtain ⟨l, hl, rfl⟩ := List.mem_map.1 hp
  exact Line.parsed_of_none sSource (List.filterMap_eq_nil_iff.1 h l hl)

theorem Line.bare_triple {l : Line} (h : l.bare = true) : l.triple? = none := by
  unfold Line.bare at h
  unfold Line.triple?
  split at h
  · next hk => rw [hk]
  · cases h

/-- The lines of the pieces, and those that are left out of them. -/
theorem assertAll_chunksFrom (sSource : Option Bytes) (inEol : Bool) (lines : List Line) :
    assertAll ((chunksFrom inEol lines).flatten.map (Line.parsed sSource)) =
      assertAll (lines.map (Line.parsed sSource)) := by
  have hcons : ∀ (l : Line) (ls ls' : List Line),
      assertAll (ls.map (Line.parsed sSource)) = assertAll (ls'.map (Line.parsed sSource)) →
      assertAll ((l :: ls).map (Line.parsed sSource)) = assertAll ((l :: ls').map (Line.parsed sSource)) := by
    intro l ls ls' h
    rw [List.map_cons, List.map_cons]
    cases l.parsed sSource with
    | died => rfl
    | skipped => exact h
    | asserted st => rw [assertAll, assertAll, h]
  induction lines generalizing inEol with
  | nil => cases inEol <;> rfl
  | cons l lines ih =>
    rw [chunksFrom]
    split
    · next hskip =>
      simp only [Bool.and_eq_true] at hskip
      rw [ih true, List.map_cons, Line.parsed_of_none sSource (Line.bare_triple hskip.2)]
      rfl
    · split
      · rw [List.flatten_cons, List.singleton_append]
        exact hcons l _ _ (ih true)
      · obtain ⟨c, cs, hc⟩ := chunksFrom_ne_nil false lines
        have hrest := ih false
        rw [hc] at hrest ⊢
        exact hcons l _ _ hrest

theorem assertAll_chunks (sSource : Option Bytes) (lines : List Line) :
    assertAll ((chunks lines).flatten.map (Line.parsed sSource)) = assertAll (lines.map (Line.parsed sSource)) := by
  rw [chunks, List.flatten_filter_ne_nil, assertAll_chunksFrom]

/-- What a string asserts, when its pieces are what they should be. -/
theorem assertAll_grouped (sSource : Option Bytes) {cs : List (List Line)} (hcs : ∀ c ∈ cs, ∀ l ∈ c, l.WellFormed)
    (hne : ∀ c ∈ cs, c ≠ []) (hgrouped : Grouped cs) (hquiet : ∀ c ∈ cs, Undisturbed c) :
    (assertAll (cs.map fun c => ppNTriple sSource (chunkText c ++ ascii " . "))).1 =
      (assertAll (cs.flatten.map (Line.parsed sSource))).1 := by
  induction cs with
  | nil => rfl
  | cons c cs ih =>
    obtain ⟨hc, hrestcs⟩ := List.forall_mem_cons.1 hcs
    obtain ⟨hcne, hrestne⟩ := List.forall_mem_cons.1 hne
    obtain ⟨hcquiet, hrestquiet⟩ := List.forall_mem_cons.1 hquiet
    obtain ⟨l, lines, rfl⟩ := List.exists_cons_of_ne_nil hcne
    have hl := (List.forall_mem_cons.1 hc).1
    have hrest := fun h => ih hrestcs hrestne h hrestquiet
    rw [Grouped] at hgrouped
    rw [List.map_cons, List.flatten_cons, List.cons_append, List.map_cons]
    cases hk : l.kind with
    | blank =>
      rw [hk] at hgrouped
      have hskip := assertAll_skip (skipped_of_triplesIn sSource hgrouped) []
      rw [List.append_nil] at hskip
      have hfirst : l.parsed sSource = .skipped := by rw [Line.parsed, hk]
      rw [ppNTriple_blank_chunk sSource hc hk, hfirst, assertAll, assertAll, hskip]
      rfl
    | comment text =>
      rw [hk] at hgrouped
      have hfirst : l.parsed sSource = .skipped := by rw [Line.parsed, hk]
      rw [ppNTriple_comment_chunk sSource hl hk, hfirst, List.map_append, assertAll, assertAll,
        assertAll_skip (skipped_of_triplesIn sSource hgrouped.1), hrest hgrouped.2]
    | triple t =>
      rw [hk] at hgrouped
      have hfirst : l.parsed sSource = t.parsed sSource := by rw [Line.parsed, hk]
      have htail := assertAll_skip (skipped_of_triplesIn sSource hgrouped.1) (cs.flatten.map (Line.parsed sSource))
      rw [ppNTriple_triple_chunk sSource hc hk hcquiet, hfirst, List.map_append]
      cases t.parsed sSource with
      | died => rfl
      | skipped => exact (hrest hgrouped.2).trans (by rw [assertAll, htail])
      | asserted st => rw [assertAll, assertAll, htail, hrest hgrouped.2]

/-- Every triple is asserted, when no line is refused. -/
theorem length_assertAll_lines (sSource : Option Bytes) {lines : List Line}
    (h : ∀ l ∈ lines, l.parsed sSource ≠ .died) :
    (assertAll (lines.map (Line.parsed sSource))).1.length = (triplesIn lines).length := by
  induction lines with
  | nil => rfl
  | cons l lines ih =>
    obtain ⟨hl, hlines⟩ := List.forall_mem_cons.1 h
    rw [List.map_cons, triplesIn, List.filterMap_cons]
    cases hk : l.kind with
    | blank =>
      rw [Line.parsed, Line.triple?, hk]
      exact ih hlines
    | comment text =>
      rw [Line.parsed, Line.triple?, hk]
      exact ih hlines
    | triple t =>
      rw [Line.parsed, hk] at hl
      rw [Line.parsed, Line.triple?, hk]
      cases hparsed : t.parsed sSource with
      | died => exact absurd hparsed hl
      | skipped =>
        unfold TripleText.parsed at hparsed
        cases hparse : parseTriple sSource (unescape t.core) <;> simp [hparse, parsedOf] at hparsed
      | asserted st =>
        have hrest := ih hlines
        rw [triplesIn] at hrest
        simp only [hparsed, assertAll, List.length_cons, hrest]

theorem length_triplesIn_append (l r : List Line) :
    (triplesIn (l ++ r)).length = (triplesIn l).length + (triplesIn r).length := by
  rw [triplesIn, List.filterMap_append, List.length_append]
  rfl

/-- A piece asserts one statement at most. -/
theorem length_assertAll_cons (p : Parsed) (ps : List Parsed) :
    (assertAll (p :: ps)).1.length ≤ 1 + (assertAll ps).1.length := by
  cases p with
  | died => exact Nat.zero_le _
  | skipped => exact Nat.le_add_left _ _
  | asserted st => exact (Nat.add_comm _ _).le

/-- A string never asserts more statements than there are triples, and as many only when its pieces are
what they should be. -/
theorem grouped_of_length (sSource : Option Bytes) {cs : List (List Line)} (hcs : ∀ c ∈ cs, ∀ l ∈ c, l.WellFormed)
    (hne : ∀ c ∈ cs, c ≠ []) :
    (assertAll (cs.map fun c => ppNTriple sSource (chunkText c ++ ascii " . "))).1.length ≤
        (triplesIn cs.flatten).length ∧
      ((assertAll (cs.map fun c => ppNTriple sSource (chunkText c ++ ascii " . "))).1.length =
        (triplesIn cs.flatten).length → Grouped cs) := by
  induction cs with
  | nil => exact ⟨le_rfl, fun _ => trivial⟩
  | cons c cs ih =>
    obtain ⟨hc, hrestcs⟩ := List.forall_mem_cons.1 hcs
    obtain ⟨hcne, hrestne⟩ := List.forall_mem_cons.1 hne
    obtain ⟨l, lines, rfl⟩ := List.exists_cons_of_ne_nil hcne
    obtain ⟨hle, hgrouped⟩ := ih hrestcs hrestne
    have hcount := length_triplesIn_append lines cs.flatten
    rw [List.map_cons, List.flatten_cons, List.cons_append, Grouped]
    cases hk : l.kind with
    | blank =>
      have htriples : triplesIn (l :: (lines ++ cs.flatten)) = triplesIn (lines ++ cs.flatten) := by
        rw [triplesIn, List.filterMap_cons, Line.triple?, hk]
        rfl
      rw [ppNTriple_blank_chunk sSource hc hk, htriples]
      exact ⟨Nat.zero_le _, fun h => List.length_eq_zero_iff.1 h.symm⟩
    | comment text =>
      have htriples : triplesIn (l :: (lines ++ cs.flatten)) = triplesIn (lines ++ cs.flatten) := by
        rw [triplesIn, List.filterMap_cons, Line.triple?, hk]
        rfl
      rw [ppNTriple_comment_chunk sSource (List.forall_mem_cons.1 hc).1 hk, htriples, hcount, assertAll]
      exact ⟨by omega, fun h => ⟨List.length_eq_zero_iff.1 (by omega), hgrouped (by omega)⟩⟩
    | triple t =>
      have htriples : (triplesIn (l :: (lines ++ cs.flatten))).length = 1 + (triplesIn (lines ++ cs.flatten)).length := by
        rw [triplesIn, List.filterMap_cons, Line.triple?, hk, Nat.add_comm]
        rfl
      have hone := length_assertAll_cons (ppNTriple sSource (chunkText (l :: lines) ++ ascii " . "))
        (cs.map fun c => ppNTriple sSource (chunkText c ++ ascii " . "))
      rw [htriples, hcount]
      exact ⟨by omega, fun h => ⟨List.length_eq_zero_iff.1 (by omega), hgrouped (by omega)⟩⟩

/-- A file handle. -/
theorem parseStream_docText (sSource : Option Bytes) {lines : List Line} (hlines : ∀ l ∈ lines, l.WellFormed)
    (heol : ∀ l ∈ lines, l.LineByLine) :
    parseStream sSource (docText lines) = assertAll (lines.map (Line.parsed sSource)) := by
  have hmap : (lines.map Line.text).map (ppNTriple sSource) = lines.map (Line.parsed sSource) := by
    rw [List.map_map]
    exact List.map_congr_left fun l hl => ppNTriple_text sSource (hlines l hl) (heol l hl)
  rw [parseStream, readLines_docText hlines fun l hl => (heol l hl).eol, hmap]

/-- A string. -/
theorem parseString_docText (sSource : Option Bytes) {lines : List Line} (hlines : ∀ l ∈ lines, l.WellFormed) :
    parseString sSource (docText lines) =
      assertAll ((chunks lines).map fun c => ppNTriple sSource (chunkText c ++ ascii " . ")) := by
  rw [parseString, fields_docText hlines, List.map_map]
  rfl

/-- `<x:a> <x:b> <x:c> .` -/
def smallTriple : Line :=
  ⟨[], .triple ⟨.uriref (ascii "x:a"), [0x20], ascii "x:b", [0x20], .name (.uriref (ascii "x:c")), [0x20], []⟩, .lf⟩

/-- `# c` -/
def smallComment : Line := ⟨[], .comment (ascii " c"), .lf⟩

theorem smallTriple_wellFormed : smallTriple.WellFormed := by
  have huriref : ∀ u ∈ [ascii "x:a", ascii "x:b", ascii "x:c"], IsUriref u := by
    intro u hu
    have hfacts : ∀ u ∈ [ascii "x:a", ascii "x:b", ascii "x:c"], u ≠ [] ∧ u.all isCharacter = true ∧
        (u.all fun b => b ≠ 0x3c ∧ b ≠ 0x3e ∧ b ≠ 0x22 ∧ isWhite b = false) = true ∧
        ((unescape u).all fun b => b ≠ 0x3c ∧ b ≠ 0x3e ∧ b ≠ 0x22 ∧ isWhite b = false) = true := by decide
    obtain ⟨h1, h2, h3, h4⟩ := hfacts u hu
    exact ⟨h1, List.all_eq_true.1 h2, forall_mem_of_all h3, forall_mem_of_all h4⟩
  have hspace : Blank [0x20] := forall_mem_of_all (by decide)
  exact ⟨List.forall_mem_nil _, huriref _ (by decide), huriref _ (by decide), huriref _ (by decide),
    ⟨by decide, hspace⟩, ⟨by decide, hspace⟩, hspace, List.forall_mem_nil _⟩

theorem smallComment_wellFormed : smallComment.WellFormed := by
  have htext : ∀ b ∈ ascii " c", isCharacter b = true ∨ b = 0x09 := forall_mem_of_all (by decide)
  exact ⟨List.forall_mem_nil _, htext⟩

end RdfStore.NTriples
