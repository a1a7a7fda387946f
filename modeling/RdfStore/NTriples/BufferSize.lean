import RdfStore.NTriples.Faithful
import RdfStore.NTriples.Written

/-!
# The buffer of a statement

`rdfstore_ntriples_statement` computes the size of its buffer from the lengths
of the identifiers before it writes.  Ten bytes for every byte are allowed in
the three terms, one in the context and in the reified node, although these are
escaped in the same way.

    a field is as long as a count over its bytes says           (length_textField)
    the terms always leave room                                 (termsSpare_pos)
    the buffer holds the text ↔ what the terms leave makes up
      for what the context and the reified node outgrow         (statement_fits_iff)
-/

namespace RdfStore.NTriples

open ByteMem

/-! ## Counting -/

/-- Bytes that are escaped by a backslash and one more byte. -/
def isShortEscape (a : UInt8) : Bool := a = 0x09 || a = 0x0a || a = 0x0d || a = 0x5c || a = 0x22

def countMore (n : ℕ) (p : ℕ × Bool) : ℕ × Bool := (n + p.1, p.2)

/-- How many bytes are written for the bytes of a URI or of a literal up to the first NUL, and whether there
is one: two for an escaped byte, six or seven for a character of several bytes, one for another character,
and copies of the bytes of what is no character. -/
def escapedSize : ℕ → Bytes → ℕ × Bool
  | _, [] => (0, false)
  | skip + 1, _ :: rest => escapedSize skip rest
  | 0, a :: rest =>
    if isShortEscape a then countMore 2 (escapedSize 0 rest)
    else
      match rdfstoreUtf8IsUtf8 (a :: rest) with
      | some k =>
        if k > 1 then
          countMore (if (rdfstoreUtf8Utf8ToCp k (a :: rest)).getD 0 < 0x10000 then 6 else 7)
            (escapedSize (k - 1) rest)
        else if a = 0 then (0, true)
        else countMore 1 (escapedSize 0 rest)
      | none =>
        let copied := (a :: rest ++ [0]).take (invalidSize a)
        if 0 ∈ copied then ((cstr copied).length, true) else countMore copied.length (escapedSize 0 rest)

theorem cstr_append_of_not_mem {l : Bytes} (h : 0 ∉ l) (r : Bytes) : cstr (l ++ r) = l ++ cstr r := by
  unfold cstr
  refine List.takeWhile_append_of_pos fun c hc => ?_
  rw [decide_eq_true_iff]
  rintro rfl
  exact h hc

theorem cstr_append_of_mem {l : Bytes} (h : 0 ∈ l) (r : Bytes) : cstr (l ++ r) = cstr l := by
  induction l with
  | nil => exact absurd h List.not_mem_nil
  | cons c l ih =>
    unfold cstr at ih ⊢
    rw [List.cons_append]
    by_cases hc : c = 0
    · rw [hc, List.takeWhile_cons_of_neg (by decide), List.takeWhile_cons_of_neg (by decide)]
    · have hmem : 0 ∈ l := (List.mem_cons.1 h).resolve_left fun h => hc h.symm
      rw [List.takeWhile_cons_of_pos (by simpa using hc), List.takeWhile_cons_of_pos (by simpa using hc), ih hmem]

/-- A text up to its first NUL, and whether it has one. -/
def cutSize (text : Bytes) : ℕ × Bool := ((cstr text).length, decide (0 ∈ text))

theorem cutSize_append {l : Bytes} (h : 0 ∉ l) (r : Bytes) : cutSize (l ++ r) = countMore l.length (cutSize r) := by
  unfold cutSize countMore
  rw [cstr_append_of_not_mem h, List.length_append]
  simp [h]

theorem cutSize_append_of_mem {l : Bytes} (h : 0 ∈ l) (r : Bytes) : cutSize (l ++ r) = ((cstr l).length, true) := by
  unfold cutSize
  rw [cstr_append_of_mem h]
  simp [h]

/-- A sequence that fits `es` has six or seven bytes. -/
theorem escapeSequence_short {k cp : ℕ} (h : ¬ (escapeSequence k cp).length ≥ esSize) :
    (escapeSequence k cp).length = (if cp < 0x10000 then 6 else 7) ∧ 0 ∉ escapeSequence k cp := by
  unfold escapeSequence esSize at *
  by_cases hk : k ≤ 4
  · rw [if_pos hk] at h ⊢
    simp only [List.length_cons, length_hexFixed] at h ⊢
    constructor
    · unfold hexWidth at h ⊢
      split_ifs at h ⊢ <;> omega
    · intro hmem
      rw [List.mem_cons, List.mem_cons] at hmem
      obtain hmem | hmem | hmem := hmem
      · exact absurd hmem (by decide)
      · exact absurd hmem (by decide)
      · exact absurd (isHex_of_mem_hexFixed hmem) (by decide)
  · rw [if_neg hk] at h
    simp only [List.length_cons, length_hexFixed] at h
    omega

theorem escapeFrom_short {a : UInt8} (h : isShortEscape a = true) (rest : Bytes) :
    ∃ pair, pair.length = 2 ∧ 0 ∉ pair ∧ escapeFrom 0 (a :: rest) = (escapeFrom 0 rest).map (pair ++ ·) := by
  unfold isShortEscape at h
  simp only [Bool.or_eq_true, decide_eq_true_eq] at h
  rcases h with (((rfl | rfl) | rfl) | rfl) | rfl
  · exact ⟨ascii "\\t", rfl, by decide, rfl⟩
  · exact ⟨ascii "\\n", rfl, by decide, rfl⟩
  · exact ⟨ascii "\\r", rfl, by decide, rfl⟩
  · exact ⟨ascii "\\\\", rfl, by decide, rfl⟩
  · exact ⟨ascii "\\\"", rfl, by decide, rfl⟩

/-- The count is right for every text that is escaped. -/
theorem escapedSize_eq {skip : ℕ} {s es : Bytes} (h : escapeFrom skip s = some es) :
    escapedSize skip s = cutSize es := by
  induction s generalizing skip es with
  | nil =>
    rw [escapeFrom] at h
    cases h
    rfl
  | cons a rest ih =>
    cases skip with
    | succ skip => exact ih h
    | zero =>
      by_cases hshort : isShortEscape a = true
      · obtain ⟨pair, hlen, hnul, hescape⟩ := escapeFrom_short hshort rest
        rw [hescape] at h
        obtain ⟨es', hes', rfl⟩ := Option.map_eq_some_iff.1 h
        rw [escapedSize, if_pos hshort, ih hes', cutSize_append hnul, hlen]
      · have hlong := Bool.eq_false_iff.2 hshort
        unfold isShortEscape at hlong
        simp only [Bool.or_eq_false_iff, decide_eq_false_iff_not] at hlong
        obtain ⟨⟨⟨⟨h1, h2⟩, h3⟩, h4⟩, h5⟩ := hlong
        rw [escapeFrom, if_neg h1, if_neg h2, if_neg h3, if_neg h4, if_neg h5] at h
        rw [escapedSize, if_neg hshort]
        cases hutf8 : rdfstoreUtf8IsUtf8 (a :: rest) with
        | some k =>
          simp only [hutf8] at h ⊢
          by_cases hk : k > 1
          · rw [if_pos hk] at h ⊢
            cases hcp : rdfstoreUtf8Utf8ToCp k (a :: rest) with
            | none =>
              rw [hcp] at h
              cases h
            | some cp =>
              simp only [hcp] at h ⊢
              by_cases hes : (escapeSequence k cp).length ≥ esSize
              · rw [if_pos hes] at h
                cases h
              · rw [if_neg hes] at h
                obtain ⟨es', hes', rfl⟩ := Option.map_eq_some_iff.1 h
                obtain ⟨hlen, hnul⟩ := escapeSequence_short hes
                rw [ih hes', cutSize_append hnul, hlen, Option.getD_some]
          · rw [if_neg hk] at h ⊢
            obtain ⟨es', hes', rfl⟩ := Option.map_eq_some_iff.1 h
            by_cases ha : a = 0
            · rw [if_pos ha, ha]
              exact (cutSize_append_of_mem (l := [0]) List.mem_cons_self es').symm
            · rw [if_neg ha, ih hes']
              exact (cutSize_append (l := [a]) (by simpa using fun h => ha h.symm) es').symm
        | none =>
          simp only [hutf8] at h ⊢
          by_cases hbehind : invalidSize a ≤ rest.length + 2
          · rw [if_pos hbehind] at h
            obtain ⟨es', hes', rfl⟩ := Option.map_eq_some_iff.1 h
            by_cases hnul : 0 ∈ (a :: rest ++ [0]).take (invalidSize a)
            · rw [if_pos hnul, cutSize_append_of_mem hnul]
            · rw [if_neg hnul, ih hes', cutSize_append hnul]
          · rw [if_neg hbehind] at h
            cases h

/-! ## Fields -/

/-- A field as `rdfstore_ntriples_statement` copies it, when the buffer of the node is left out of account. -/
def textField (node : Node) : Option Bytes := (nodeText node).map fun text => cstr text ++ ascii " "

theorem textField_of_field {node : Node} {f : Bytes} (h : field node = some f) : textField node = some f := by
  obtain ⟨text, hnode, -, rfl⟩ := field_eq_some_iff.1 h
  unfold textField
  rw [hnode]
  rfl

/-- The closing byte and what follows it, when no NUL stands before. -/
def closed (p : ℕ × Bool) (tail : ℕ) : ℕ := p.1 + (if p.2 then 0 else tail)

/-- The bytes of a field: the text of the node up to its first NUL and a blank. -/
def fieldSize : Node → ℕ
  | .resource r =>
    if r.bnode then 2 + (cstr r.bytes).length + 1 else 1 + closed (escapedSize 0 r.bytes) 1 + 1
  | .literal l => 1 + closed (escapedSize 0 l.bytes) (1 + suffixRoom l) + 1

/-- A quoted text up to its first NUL. -/
theorem length_cstr_quoted {q : UInt8} (hq : q ≠ 0) {s es : Bytes} (h : escape s = some es) {tail : Bytes}
    (htail : 0 ∉ tail) : (cstr (q :: (es ++ tail))).length = 1 + closed (escapedSize 0 s) tail.length := by
  have hquote : cstr (q :: (es ++ tail)) = q :: cstr (es ++ tail) :=
    cstr_append_of_not_mem (l := [q]) (by simpa using fun h => hq h.symm) (es ++ tail)
  rw [escapedSize_eq h, hquote, List.length_cons, Nat.add_comm]
  unfold closed cutSize
  congr 1
  by_cases hes : 0 ∈ es
  · rw [cstr_append_of_mem hes, decide_eq_true hes, if_pos rfl, Nat.add_zero]
  · rw [cstr_append_of_not_mem hes, decide_eq_false hes, cstr_of_not_mem htail, cstr_of_not_mem hes]
    exact List.length_append

theorem length_textField {node : Node} {f : Bytes} (h : textField node = some f) : f.length = fieldSize node := by
  obtain ⟨text, hnode, rfl⟩ := Option.map_eq_some_iff.1 h
  rw [List.length_append]
  show _ + 1 = _
  cases node with
  | resource r =>
    cases hid : r.identifier with
    | none =>
      simp only [nodeText, hid] at hnode
      cases hnode
    | some identifier =>
      have hbytes : r.bytes = identifier.bytes := by
        rw [Resource.bytes, hid]
        rfl
      simp only [nodeText, hid] at hnode
      dsimp only [fieldSize]
      by_cases hbnode : r.bnode = true
      · rw [if_pos hbnode] at hnode ⊢
        cases hnode
        have hcstr : cstr (ascii "_:" ++ identifier.bytes) = ascii "_:" ++ cstr identifier.bytes :=
          cstr_append_of_not_mem (by decide) identifier.bytes
        rw [hcstr, List.length_append, hbytes]
        rfl
      · rw [if_neg hbnode] at hnode ⊢
        obtain ⟨es, hes, rfl⟩ := Option.map_eq_some_iff.1 hnode
        rw [hbytes]
        congr 1
        have hquoted := length_cstr_quoted (q := 0x3c) (by decide) hes (show 0 ∉ ascii ">" by decide)
        rw [← List.singleton_append, ← List.append_assoc] at hquoted
        exact hquoted
  | literal l =>
    obtain ⟨es, hes, rfl⟩ := Option.map_eq_some_iff.1 hnode
    dsimp only [fieldSize]
    congr 1
    have htail : 0 ∉ ascii "\"" ++ literalSuffix l := by
      rw [List.mem_append, not_or]
      exact ⟨by decide, zero_not_mem_suffix l⟩
    have hquoted := length_cstr_quoted (q := 0x22) (by decide) hes htail
    rw [← List.singleton_append, ← List.append_assoc, List.length_append, length_literalSuffix,
      ← List.append_assoc] at hquoted
    exact hquoted

/-! ## Room -/

theorem invalidSize_le (a : UInt8) : invalidSize a ≤ 10 := by
  have hall : ∀ n < 256, invalidSize n.toUInt8 ≤ 10 := by decide +kernel
  exact forall_byte (p := fun a => invalidSize a ≤ 10) hall a

/-- No more than ten bytes are written for one. -/
theorem escapedSize_le (skip : ℕ) (s : Bytes) : (escapedSize skip s).1 ≤ s.length * escapeRoom := by
  have hroom : ∀ n, (n + 1) * escapeRoom = n * escapeRoom + 10 := fun n => Nat.succ_mul n 10
  induction s generalizing skip with
  | nil => exact Nat.zero_le _
  | cons a rest ih =>
    rw [List.length_cons, hroom]
    cases skip with
    | succ skip => exact (ih skip).trans (Nat.le_add_right _ _)
    | zero =>
      have hmore : ∀ n skip, n ≤ 10 → (countMore n (escapedSize skip rest)).1 ≤ rest.length * escapeRoom + 10 := by
        intro n skip hn
        have hrest := ih skip
        show n + _ ≤ _
        omega
      rw [escapedSize]
      by_cases hshort : isShortEscape a = true
      · rw [if_pos hshort]
        exact hmore 2 0 (by omega)
      rw [if_neg hshort]
      cases hutf8 : rdfstoreUtf8IsUtf8 (a :: rest) with
      | some k =>
        dsimp only
        split_ifs
        · exact hmore 6 _ (by omega)
        · exact hmore 7 _ (by omega)
        · exact Nat.zero_le _
        · exact hmore 1 0 (by omega)
      | none =>
        dsimp only
        have hcopied : ((a :: rest ++ [0]).take (invalidSize a)).length ≤ 10 :=
          (List.length_take_le _ _).trans (invalidSize_le a)
        split_ifs
        · have hcut : (cstr ((a :: rest ++ [0]).take (invalidSize a))).length ≤ _ :=
            (List.takeWhile_prefix _).length_le
          dsimp only
          omega
        · exact hmore _ 0 hcopied

/-! ## Statements -/

/-- The terms of a statement and what may come with them. -/
structure StatementParts where
  subject : Resource
  predicate : Resource
  object : Node
  context : Option Resource
  reified : Option Resource

/-- The tests at the start of `rdfstore_ntriples_statement`. -/
def statementParts (st : Statement) (givenContext : Option Resource) : Option StatementParts := do
  let subject ← st.subject
  let predicate ← st.predicate
  let object ← st.object
  if (st.node.map (·.identifier)) = some none then none
  return ⟨subject, predicate, object, givenContext <|> st.context, reifiedNode st⟩

namespace StatementParts

variable (x : StatementParts)

/-- What `rdfstore_ntriples_statement` writes before the final NUL, into a buffer of any size. -/
def text : Option Bytes := do
  let s ← textField (.resource x.subject)
  let p ← textField (.resource x.predicate)
  let o ← textField x.object
  let c ← x.context.elim (some []) fun context => textField (.resource context)
  let reification ← x.reified.elim (some []) fun node =>
    (textField (.resource node)).map fun n => reificationLines n s p o
  return s ++ p ++ o ++ c ++ ascii ". " ++ reification

/-- What a field leaves of the room for it; less than nothing when it is too long. -/
def spare (room : ℕ) (node : Node) : ℤ := (room : ℤ) - fieldSize node

def termsSpare : ℤ :=
  spare (resourceRoom x.subject) (.resource x.subject) + spare (resourceRoom x.predicate) (.resource x.predicate) +
    spare (objectRoom x.object) x.object

/-- The same of a context or of the node of a statement, for which escape sequences are not reckoned with. -/
def plainSpare (r : Resource) : ℤ := spare (r.bytes.length + 4) (.resource r)

/-- What is left over of the whole buffer. -/
def leftOver : ℤ :=
  x.termsSpare + x.context.elim 0 plainSpare +
    x.reified.elim 0 fun node => x.termsSpare + 4 * plainSpare node - 7

theorem length_reificationLines (node s p o : Bytes) :
    (reificationLines node s p o).length = 4 * node.length + (rdfmsType.length + rdfmsStatement.length +
      rdfmsSubject.length + rdfmsPredicate.length + rdfmsObject.length) + s.length + p.length + o.length + 27 := by
  have hline : (ascii "\n").length = 1 := rfl
  have hstop : (ascii ". \n").length = 3 := rfl
  have hend : (ascii ". ").length = 2 := rfl
  unfold reificationLines
  simp only [List.length_append, length_uriField, hline, hstop, hend]
  omega

/-- The fields of the context and of the lines about the reified statement. -/
theorem length_of_contextField {context : Option Resource} {c : Bytes}
    (h : context.elim (some []) (fun context => textField (.resource context)) = some c) :
    (contextRoom context : ℤ) - c.length = context.elim 0 plainSpare := by
  cases context with
  | none =>
    cases h
    rfl
  | some context =>
    have hlen := length_textField h
    show ((context.bytes.length + 4 : ℕ) : ℤ) - c.length = ((context.bytes.length + 4 : ℕ) : ℤ) - fieldSize _
    rw [hlen]

theorem length_of_reification {reified : Option Resource} {s p o lines : Bytes}
    (h : reified.elim (some []) (fun node =>
      (textField (.resource node)).map fun n => reificationLines n s p o) = some lines) (sRoom pRoom oRoom : ℕ) :
    ((reified.elim 0 fun node => reificationRoom node sRoom pRoom oRoom : ℕ) : ℤ) - lines.length =
      reified.elim 0 fun node => ((sRoom : ℤ) - s.length + ((pRoom : ℤ) - p.length) + ((oRoom : ℤ) - o.length)) +
        4 * plainSpare node - 7 := by
  cases reified with
  | none =>
    cases h
    rfl
  | some node =>
    obtain ⟨n, hn, rfl⟩ := Option.map_eq_some_iff.1 h
    have hlen := length_textField hn
    show ((reificationRoom node sRoom pRoom oRoom : ℕ) : ℤ) - (reificationLines n s p o).length = _
    rw [length_reificationLines, hlen]
    unfold reificationRoom plainSpare spare
    simp only [Option.elim_some]
    omega

/-- Every byte is accounted for in both sums. -/
theorem room_sub_length {st : Statement} (hreified : x.reified = reifiedNode st) {text : Bytes}
    (h : x.text = some text) :
    (statementRoom st x.context x.subject x.predicate x.object : ℤ) - (text.length + 1) = x.leftOver := by
  unfold StatementParts.text at h
  simp only [Option.bind_eq_bind, Option.bind_eq_some_iff, Option.pure_def, Option.some.injEq] at h
  obtain ⟨s, hs, p, hp, o, ho, c, hc, lines, hlines, rfl⟩ := h
  have hstop : (ascii ". ").length = 2 := rfl
  have hsubject := length_textField hs
  have hpredicate := length_textField hp
  have hobject := length_textField ho
  have hcontext := length_of_contextField hc
  have hlen := length_of_reification hlines (resourceRoom x.subject) (resourceRoom x.predicate) (objectRoom x.object)
  have hroom : statementRoom st x.context x.subject x.predicate x.object =
      resourceRoom x.subject + resourceRoom x.predicate + objectRoom x.object + contextRoom x.context + 3 +
        x.reified.elim 0 fun node =>
          reificationRoom node (resourceRoom x.subject) (resourceRoom x.predicate) (objectRoom x.object) := by
    unfold statementRoom
    rw [← hreified]
    cases x.reified with
    | none => rfl
    | some node => rfl
  unfold leftOver termsSpare spare
  rw [hroom, ← hcontext, ← hsubject, ← hpredicate, ← hobject, ← hlen]
  simp only [List.length_append, hstop]
  push_cast
  omega

/-- The terms leave room of their own, but for a literal without a string. -/
theorem termsSpare_pos (h : ∀ l, x.object = .literal l → l.string ≠ none) : 3 ≤ x.termsSpare := by
  have hclosed : ∀ (s : Bytes) (tail : ℕ), closed (escapedSize 0 s) tail ≤ s.length * escapeRoom + tail := by
    intro s tail
    have hle := escapedSize_le 0 s
    unfold closed
    split_ifs <;> omega
  have hresource : ∀ r : Resource, 1 ≤ spare (resourceRoom r) (.resource r) := by
    intro r
    have hcut : (cstr r.bytes).length ≤ r.bytes.length := (List.takeWhile_prefix _).length_le
    have hescaped := hclosed r.bytes 1
    unfold spare resourceRoom
    dsimp only [fieldSize]
    split_ifs
    · omega
    · omega
  have hobject : 1 ≤ spare (objectRoom x.object) x.object := by
    cases hx : x.object with
    | resource r => exact hresource r
    | literal l =>
      cases hstring : l.string with
      | none => exact absurd hstring (h l hx)
      | some string =>
        have hbytes : l.bytes = string.bytes := by
          rw [Literal.bytes, hstring]
          rfl
        have hescaped := hclosed l.bytes (1 + suffixRoom l)
        unfold spare objectRoom
        simp only [fieldSize, hstring]
        rw [hbytes] at hescaped ⊢
        omega
  have hsubject := hresource x.subject
  have hpredicate := hresource x.predicate
  unfold termsSpare
  omega

end StatementParts

/-! ## The size -/

theorem statementParts_eq_some_iff {st : Statement} {givenContext : Option Resource} {x : StatementParts} :
    statementParts st givenContext = some x ↔
      st.subject = some x.subject ∧ st.predicate = some x.predicate ∧ st.object = some x.object ∧
        ¬ st.node.map (·.identifier) = some none ∧ x.context = (givenContext <|> st.context) ∧
        x.reified = reifiedNode st := by
  unfold statementParts
  simp only [Option.bind_eq_bind, Option.bind_eq_some_iff]
  constructor
  · rintro ⟨subject, hs, predicate, hp, object, ho, hrest⟩
    by_cases hnode : st.node.map (·.identifier) = some none
    · rw [if_pos hnode] at hrest
      cases hrest
    · rw [if_neg hnode] at hrest
      cases hrest
      exact ⟨hs, hp, ho, hnode, rfl, rfl⟩
  · rintro ⟨hs, hp, ho, hnode, hcontext, hreified⟩
    refine ⟨_, hs, _, hp, _, ho, ?_⟩
    rw [if_neg hnode, ← hcontext, ← hreified]
    rfl

/-- What the code writes is the text of the parts. -/
theorem text_of_written {st : Statement} {givenContext : Option Resource} {line : Bytes}
    (h : rdfstoreNtriplesStatement st givenContext = some line) :
    ∃ x, statementParts st givenContext = some x ∧ x.text = some line ∧ 0 ≤ x.leftOver := by
  unfold rdfstoreNtriplesStatement at h
  simp only [Option.bind_eq_bind, Option.bind_eq_some_iff] at h
  obtain ⟨subject, hs, predicate, hp, object, ho, hrest⟩ := h
  by_cases hnode : st.node.map (·.identifier) = some none
  · rw [if_pos hnode] at hrest
    cases hrest
  rw [if_neg hnode] at hrest
  simp only [Option.bind_eq_some_iff] at hrest
  obtain ⟨s, hfs, p, hfp, o, hfo, c, hfc, lines, hlines, hfits⟩ := hrest
  obtain ⟨⟨hle, -⟩, rfl⟩ := written_eq_some_iff.1 hfits
  have hcontext : (givenContext <|> st.context).elim (some []) (fun context => textField (.resource context)) =
      some c := by
    cases hgiven : (givenContext <|> st.context) with
    | none =>
      simp only [hgiven] at hfc
      exact hfc
    | some context =>
      simp only [hgiven] at hfc
      exact textField_of_field hfc
  have hreified : (reifiedNode st).elim (some []) (fun node =>
      (textField (.resource node)).map fun n => reificationLines n s p o) = some lines := by
    cases hnode' : reifiedNode st with
    | none =>
      simp only [hnode'] at hlines
      exact hlines
    | some node =>
      simp only [hnode'] at hlines
      obtain ⟨n, hn, rfl⟩ := Option.map_eq_some_iff.1 hlines
      rw [Option.elim_some, textField_of_field hn]
      rfl
  have htext : StatementParts.text ⟨subject, predicate, object, givenContext <|> st.context, reifiedNode st⟩ =
      some (s ++ p ++ o ++ c ++ ascii ". " ++ lines) := by
    unfold StatementParts.text
    rw [textField_of_field hfs, textField_of_field hfp, textField_of_field hfo, hcontext]
    simp only [Option.bind_eq_bind, Option.bind_some, hreified]
    rfl
  refine ⟨_, statementParts_eq_some_iff.2 ⟨hs, hp, ho, hnode, rfl, rfl⟩, htext, ?_⟩
  have hroom := StatementParts.room_sub_length _ rfl htext
  dsimp only at hroom
  omega

/-- Without a context or a node that is escaped the buffer is large enough. -/
theorem statement_fits_of_plain {st : Statement} {x : StatementParts} {text : Bytes} (hreified : x.reified = reifiedNode st)
    (htext : x.text = some text) (hstring : ∀ l, x.object = .literal l → l.string ≠ none)
    (hcontext : ∀ c ∈ x.context, 0 ≤ StatementParts.plainSpare c)
    (hnode : ∀ n ∈ x.reified, 1 ≤ StatementParts.plainSpare n) :
    text.length + 1 ≤ statementRoom st x.context x.subject x.predicate x.object := by
  have hroom := x.room_sub_length hreified htext
  have hterms := x.termsSpare_pos hstring
  have hspare : 0 ≤ x.leftOver := by
    have hc : 0 ≤ x.context.elim 0 StatementParts.plainSpare := by
      cases hx : x.context with
      | none => exact le_refl _
      | some c => exact hcontext c hx
    unfold StatementParts.leftOver
    cases hx : x.reified with
    | none =>
      rw [Option.elim_none]
      omega
    | some node =>
      have hn := hnode node hx
      rw [Option.elim_some]
      omega
  omega

/-- The buffer holds what is written for a statement, when its size is one for C's `int`, if and only if the
terms leave what the context and four times the reified node need beyond their lengths. -/
theorem statement_fits_iff {st : Statement} {givenContext : Option Resource} {x : StatementParts} {text : Bytes}
    (hx : statementParts st givenContext = some x) (htext : x.text = some text) :
    written text (statementRoom st x.context x.subject x.predicate x.object) = some text ↔
      0 ≤ x.leftOver ∧ statementRoom st x.context x.subject x.predicate x.object < 2 ^ 31 := by
  have hreified := (statementParts_eq_some_iff.1 hx).2.2.2.2.2
  have hroom := x.room_sub_length hreified htext
  rw [written_eq_some_iff, and_iff_left rfl]
  omega

/-- `_:a <p> _:b`, with nothing cached. -/
def smallStatement : Statement :=
  ⟨some ⟨some ⟨ascii "a", by decide⟩, true, 0⟩, some ⟨some ⟨ascii "p", by decide⟩, false, 0⟩,
    some (.resource ⟨some ⟨ascii "b", by decide⟩, true, 0⟩), none, none, 0, false⟩

def smallParts (context : Option Resource) : StatementParts :=
  ⟨⟨some ⟨ascii "a", by decide⟩, true, 0⟩, ⟨some ⟨ascii "p", by decide⟩, false, 0⟩,
    .resource ⟨some ⟨ascii "b", by decide⟩, true, 0⟩, context, none⟩

theorem statement_fits_iff_small :
    (statementParts smallStatement none = some (smallParts none) ∧
      (smallParts none).text = some (ascii "_:a <p> _:b . ")) ∧
    (written (ascii "_:a <p> _:b . ") (statementRoom smallStatement none (smallParts none).subject
        (smallParts none).predicate (smallParts none).object) = some (ascii "_:a <p> _:b . ") ↔
      0 ≤ (smallParts none).leftOver ∧ statementRoom smallStatement none (smallParts none).subject
        (smallParts none).predicate (smallParts none).object < 2 ^ 31) :=
  have hparts : statementParts smallStatement none = some (smallParts none) := rfl
  have htext : (smallParts none).text = some (ascii "_:a <p> _:b . ") := by decide +kernel
  ⟨⟨hparts, htext⟩, statement_fits_iff hparts htext⟩

/-- A context of four letters of two bytes each. -/
def acuteContext : Resource := ⟨some ⟨[0xC3, 0xA9, 0xC3, 0xA9, 0xC3, 0xA9, 0xC3, 0xA9], by decide⟩, false, 0⟩

/-- It is written in twenty-four bytes where there is room for eight. -/
theorem context_outgrows_buffer : ¬ ∀ st givenContext x text, statementParts st givenContext = some x →
    x.text = some text → text.length + 1 ≤ statementRoom st x.context x.subject x.predicate x.object := by
  intro h
  have hle := h smallStatement (some acuteContext) (smallParts (some acuteContext))
    (ascii "_:a <p> _:b <\\u00E9\\u00E9\\u00E9\\u00E9> . ") rfl (by decide +kernel)
  exact absurd hle (by decide +kernel)

end RdfStore.NTriples
