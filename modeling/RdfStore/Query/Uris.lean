import RdfStore.Query.Joins

/-!
# URIs in place of variables

A URI that is put in place of a variable is read again by the search: it is the
same URI when it has no white space and does not begin with a declared prefix.

    what is read again            (uris_reparse)
-/

namespace RdfStore.Query

open ByteMem

variable {prefixes : Bytes → Option Bytes}

/-! ## Texts of URIs -/

/-- `scheme:…` without white space or a NUL, whose scheme is no declared prefix. -/
structure PlainUri (prefixes : Bytes → Option Bytes) (s : Bytes) : Prop where
  scheme : s.takeWhile (· ≠ 0x3a) ≠ []
  behind : (s.dropWhile (· ≠ 0x3a)).tail ≠ []
  closing : 0x3e ∉ s
  nul : 0 ∉ s
  white : ∀ a ∈ s, NTriples.isWhite a = false
  undeclared : prefixes (s.takeWhile (· ≠ 0x3a)) = none
  bnode : bnodeLabel s = none

theorem PlainUri.ne_nil {s : Bytes} (h : PlainUri prefixes s) : s ≠ [] := by
  rintro rfl
  exact h.scheme rfl

theorem splitCommas_eq (n : ℕ) (field : Bytes) {s : Bytes} (h : ∀ a ∈ s, NTriples.isWhite a = false) :
    splitCommas n field s = [field ++ s] := by
  induction s generalizing n field with
  | nil => cases n <;> simp [splitCommas]
  | cons a s ih =>
    rw [List.forall_mem_cons] at h
    cases n with
    | zero => rfl
    | succ n =>
      rw [splitCommas, h.1, if_neg Bool.false_ne_true, ih n _ h.2]
      simp

theorem splitOred_eq {s : Bytes} (hne : s ≠ []) (h : ∀ a ∈ s, NTriples.isWhite a = false) : splitOred s = [s] := by
  rw [splitOred, splitCommas_eq _ _ h]
  simp [hne]

theorem chomp_of_not_mem {s : Bytes} (h : 0x0a ∉ s) : chomp s = s := by
  refine if_neg fun hlast => h ?_
  exact List.mem_of_getLast? hlast

/-- A text with a colon is a true one. -/
theorem createResource_eq {s : Bytes} (hcolon : 0x3a ∈ s) (hnul : 0 ∉ s) : createResource s = some (.resource s) := by
  have hne : s ≠ [] := List.ne_nil_of_mem hcolon
  have hzero : s ≠ ascii "0" := by
    rintro rfl
    exact absurd hcolon (by decide)
  rw [createResource, cstr_of_not_mem hnul, if_neg (by simp [hne, hzero])]

theorem qualifiedTerm_uri {s : Bytes} (h : PlainUri prefixes s) : qualifiedTerm prefixes s = some (.resource s) := by
  have hbehind := h.behind
  have hchomp : chomp s = s := chomp_of_not_mem fun hmem => absurd (h.white 0x0a hmem) (by decide)
  have hline : 0x0a ∉ (s.dropWhile (· ≠ 0x3a)).tail := by
    intro hmem
    have hwhite := h.white 0x0a ((List.dropWhile_suffix _).mem (List.mem_of_mem_tail hmem))
    exact absurd hwhite (by decide)
  rw [qualifiedTerm, hchomp]
  cases hdrop : s.dropWhile (· ≠ 0x3a) with
  | nil =>
    rw [hdrop] at hbehind
    exact absurd rfl hbehind
  | cons a behind =>
    rw [hdrop, List.tail_cons] at hline
    have hcolon : 0x3a ∈ s := by
      by_contra hmem
      have hnil : s.dropWhile (· ≠ 0x3a) = [] := by
        rw [List.dropWhile_eq_nil_iff]
        intro b hb
        exact decide_eq_true fun heq => hmem (heq ▸ hb)
      rw [hnil] at hdrop
      cases hdrop
    simp only [h.bnode, h.undeclared]
    rw [if_neg (not_or.2 ⟨h.scheme, hline⟩), createResource_eq hcolon h.nul]

theorem component_uri {s : Bytes} (h : PlainUri prefixes s) :
    component prefixes (0x3c :: (s ++ [0x3e])) = .terms [.resource s] := by
  have hqualified : isQualified s = true := by
    simp only [isQualified, Bool.and_eq_true, decide_eq_true_eq, Bool.not_eq_true', List.contains_eq_mem,
      decide_eq_false_iff_not]
    exact ⟨⟨h.scheme, h.behind⟩, fun hmem => h.closing ((List.dropWhile_suffix _).mem (List.mem_of_mem_tail hmem))⟩
  have hinner : (0x3c :: (s ++ [0x3e])).tail.dropLast = s := by simp
  have hlast : (0x3c :: (s ++ [0x3e]) : Bytes).getLast? = some 0x3e := by
    rw [← List.cons_append, List.getLast?_concat]
  rw [component, if_neg (by simp [isVariable])]
  simp only [hinner, hlast, hqualified, List.head?_cons, List.length_cons, List.length_append]
  rw [if_pos ⟨⟨trivial, trivial, by simp⟩, trivial⟩, splitOred_eq h.ne_nil h.white]
  simp [qualifiedTerm_uri h]

/-! ## Values -/

/-- A node that is such a URI. -/
def IsPlainUri (prefixes : Bytes → Option Bytes) (n : Node) : Prop :=
  ∃ r, n = .resource r ∧ r.bnode = false ∧ PlainUri prefixes r.bytes

theorem valueText_uri {r : Resource} (hbnode : r.bnode = false) (hnul : 0 ∉ r.bytes) (j : ℕ) :
    valueText (some (.resource r)) j = some (0x3c :: (r.bytes ++ [0x3e])) := by
  simp [valueText, resourceText, hbnode, Node.toString, cstr_of_not_mem hnul]

theorem uri_denotes_iff {r r' : Resource} (hbnode : r'.bnode = false) :
    (Term.resource r.bytes).denotes (.resource r') = true ↔ r'.bytes = r.bytes := by
  simp [Term.denotes, hbnode]

/-- **Where the nodes are such URIs**, and nodes with one text are one node, the texts stand for their values. -/
theorem uris_reparse {facts : List Fact} (huri : ∀ f ∈ facts, ∀ i, ∀ n ∈ f.part i, IsPlainUri prefixes n)
    (hsame : ∀ f ∈ facts, ∀ g ∈ facts, ∀ i j, ∀ r r', f.part i = some (.resource r) → g.part j = some (.resource r') →
      r.bytes = r'.bytes → r = r') (patterns : List TriplePattern) : Reparses prefixes facts patterns := by
  intro t t' _ e _ e' _ _ _ f hf u hu
  cases hpart : f.part e.2 with
  | none =>
    rw [hpart] at hu
    cases hu
  | some n =>
    obtain ⟨r, rfl, hbnode, hplain⟩ := huri f hf e.2 n hpart
    rw [hpart, valueText_uri hbnode hplain.nul, Option.some.injEq] at hu
    refine ⟨[.resource r.bytes], hu ▸ component_uri hplain, by simp, fun g hg => ?_⟩
    cases hgpart : g.part e'.2 with
    | none => simp
    | some m =>
      obtain ⟨r', rfl, hbnode', -⟩ := huri g hg e'.2 m hgpart
      rw [Option.map_some, Option.getD_some, List.any_cons, List.any_nil, Bool.or_false, uri_denotes_iff hbnode']
      constructor
      · intro hbytes
        rw [hsame g hg f hf _ _ r' r hgpart hpart hbytes]
      · intro heq
        cases heq
        rfl

/-! ## Small stores -/

/-- The statements of a list, found one after the other. -/
def listStore (facts : List Fact) (h : facts.Nodup) : Store where
  facts := facts
  nodup := h
  hasWords := fun _ _ => false
  find := fun q => facts.filter (q.fits fun _ _ => false)
  find_perm := fun _ => .refl _

/-- `u:` and one byte. -/
def urn (c : UInt8) : Resource := ⟨some ⟨[0x75, 0x3a, c], by simp⟩, false, 0⟩

def urnFact (s p o : UInt8) : Fact := ⟨urn s, urn p, .resource (urn o), none⟩

/-- `<u:…>` -/
def urnText (c : UInt8) : Bytes := [0x3c, 0x75, 0x3a, c, 0x3e]

def Visible (c : UInt8) : Prop := c ≠ 0x3e ∧ c ≠ 0 ∧ NTriples.isWhite c = false

instance (c : UInt8) : Decidable (Visible c) := inferInstanceAs (Decidable (_ ∧ _ ∧ _))

theorem urn_plain {c : UInt8} (h : Visible c) : PlainUri (fun _ => none) (urn c).bytes := by
  obtain ⟨hclosing, hnul, hwhite⟩ := h
  have hbytes : (urn c).bytes = [0x75, 0x3a, c] := rfl
  rw [hbytes]
  refine ⟨by simp, ?_, ?_, ?_, ?_, rfl, ?_⟩
  · simp [List.dropWhile]
  · simpa using Ne.symm hclosing
  · simpa using Ne.symm hnul
  · simp only [List.forall_mem_cons, List.not_mem_nil, false_implies, implies_true, and_true]
    exact ⟨by decide, by decide, hwhite⟩
  · have hline : 0x0a ∉ ([0x75, 0x3a, c] : Bytes) := by
      have hc : c ≠ 0x0a := by
        rintro rfl
        cases hwhite
      simpa using hc.symm
    rw [bnodeLabel, chomp_of_not_mem hline]
    rfl

theorem urns_part {facts : List Fact}
    (h : ∀ f ∈ facts, ∃ s p o, f = urnFact s p o ∧ Visible s ∧ Visible p ∧ Visible o) :
    ∀ f ∈ facts, ∀ i, ∀ n ∈ f.part i, ∃ c, n = .resource (urn c) ∧ Visible c := by
  intro f hf i n hn
  obtain ⟨s, p, o, rfl, hs, hp, ho⟩ := h f hf
  rcases i with _ | _ | _ | i
  · exact ⟨s, (Option.some.inj hn).symm, hs⟩
  · exact ⟨p, (Option.some.inj hn).symm, hp⟩
  · exact ⟨o, (Option.some.inj hn).symm, ho⟩
  · cases hn

theorem urns_part_plain {facts : List Fact}
    (h : ∀ f ∈ facts, ∃ s p o, f = urnFact s p o ∧ Visible s ∧ Visible p ∧ Visible o) :
    ∀ f ∈ facts, ∀ i, ∀ n ∈ f.part i, IsPlainUri (fun _ => none) n := by
  intro f hf i n hn
  obtain ⟨c, rfl, hc⟩ := urns_part h f hf i n hn
  exact ⟨urn c, rfl, rfl, urn_plain hc⟩

theorem urns_reparse {facts : List Fact}
    (h : ∀ f ∈ facts, ∃ s p o, f = urnFact s p o ∧ Visible s ∧ Visible p ∧ Visible o) (patterns : List TriplePattern) :
    Reparses (fun _ => none) facts patterns := by
  refine uris_reparse (urns_part_plain h) (fun f hf g hg i j r r' hr hr' heq => ?_) patterns
  obtain ⟨c, hc, -⟩ := urns_part h f hf i _ hr
  obtain ⟨d, hd, -⟩ := urns_part h g hg j _ hr'
  cases hc
  cases hd
  have hcd : c = d := by simpa [Resource.bytes, urn] using heq
  rw [hcd]

end RdfStore.Query
