import RdfStore.Utf8

/-!
# What is recognised as UTF-8 (`rdfstore_utf8.c`)

A comment of the source gives the well-formed sequences as a table: the bytes that
may stand at each place, and the code points that they are.  The function knows
lead bytes, bytes behind them and shortest forms only, and recognises whatever is
written for a 31-bit code point.

    the bytes are recognised, n of them  ↔  they begin with the n bytes of a 31-bit code point    (isUtf8_eq_some_iff)
    a row of the table matches           ↔  they begin with one of its code points                (Utf8Row.matches_iff)
    the answer is that of the table      ↔  no row of `acceptedBesides` matches                   (agreesWithTable_iff)
-/

namespace RdfStore

open ByteMem

/-! ## What is recognised -/

theorem exists_continuation {y : UInt8} (h : isContinuation y = true) : ∃ x < 64, y = (0x80 + x).toUInt8 := by
  simp only [isContinuation, Bool.and_eq_true, decide_eq_true_eq, UInt8.le_iff_toNat_le, UInt8.reduceToNat] at h
  refine ⟨y.toNat - 0x80, by omega, ?_⟩
  rw [Nat.add_sub_cancel' h.1]
  exact (UInt8.ofNat_toNat).symm

/-- The value read over `k` bytes has these bytes. -/
theorem utf8Tail_eq_some {k b v : Nat} {rest : Bytes} (h : utf8Tail k rest b = some v) :
    (∃ rest', rest = utf8Continuations k v ++ rest') ∧ v / 64 ^ k = b := by
  induction k generalizing b rest with
  | zero =>
    cases h
    exact ⟨⟨rest, rfl⟩, by rw [Nat.pow_zero, Nat.div_one]⟩
  | succ k ih =>
    cases rest with
    | nil => cases h
    | cons y rest =>
      have hy : isContinuation y = true := by
        by_contra hno
        rw [utf8Tail, List.headD_cons, Bool.eq_false_of_not_eq_true hno] at h
        cases h
      obtain ⟨x, hx, rfl⟩ := exists_continuation hy
      rw [utf8Tail_cont hx] at h
      obtain ⟨⟨rest', rfl⟩, hv⟩ := ih h
      have hbits := bits_succ v k
      rw [hv] at hbits
      have hmod : v / 64 ^ k % 64 = x := by
        rw [hv]
        omega
      exact ⟨⟨rest', by rw [utf8Continuations, hmod, List.cons_append]⟩, by omega⟩

/-- Every lead byte is a mark and bits. -/
theorem exists_mark {a : UInt8} (hlo : 0xc0 ≤ a) (hhi : a ≤ 0xfd) :
    ∃ k x, 1 ≤ k ∧ k ≤ 5 ∧ x < 2 ^ (6 - k) ∧ a = (utf8Mark k + x).toUInt8 := by
  have h : ∀ n < 256, 0xc0 ≤ n → n ≤ 0xfd →
      1 ≤ utf8ToSkip n.toUInt8 - 1 ∧ utf8ToSkip n.toUInt8 - 1 ≤ 5 ∧
        (n.toUInt8 &&& utf8Mask (utf8ToSkip n.toUInt8)).toNat < 2 ^ (6 - (utf8ToSkip n.toUInt8 - 1)) ∧
        utf8Mark (utf8ToSkip n.toUInt8 - 1) + (n.toUInt8 &&& utf8Mask (utf8ToSkip n.toUInt8)).toNat = n := by
    decide +kernel
  have ha : a.toNat.toUInt8 = a := UInt8.ofNat_toNat
  obtain ⟨h1, h2, h3, h4⟩ := h a.toNat a.toNat_lt hlo hhi
  refine ⟨_, _, h1, h2, h3, ?_⟩
  rw [h4, ha]

/-- The shortest form has the length that the lead byte says. -/
theorem utf8Width_of_length {k c : Nat} (h1 : 1 ≤ k) (h2 : k ≤ 5) (hbits : c / 64 ^ k < 2 ^ (6 - k))
    (hshort : ¬ utf8Length c < k + 1) : Utf8Width k c := by
  have hc : c < 2 ^ (6 - k) * 64 ^ k := (Nat.div_lt_iff_lt_mul (Nat.pow_pos (by decide))).1 hbits
  have hcases : k = 1 ∨ k = 2 ∨ k = 3 ∨ k = 4 ∨ k = 5 := by omega
  unfold utf8Length at hshort
  rcases hcases with rfl | rfl | rfl | rfl | rfl
  · exact .two (by split_ifs at hshort <;> omega) hc
  · exact .three (by split_ifs at hshort <;> omega) hc
  · exact .four (by split_ifs at hshort <;> omega) hc
  · exact .five (by split_ifs at hshort <;> omega) hc
  · exact .six (by split_ifs at hshort <;> omega) hc

/-- Bytes that are recognised begin with a code point. -/
theorem exists_cp_of_isUtf8 {a : UInt8} {rest : Bytes} {n : Nat} (h : rdfstoreUtf8IsUtf8 (a :: rest) = some n) :
    ∃ c < 0x80000000, n = (rdfstoreUtf8CpToUtf8 c).length ∧ rdfstoreUtf8CpToUtf8 c <+: a :: rest := by
  by_cases ha : a < 0x80
  · have hlt : a.toNat < 0x80 := ha
    rw [isUtf8_ascii ha, Option.some_inj] at h
    refine ⟨a.toNat, by omega, ?_⟩
    rw [cpToUtf8_toNat ha]
    exact ⟨h.symm, rest, rfl⟩
  · rw [isUtf8_cons, if_neg ha] at h
    by_cases hlead : 0xc0 ≤ a ∧ a ≤ 0xfd
    · obtain ⟨k, x, h1, h2, hx, rfl⟩ := exists_mark hlead.1 hlead.2
      have hmark := utf8Lead_mark h1 h2 hx
      rw [hmark.skip, hmark.shifted, Nat.add_sub_cancel] at h
      split at h
      · cases h
      split at h
      · cases h
      split at h
      · cases h
      next c hc =>
        split at h
        · cases h
        next hshort =>
          obtain ⟨⟨rest', rfl⟩, hbits⟩ := utf8Tail_eq_some hc
          have hw : Utf8Width k c := utf8Width_of_length h1 h2 (by rw [hbits]; exact hx) hshort
          refine ⟨c, hw.lt, ?_⟩
          rw [hw.cpToUtf8, utf8Sequence, List.length_cons, length_utf8Continuations, hbits]
          exact ⟨(Option.some_inj.1 h).symm, rest', rfl⟩
    · have hno : (decide (0xc0 ≤ a) && decide (a ≤ 0xfd)) = false := by
        rw [Bool.and_eq_false_iff, decide_eq_false_iff_not, decide_eq_false_iff_not]
        exact not_and_or.1 hlead
      rw [hno] at h
      cases h

theorem isUtf8_eq_some_iff {a : UInt8} {rest : Bytes} {n : Nat} :
    rdfstoreUtf8IsUtf8 (a :: rest) = some n ↔
      ∃ c < 0x80000000, n = (rdfstoreUtf8CpToUtf8 c).length ∧ rdfstoreUtf8CpToUtf8 c <+: a :: rest := by
  constructor
  · exact exists_cp_of_isUtf8
  · rintro ⟨c, hc, rfl, tail, htail⟩
    rw [← htail]
    exact isUtf8_cp hc tail

/-- What is written for a code point is recognised and read back, whatever follows, and what is
recognised is read as a code point for which the same bytes are written. -/
theorem utf8_codec :
    (∀ c < 0x80000000, ∀ rest,
      rdfstoreUtf8IsUtf8 (rdfstoreUtf8CpToUtf8 c ++ rest) = some (rdfstoreUtf8CpToUtf8 c).length ∧
        rdfstoreUtf8Utf8ToCp (rdfstoreUtf8CpToUtf8 c).length (rdfstoreUtf8CpToUtf8 c ++ rest) = some c) ∧
      ∀ (a : UInt8) (rest : Bytes) (n : Nat), rdfstoreUtf8IsUtf8 (a :: rest) = some n →
        ∃ c, rdfstoreUtf8Utf8ToCp n (a :: rest) = some c ∧ rdfstoreUtf8CpToUtf8 c = (a :: rest).take n ∧
          (rdfstoreUtf8CpToUtf8 c).length = n := by
  refine ⟨fun c hc rest => ⟨isUtf8_cp hc rest, utf8ToCp_cp hc rest⟩, fun a rest n h => ?_⟩
  obtain ⟨c, hc, rfl, tail, htail⟩ := exists_cp_of_isUtf8 h
  rw [← htail]
  exact ⟨c, utf8ToCp_cp hc tail, List.take_left.symm, rfl⟩

/-- The sign for the euro, and its bytes with another character behind them. -/
theorem utf8_codec_euro :
    rdfstoreUtf8Utf8ToCp 3 (rdfstoreUtf8CpToUtf8 0x20ac ++ [0x41]) = some 0x20ac ∧
      ∃ c, rdfstoreUtf8Utf8ToCp 3 [0xe2, 0x82, 0xac, 0x41] = some c ∧
        rdfstoreUtf8CpToUtf8 c = [0xe2, 0x82, 0xac] ∧ (rdfstoreUtf8CpToUtf8 c).length = 3 :=
  ⟨(utf8_codec.1 0x20ac (by decide) [0x41]).2, utf8_codec.2 0xe2 [0x82, 0xac, 0x41] 3 (by decide)⟩

/-! ## The table -/

/-- A row: its code points and the bytes that may stand at each place. -/
structure Utf8Row where
  first : Nat
  last : Nat
  bytes : List (Nat × Nat)

/-- The rows of the table in the comment. -/
def wellFormedUtf8 : List Utf8Row :=
  [⟨0x0000, 0x007F, [(0x00, 0x7F)]⟩,
    ⟨0x0080, 0x07FF, [(0xC2, 0xDF), (0x80, 0xBF)]⟩,
    ⟨0x0800, 0x0FFF, [(0xE0, 0xE0), (0xA0, 0xBF), (0x80, 0xBF)]⟩,
    ⟨0x1000, 0xCFFF, [(0xE1, 0xEC), (0x80, 0xBF), (0x80, 0xBF)]⟩,
    ⟨0xD000, 0xD7FF, [(0xED, 0xED), (0x80, 0x9F), (0x80, 0xBF)]⟩,
    ⟨0xE000, 0xFFFF, [(0xEE, 0xEF), (0x80, 0xBF), (0x80, 0xBF)]⟩,
    ⟨0x10000, 0x3FFFF, [(0xF0, 0xF0), (0x90, 0xBF), (0x80, 0xBF), (0x80, 0xBF)]⟩,
    ⟨0x40000, 0xFFFFF, [(0xF1, 0xF3), (0x80, 0xBF), (0x80, 0xBF), (0x80, 0xBF)]⟩,
    ⟨0x100000, 0x10FFFF, [(0xF4, 0xF4), (0x80, 0x8F), (0x80, 0xBF), (0x80, 0xBF)]⟩]

/-- The rows that the function adds: surrogates, and what is beyond Unicode. -/
def acceptedBesides : List Utf8Row :=
  [⟨0xD800, 0xDFFF, [(0xED, 0xED), (0xA0, 0xBF), (0x80, 0xBF)]⟩,
    ⟨0x110000, 0x13FFFF, [(0xF4, 0xF4), (0x90, 0xBF), (0x80, 0xBF), (0x80, 0xBF)]⟩,
    ⟨0x140000, 0x1FFFFF, [(0xF5, 0xF7), (0x80, 0xBF), (0x80, 0xBF), (0x80, 0xBF)]⟩,
    ⟨0x200000, 0xFFFFFF, [(0xF8, 0xF8), (0x88, 0xBF), (0x80, 0xBF), (0x80, 0xBF), (0x80, 0xBF)]⟩,
    ⟨0x1000000, 0x3FFFFFF, [(0xF9, 0xFB), (0x80, 0xBF), (0x80, 0xBF), (0x80, 0xBF), (0x80, 0xBF)]⟩,
    ⟨0x4000000, 0x3FFFFFFF,
      [(0xFC, 0xFC), (0x84, 0xBF), (0x80, 0xBF), (0x80, 0xBF), (0x80, 0xBF), (0x80, 0xBF)]⟩,
    ⟨0x40000000, 0x7FFFFFFF,
      [(0xFD, 0xFD), (0x80, 0xBF), (0x80, 0xBF), (0x80, 0xBF), (0x80, 0xBF), (0x80, 0xBF)]⟩]

/-- Each byte is in its place's range. -/
def inRanges : List (Nat × Nat) → Bytes → Bool
  | [], _ => true
  | _ :: _, [] => false
  | (lo, hi) :: ranges, b :: bytes => lo ≤ b.toNat && b.toNat ≤ hi && inRanges ranges bytes

/-- The first bytes match the row. -/
def Utf8Row.Matches (row : Utf8Row) (bytes : Bytes) : Prop := inRanges row.bytes bytes = true

instance (row : Utf8Row) (bytes : Bytes) : Decidable (row.Matches bytes) := inferInstanceAs (Decidable (_ = true))

/-- The answer is 1 with length `n` exactly when the first `n` bytes match one row. -/
def AgreesWithTable (bytes : Bytes) : Prop :=
  ∀ n, rdfstoreUtf8IsUtf8 bytes = some n ↔ ∃ row ∈ wellFormedUtf8, row.bytes.length = n ∧ row.Matches bytes

/-! ## A row and its code points -/

/-- Bytes behind the lead byte hold any bits. -/
theorem exists_continuations {k : Nat} {bytes : Bytes}
    (h : inRanges (List.replicate k (0x80, 0xBF)) bytes = true) (b : Nat) :
    ∃ c rest, bytes = utf8Continuations k c ++ rest ∧ c / 64 ^ k = b := by
  induction k generalizing bytes b with
  | zero => exact ⟨b, bytes, rfl, by rw [Nat.pow_zero, Nat.div_one]⟩
  | succ k ih =>
    cases bytes with
    | nil => cases h
    | cons y bytes =>
      simp only [List.replicate_succ, inRanges, Bool.and_eq_true, decide_eq_true_eq] at h
      obtain ⟨⟨hlo, hhi⟩, h⟩ := h
      obtain ⟨c, rest, rfl, hc⟩ := ih h (64 * b + (y.toNat - 0x80))
      have hbits := bits_succ c k
      have hmod : c / 64 ^ k % 64 = y.toNat - 0x80 := by
        rw [hc]
        omega
      refine ⟨c, rest, ?_, by omega⟩
      rw [utf8Continuations, hmod, Nat.add_sub_cancel' hlo, List.cons_append]
      exact congrArg (· :: _) UInt8.ofNat_toNat.symm

theorem inRanges_continuations (k c : Nat) (rest : Bytes) :
    inRanges (List.replicate k (0x80, 0xBF)) (utf8Continuations k c ++ rest) = true := by
  induction k with
  | zero => rfl
  | succ k ih =>
    have hlt : c / 64 ^ k % 64 < 64 := Nat.mod_lt _ (by decide)
    have hnat : (0x80 + c / 64 ^ k % 64).toUInt8.toNat = 0x80 + c / 64 ^ k % 64 := toNat_toUInt8_of_lt (by omega)
    simp only [List.replicate_succ, utf8Continuations, List.cons_append, inRanges, ih, hnat, Bool.and_true,
      Bool.and_eq_true, decide_eq_true_eq]
    omega

/-- A row with `k + 1` places behind the lead byte, of which the first may be restricted. -/
structure Utf8Row.Wide (row : Utf8Row) (k : Nat) (lead second : Nat × Nat) : Prop where
  bytes : row.bytes = lead :: second :: List.replicate k (0x80, 0xBF)
  le_five : k + 1 ≤ 5
  lead_lo : utf8Mark (k + 1) ≤ lead.1
  lead_hi : lead.2 < 256
  second_lo : 0x80 ≤ second.1
  second_hi : second.2 ≤ 0xBF
  range : ∀ c, row.first ≤ c ∧ c ≤ row.last ↔
    (lead.1 ≤ utf8Mark (k + 1) + c / 64 ^ (k + 1) ∧ utf8Mark (k + 1) + c / 64 ^ (k + 1) ≤ lead.2) ∧
      second.1 ≤ 0x80 + c / 64 ^ k % 64 ∧ 0x80 + c / 64 ^ k % 64 ≤ second.2
  width : ∀ c, row.first ≤ c → c ≤ row.last → Utf8Width (k + 1) c

namespace Utf8Row.Wide

variable {row : Utf8Row} {k : Nat} {lead second : Nat × Nat}

theorem exists_cp (h : row.Wide k lead second) {bytes : Bytes} (hm : row.Matches bytes) :
    ∃ c, row.first ≤ c ∧ c ≤ row.last ∧ rdfstoreUtf8CpToUtf8 c <+: bytes := by
  unfold Utf8Row.Matches at hm
  rw [h.bytes] at hm
  cases bytes with
  | nil => cases hm
  | cons a bytes =>
    cases bytes with
    | nil =>
      rw [inRanges, inRanges, Bool.and_false] at hm
      cases hm
    | cons y bytes =>
      simp only [inRanges, Bool.and_eq_true, decide_eq_true_eq] at hm
      obtain ⟨⟨halo, hahi⟩, ⟨hylo, hyhi⟩, hm⟩ := hm
      have hlo := h.lead_lo
      have hlo' := h.second_lo
      have hhi' := h.second_hi
      obtain ⟨c, rest, rfl, hc⟩ :=
        exists_continuations hm (64 * (a.toNat - utf8Mark (k + 1)) + (y.toNat - 0x80))
      have hbits := bits_succ c k
      have hmod : c / 64 ^ k % 64 = y.toNat - 0x80 := by
        rw [hc]
        omega
      have hdiv : c / 64 ^ (k + 1) = a.toNat - utf8Mark (k + 1) := by omega
      have hrange := (h.range c).2 ⟨by omega, by omega⟩
      refine ⟨c, hrange.1, hrange.2, rest, ?_⟩
      rw [(h.width c hrange.1 hrange.2).cpToUtf8, utf8Sequence, utf8Continuations, hdiv, hmod,
        Nat.add_sub_cancel' (hlo.trans halo), Nat.add_sub_cancel' (hlo'.trans hylo)]
      have ha : a.toNat.toUInt8 = a := UInt8.ofNat_toNat
      have hy : y.toNat.toUInt8 = y := UInt8.ofNat_toNat
      rw [ha, hy]
      rfl

theorem matches_cp (h : row.Wide k lead second) {c : Nat} (h1 : row.first ≤ c) (h2 : c ≤ row.last)
    (rest : Bytes) : row.Matches (rdfstoreUtf8CpToUtf8 c ++ rest) := by
  obtain ⟨hlead, hsecond⟩ := (h.range c).1 ⟨h1, h2⟩
  have hhi := h.lead_hi
  have hhi' := h.second_hi
  unfold Utf8Row.Matches
  rw [h.bytes, (h.width c h1 h2).cpToUtf8, utf8Sequence, utf8Continuations]
  simp only [List.cons_append, inRanges, inRanges_continuations, Bool.and_true, Bool.and_eq_true, decide_eq_true_eq]
  rw [toNat_toUInt8_of_lt (by omega), toNat_toUInt8_of_lt (by omega)]
  exact ⟨hlead, hsecond⟩

end Utf8Row.Wide

/-- A row is wide when its first and last code points are. -/
theorem Utf8Row.wide_of_ends {first last k : Nat} {lead second : Nat × Nat}
    (h : k + 1 ≤ 5 ∧ utf8Mark (k + 1) ≤ lead.1 ∧ lead.2 < 256 ∧ 0x80 ≤ second.1 ∧ second.2 ≤ 0xBF)
    (hfirst : Utf8Width (k + 1) first) (hlast : Utf8Width (k + 1) last)
    (hrange : ∀ c, first ≤ c ∧ c ≤ last ↔
      (lead.1 ≤ utf8Mark (k + 1) + c / 64 ^ (k + 1) ∧ utf8Mark (k + 1) + c / 64 ^ (k + 1) ≤ lead.2) ∧
        second.1 ≤ 0x80 + c / 64 ^ k % 64 ∧ 0x80 + c / 64 ^ k % 64 ≤ second.2) :
    Utf8Row.Wide ⟨first, last, lead :: second :: List.replicate k (0x80, 0xBF)⟩ k lead second where
  bytes := rfl
  le_five := h.1
  lead_lo := h.2.1
  lead_hi := h.2.2.1
  second_lo := h.2.2.2.1
  second_hi := h.2.2.2.2
  range := hrange
  width _ h1 h2 := hfirst.between hlast h1 h2

/-- Every row but the first is wide. -/
theorem wide_of_mem {row : Utf8Row} (h : row ∈ wellFormedUtf8.tail ++ acceptedBesides) :
    ∃ k lead second, row.Wide k lead second := by
  revert row
  simp only [wellFormedUtf8, acceptedBesides, List.tail_cons, List.cons_append, List.nil_append, List.forall_mem_cons]
  refine ⟨
    ⟨0, _, _, Utf8Row.wide_of_ends (by decide) (.two (by decide) (by decide)) (.two (by decide) (by decide)) ?_⟩,
    ⟨1, _, _, Utf8Row.wide_of_ends (by decide) (.three (by decide) (by decide)) (.three (by decide) (by decide)) ?_⟩,
    ⟨1, _, _, Utf8Row.wide_of_ends (by decide) (.three (by decide) (by decide)) (.three (by decide) (by decide)) ?_⟩,
    ⟨1, _, _, Utf8Row.wide_of_ends (by decide) (.three (by decide) (by decide)) (.three (by decide) (by decide)) ?_⟩,
    ⟨1, _, _, Utf8Row.wide_of_ends (by decide) (.three (by decide) (by decide)) (.three (by decide) (by decide)) ?_⟩,
    ⟨2, _, _, Utf8Row.wide_of_ends (by decide) (.four (by decide) (by decide)) (.four (by decide) (by decide)) ?_⟩,
    ⟨2, _, _, Utf8Row.wide_of_ends (by decide) (.four (by decide) (by decide)) (.four (by decide) (by decide)) ?_⟩,
    ⟨2, _, _, Utf8Row.wide_of_ends (by decide) (.four (by decide) (by decide)) (.four (by decide) (by decide)) ?_⟩,
    ⟨1, _, _, Utf8Row.wide_of_ends (by decide) (.three (by decide) (by decide)) (.three (by decide) (by decide)) ?_⟩,
    ⟨2, _, _, Utf8Row.wide_of_ends (by decide) (.four (by decide) (by decide)) (.four (by decide) (by decide)) ?_⟩,
    ⟨2, _, _, Utf8Row.wide_of_ends (by decide) (.four (by decide) (by decide)) (.four (by decide) (by decide)) ?_⟩,
    ⟨3, _, _, Utf8Row.wide_of_ends (by decide) (.five (by decide) (by decide)) (.five (by decide) (by decide)) ?_⟩,
    ⟨3, _, _, Utf8Row.wide_of_ends (by decide) (.five (by decide) (by decide)) (.five (by decide) (by decide)) ?_⟩,
    ⟨4, _, _, Utf8Row.wide_of_ends (by decide) (.six (by decide) (by decide)) (.six (by decide) (by decide)) ?_⟩,
    ⟨4, _, _, Utf8Row.wide_of_ends (by decide) (.six (by decide) (by decide)) (.six (by decide) (by decide)) ?_⟩,
    fun _ h => by cases h⟩
  all_goals
    intro c
    simp only [utf8Mark, zero_add, Nat.reduceAdd, Nat.reducePow]
    omega

/-- The first row holds the ASCII characters. -/
theorem matches_ascii_iff {bytes : Bytes} :
    (wellFormedUtf8.head (List.cons_ne_nil _ _)).Matches bytes ↔ ∃ c ≤ 0x7F, rdfstoreUtf8CpToUtf8 c <+: bytes := by
  unfold Utf8Row.Matches
  cases bytes with
  | nil =>
    refine ⟨fun h => (by cases h), ?_⟩
    rintro ⟨c, -, h⟩
    exact absurd (List.prefix_nil.1 h) (cpToUtf8_ne_nil c)
  | cons a bytes =>
    simp only [wellFormedUtf8, List.head_cons, inRanges, Nat.zero_le, decide_true, Bool.true_and, Bool.and_true,
      decide_eq_true_eq]
    constructor
    · intro ha
      have hlt : a < 0x80 := UInt8.lt_iff_toNat_lt.2 (Nat.lt_succ_of_le ha)
      exact ⟨a.toNat, ha, by rw [cpToUtf8_toNat hlt]; exact ⟨bytes, rfl⟩⟩
    · rintro ⟨c, hc, rest, h⟩
      rw [cpToUtf8_one (Nat.lt_succ_of_le hc)] at h
      rw [← (List.cons.inj h).1]
      exact Nat.le_of_lt_succ (UInt8.lt_iff_toNat_lt.1 (toUInt8_lt (Nat.lt_succ_of_le hc)))

theorem Utf8Row.matches_iff {row : Utf8Row} (h : row ∈ wellFormedUtf8 ++ acceptedBesides) {bytes : Bytes} :
    row.Matches bytes ↔ ∃ c, row.first ≤ c ∧ c ≤ row.last ∧ rdfstoreUtf8CpToUtf8 c <+: bytes := by
  rcases List.mem_cons.1 h with rfl | h
  · rw [show (⟨0x0000, 0x007F, [(0x00, 0x7F)]⟩ : Utf8Row) = wellFormedUtf8.head (List.cons_ne_nil _ _) from rfl,
      matches_ascii_iff]
    simp [wellFormedUtf8]
  · obtain ⟨k, lead, second, hw⟩ := wide_of_mem h
    refine ⟨hw.exists_cp, ?_⟩
    rintro ⟨c, h1, h2, rest, rfl⟩
    exact hw.matches_cp h1 h2 rest

/-! ## The rows together -/

/-- The code points of the table. -/
def IsScalar (c : Nat) : Prop := c < 0xD800 ∨ 0xDFFF < c ∧ c ≤ 0x10FFFF

theorem exists_row_iff {c : Nat} : (∃ row ∈ wellFormedUtf8, row.first ≤ c ∧ c ≤ row.last) ↔ IsScalar c := by
  simp only [wellFormedUtf8, List.exists_mem_cons_iff, List.not_mem_nil, false_and, exists_false, or_false, IsScalar]
  omega

theorem exists_row_besides_iff {c : Nat} :
    (∃ row ∈ acceptedBesides, row.first ≤ c ∧ c ≤ row.last) ↔ ¬ IsScalar c ∧ c < 0x80000000 := by
  simp only [acceptedBesides, List.exists_mem_cons_iff, List.not_mem_nil, false_and, exists_false, or_false, IsScalar]
  omega

theorem length_of_row {row : Utf8Row} (h : row ∈ wellFormedUtf8) {c : Nat} (h1 : row.first ≤ c) (h2 : c ≤ row.last) :
    (rdfstoreUtf8CpToUtf8 c).length = row.bytes.length := by
  rcases List.mem_cons.1 h with rfl | h
  · rw [cpToUtf8_one (Nat.lt_succ_of_le h2)]
    rfl
  · obtain ⟨k, lead, second, hw⟩ := wide_of_mem (List.mem_append_left _ h)
    rw [(hw.width c h1 h2).cpToUtf8, utf8Sequence, hw.bytes]
    simp

/-- A row of the table matches what begins with one of its code points. -/
theorem exists_match_iff {bytes : Bytes} {n : Nat} :
    (∃ row ∈ wellFormedUtf8, row.bytes.length = n ∧ row.Matches bytes) ↔
      ∃ c, IsScalar c ∧ n = (rdfstoreUtf8CpToUtf8 c).length ∧ rdfstoreUtf8CpToUtf8 c <+: bytes := by
  constructor
  · rintro ⟨row, hrow, rfl, hm⟩
    obtain ⟨c, h1, h2, hc⟩ := (Utf8Row.matches_iff (List.mem_append_left _ hrow)).1 hm
    exact ⟨c, exists_row_iff.1 ⟨row, hrow, h1, h2⟩, (length_of_row hrow h1 h2).symm, hc⟩
  · rintro ⟨c, hscalar, rfl, hc⟩
    obtain ⟨row, hrow, h1, h2⟩ := exists_row_iff.2 hscalar
    exact ⟨row, hrow, (length_of_row hrow h1 h2).symm,
      (Utf8Row.matches_iff (List.mem_append_left _ hrow)).2 ⟨c, h1, h2, hc⟩⟩

theorem exists_match_besides_iff {bytes : Bytes} :
    (∃ row ∈ acceptedBesides, row.Matches bytes) ↔
      ∃ c < 0x80000000, ¬ IsScalar c ∧ rdfstoreUtf8CpToUtf8 c <+: bytes := by
  constructor
  · rintro ⟨row, hrow, hm⟩
    obtain ⟨c, h1, h2, hc⟩ := (Utf8Row.matches_iff (List.mem_append_right _ hrow)).1 hm
    obtain ⟨hno, hlt⟩ := exists_row_besides_iff.1 ⟨row, hrow, h1, h2⟩
    exact ⟨c, hlt, hno, hc⟩
  · rintro ⟨c, hlt, hno, hc⟩
    obtain ⟨row, hrow, h1, h2⟩ := exists_row_besides_iff.2 ⟨hno, hlt⟩
    exact ⟨row, hrow, (Utf8Row.matches_iff (List.mem_append_right _ hrow)).2 ⟨c, h1, h2, hc⟩⟩

theorem IsScalar.lt {c : Nat} (h : IsScalar c) : c < 0x80000000 := by
  unfold IsScalar at h
  omega

/-- The answer is that of the table exactly for the bytes that no further row matches. -/
theorem agreesWithTable_iff (a : UInt8) (rest : Bytes) :
    AgreesWithTable (a :: rest) ↔ ∀ row ∈ acceptedBesides, ¬ row.Matches (a :: rest) := by
  constructor
  · intro h row hrow hm
    obtain ⟨c, hlt, hno, hc⟩ := exists_match_besides_iff.1 ⟨row, hrow, hm⟩
    have haccepted := isUtf8_eq_some_iff.2 ⟨c, hlt, rfl, hc⟩
    obtain ⟨d, hscalar, -, tail, htail⟩ := exists_match_iff.1 ((h _).1 haccepted)
    obtain ⟨tail', htail'⟩ := hc
    -- the bytes begin with one code point only
    have hcd : c = d := cpToUtf8_inj hlt (htail'.trans htail.symm)
    exact hno (hcd ▸ hscalar)
  · intro h n
    rw [isUtf8_eq_some_iff, exists_match_iff]
    constructor
    · rintro ⟨c, hlt, hn, hc⟩
      refine ⟨c, ?_, hn, hc⟩
      by_contra hno
      obtain ⟨row, hrow, hm⟩ := exists_match_besides_iff.2 ⟨c, hlt, hno, hc⟩
      exact h row hrow hm
    · rintro ⟨c, hscalar, hn, hc⟩
      exact ⟨c, hscalar.lt, hn, hc⟩

/-- The surrogate U+D800. -/
theorem not_agreesWithTable_surrogate :
    rdfstoreUtf8IsUtf8 [0xED, 0xA0, 0x80] = some 3 ∧ (∀ row ∈ wellFormedUtf8, ¬ row.Matches [0xED, 0xA0, 0x80]) ∧
      ¬ AgreesWithTable [0xED, 0xA0, 0x80] := by
  have haccepted : rdfstoreUtf8IsUtf8 [0xED, 0xA0, 0x80] = some 3 := by decide
  have hno : ∀ row ∈ wellFormedUtf8, ¬ row.Matches [0xED, 0xA0, 0x80] := by decide
  refine ⟨haccepted, hno, fun h => ?_⟩
  obtain ⟨row, hrow, -, hm⟩ := (h 3).1 haccepted
  exact hno row hrow hm

end RdfStore
