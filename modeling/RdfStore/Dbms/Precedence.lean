import RdfStore.Dbms.Sections

/-!
# Which sections count first (`parse_config`, `allowed_ops_on_dbase` of `conf.c`)

Baseline sections should stand before, fall through sections after every named one.

    a fall through section counts only where no named one decides   (allowedOpsLoop_filter)
    when the sections are where they should be                      (sections_in_order_iff)
-/

namespace RdfStore.Dbms

open ByteMem

def Xsctrl.Baseline (s : Xsctrl) : Prop := s.dbase = ascii "_"

def Xsctrl.FallThrough (s : Xsctrl) : Prop := s.dbase = ascii "*"

def Xsctrl.Named (s : Xsctrl) : Prop := ¬ s.Baseline ∧ ¬ s.FallThrough

instance : DecidablePred Xsctrl.Baseline := fun s => inferInstanceAs (Decidable (s.dbase = ascii "_"))

instance : DecidablePred Xsctrl.FallThrough := fun s => inferInstanceAs (Decidable (s.dbase = ascii "*"))

instance : DecidablePred Xsctrl.Named := fun s => inferInstanceAs (Decidable (¬ s.Baseline ∧ ¬ s.FallThrough))

theorem isBaseline_iff {s : Xsctrl} : isBaseline s = true ↔ s.Baseline := decide_eq_true_iff

theorem isFallThrough_iff {s : Xsctrl} : isFallThrough s = true ↔ s.FallThrough := decide_eq_true_iff

theorem Xsctrl.Baseline.not_fallThrough {s : Xsctrl} (h : s.Baseline) : ¬ s.FallThrough := by
  unfold Xsctrl.Baseline at h
  unfold Xsctrl.FallThrough
  rw [h]
  decide

/-- The section decides what the address may do with the database. -/
def Xsctrl.Decides (s : Xsctrl) (ip : UInt32) (dbase : Bytes) : Prop :=
  dbcmp dbase s.dbase = true ∧ allowedOpsCnf s ip ≠ .err

/-! ## Where two sections stand -/

/-- No baseline section stands behind a named one. -/
def BaselinesFirst (l : List Xsctrl) : Prop := l.Pairwise fun a b => a.Named → ¬ b.Baseline

/-- No named section stands behind a fall through one. -/
def FallThroughLast (l : List Xsctrl) : Prop := l.Pairwise fun a b => a.FallThrough → ¬ b.Named

/-- What the list should be: every section of the file once, in the order of precedence, so that the fall through
sections are without effect where a named section decides. -/
structure InOrder (sections l : List Xsctrl) : Prop where
  perm : l.Perm sections
  baselinesFirst : BaselinesFirst l
  fallThroughLast : FallThroughLast l
  named_first : ∀ ip dbase, (∃ s ∈ l, s.Named ∧ s.Decides ip dbase) →
    allowedOpsOnDbase l ip dbase = allowedOpsOnDbase (l.filter fun s => ¬ s.FallThrough) ip dbase

/-- In the file, no two baseline sections directly follow each other before a named one, and no named section stands
before two fall through ones. -/
def WellPlaced (sections : List Xsctrl) : Prop :=
  (¬ ∃ l b₁ b₂ r, sections = l ++ b₁ :: b₂ :: r ∧ b₁.Baseline ∧ b₂.Baseline ∧ ∃ n ∈ r, n.Named) ∧
    ¬ ∃ n s₁ s₂, [n, s₁, s₂].Sublist sections ∧ n.Named ∧ s₁.FallThrough ∧ s₂.FallThrough

/-! ## What decides -/

/-- Where a named section decides, the loop over the list does not come to a fall through section. -/
theorem allowedOpsLoop_filter {l : List Xsctrl} (h : FallThroughLast l) {ip : UInt32} {dbase : Bytes}
    (hdecides : ∃ s ∈ l, s.Named ∧ s.Decides ip dbase) (level : Tops) :
    allowedOpsLoop ip dbase l level = allowedOpsLoop ip dbase (l.filter fun s => ¬ s.FallThrough) level := by
  induction l generalizing level with
  | nil => rfl
  | cons p rest ih =>
    obtain ⟨hp, hrest⟩ := List.pairwise_cons.1 h
    obtain ⟨s, hs, hnamed, hdecide⟩ := hdecides
    have hkeep : ¬ p.FallThrough := by
      intro hfall
      rcases List.mem_cons.1 hs with rfl | hs
      · exact hnamed.2 hfall
      · exact hp s hs hfall hnamed
    have hlater : ¬ p.Decides ip dbase → ∃ s ∈ rest, s.Named ∧ s.Decides ip dbase := by
      intro hnot
      rcases List.mem_cons.1 hs with rfl | hs
      · exact absurd hdecide hnot
      · exact ⟨s, hs, hnamed, hdecide⟩
    have hne : p.dbase ≠ [42] := hkeep
    rw [List.filter_cons_of_pos (by simpa using hkeep)]
    simp only [allowedOpsLoop, hne, decide_false, Bool.or_false]
    by_cases hmatch : dbcmp dbase p.dbase = true
    · by_cases herr : allowedOpsCnf p ip = .err
      · have := ih hrest (hlater fun h => h.2 herr)
        simp only [hmatch, if_true, herr, ne_eq, not_true_eq_false, if_false, this]
      · simp [hmatch, herr]
    · have := ih hrest (hlater fun h => hmatch h.1)
      simp only [hmatch, Bool.false_eq_true, if_false, this]

/-! ## Baseline sections -/

/-- Two baseline sections directly behind each other, with a named one before them; `seen` if there is one before all. -/
def Crowded (seen : Prop) (l : List Xsctrl) : Prop :=
  ∃ a b₁ b₂ r, l = a ++ b₁ :: b₂ :: r ∧ b₁.Baseline ∧ b₂.Baseline ∧ (seen ∨ ∃ n ∈ a, n.Named)

theorem crowded_cons {seen : Prop} {n : Xsctrl} {l : List Xsctrl} :
    Crowded seen (n :: l) ↔
      (seen ∧ n.Baseline ∧ ∃ c ∈ l.head?, c.Baseline) ∨ Crowded (seen ∨ n.Named) l := by
  constructor
  · rintro ⟨a, b₁, b₂, r, heq, hb₁, hb₂, hseen⟩
    cases a with
    | nil =>
      rw [List.nil_append] at heq
      cases heq
      exact Or.inl ⟨by simpa using hseen, hb₁, b₂, rfl, hb₂⟩
    | cons m a =>
      rw [List.cons_append] at heq
      cases heq
      refine Or.inr ⟨a, b₁, b₂, r, rfl, hb₁, hb₂, ?_⟩
      simpa [or_assoc] using hseen
  · rintro (⟨hseen, hn, c, hc, hbase⟩ | ⟨a, b₁, b₂, r, rfl, hb₁, hb₂, hseen⟩)
    · cases l with
      | nil => cases hc
      | cons d l =>
        cases hc
        exact ⟨[], n, c, l, rfl, hn, hbase, Or.inl hseen⟩
    · exact ⟨n :: a, b₁, b₂, r, rfl, hb₁, hb₂, by simpa [or_assoc] using hseen⟩

theorem not_crowded_nil (seen : Prop) : ¬ Crowded seen [] := by
  rintro ⟨a, b₁, b₂, r, heq, -⟩
  simp at heq

/-- No baseline section behind a named one; `seen` if there is one before all. -/
def Clean (seen : Prop) (l : List Xsctrl) : Prop := BaselinesFirst l ∧ (seen → ∀ b ∈ l, ¬ b.Baseline)

theorem clean_cons {seen : Prop} {n : Xsctrl} {l : List Xsctrl} :
    Clean seen (n :: l) ↔ (seen → ¬ n.Baseline) ∧ Clean (seen ∨ n.Named) l := by
  unfold Clean BaselinesFirst
  rw [List.pairwise_cons]
  simp only [List.mem_cons, forall_eq_or_imp]
  tauto

theorem clean_nil (seen : Prop) : Clean seen [] := ⟨List.Pairwise.nil, by simp⟩

/-- A baseline section stays behind a named one exactly when it directly follows another. -/
theorem clean_pull_iff (l : List Xsctrl) (seen : Prop) :
    Clean seen (pull isBaseline l).2 ↔ ¬ Crowded seen l := by
  induction l using pull.induct isBaseline generalizing seen with
  | case1 => exact iff_of_true (clean_nil seen) (not_crowded_nil seen)
  | case2 n hn =>
    have hn' := isBaseline_iff.1 hn
    rw [crowded_cons]
    simp only [pull, hn, if_true]
    refine iff_of_true (clean_nil seen) ?_
    rintro (⟨-, -, c, hc, -⟩ | h)
    · cases hc
    · exact not_crowded_nil _ h
  | case3 n hn =>
    have hn' : ¬ n.Baseline := mt isBaseline_iff.2 hn
    rw [crowded_cons]
    simp only [pull, hn, Bool.false_eq_true, if_false]
    refine iff_of_true (clean_cons.2 ⟨fun _ => hn', clean_nil _⟩) ?_
    rintro (⟨-, h, -⟩ | h)
    · exact hn' h
    · exact not_crowded_nil _ h
  | case4 n c rest hn ih =>
    have hn' : n.Baseline := isBaseline_iff.1 hn
    have hnamed : ¬ n.Named := fun h => h.1 hn'
    rw [pull, if_pos hn, clean_cons, ih, crowded_cons, crowded_cons]
    simp only [List.head?_cons, Option.mem_some_iff, exists_eq_left', hn', hnamed, or_false, true_and]
    tauto
  | case5 n c rest hn ih =>
    have hn' : ¬ n.Baseline := mt isBaseline_iff.2 hn
    rw [pull, if_neg hn, clean_cons, ih, crowded_cons (n := n)]
    simp [hn']

theorem pull_fst_baseline (l : List Xsctrl) : ∀ s ∈ (pull isBaseline l).1, s.Baseline := by
  induction l using pull.induct isBaseline with
  | case1 => simp [pull]
  | case2 n hn => simpa [pull, hn] using isBaseline_iff.1 hn
  | case3 n hn => simp [pull, hn]
  | case4 n c rest hn ih =>
    rw [pull, if_pos hn]
    exact List.forall_mem_cons.2 ⟨isBaseline_iff.1 hn, ih⟩
  | case5 n c rest hn ih =>
    rw [pull, if_neg hn]
    exact ih

theorem baselinesFirst_iff (l : List Xsctrl) :
    BaselinesFirst (baselinesFirst isBaseline l) ↔ ¬ Crowded False l := by
  cases l with
  | nil => exact iff_of_true List.Pairwise.nil (not_crowded_nil False)
  | cons c rest =>
    have hpulled := pull_fst_baseline rest
    have hrest : BaselinesFirst (c :: (pull isBaseline rest).2) ↔
        Clean False (c :: (pull isBaseline rest).2) := by simp [Clean]
    rw [crowded_cons, false_and, false_or, ← clean_pull_iff]
    unfold baselinesFirst
    constructor
    · intro h
      have := hrest.1 (List.pairwise_append.1 h).2.1
      exact (clean_cons.1 this).2
    · intro h
      have hkept := hrest.2 (clean_cons.2 ⟨False.elim, h⟩)
      refine List.pairwise_append.2 ⟨?_, hkept, ?_⟩
      · refine List.Pairwise.imp_of_mem (R := fun _ _ => True) ?_ (List.pairwise_of_forall fun _ _ => trivial)
        exact fun ha _ _ hnamed => absurd (hpulled _ (List.mem_reverse.1 ha)) hnamed.1
      · exact fun a ha b _ hnamed => absurd (hpulled a (List.mem_reverse.1 ha)) hnamed.1

/-! ## Fall through sections -/

theorem sublist_filter {α : Type} {p : α → Bool} {t l : List α} (h : ∀ a ∈ t, p a = true) :
    t.Sublist (l.filter p) ↔ t.Sublist l := by
  constructor
  · exact fun hsub => hsub.trans List.filter_sublist
  · intro hsub
    have := hsub.filter p
    rwa [List.filter_eq_self.2 h] at this

theorem filter_fallThroughLast (l : List Xsctrl) :
    (fallThroughLast isFallThrough l).filter (fun s => ¬ s.FallThrough) =
      l.filter fun s => ¬ s.FallThrough := by
  unfold fallThroughLast
  induction l with
  | nil => rfl
  | cons a l ih =>
    by_cases ha : a.FallThrough
    · have ha' := isFallThrough_iff.2 ha
      simp [ha, ha']
    · have ha' := mt isFallThrough_iff.1 ha
      simpa [ha, ha'] using ih

theorem filter_pull (l : List Xsctrl) :
    (pull isBaseline l).2.filter (fun s => ¬ s.Baseline) = l.filter fun s => ¬ s.Baseline := by
  induction l using pull.induct isBaseline with
  | case1 => rfl
  | case2 n hn =>
    have hn' : n.Baseline := isBaseline_iff.1 hn
    simp [pull, hn, hn']
  | case3 n hn => simp [pull, hn]
  | case4 n c rest hn ih =>
    have hn' : n.Baseline := isBaseline_iff.1 hn
    rw [pull, if_pos hn, List.filter_cons, ih, List.filter_cons (x := n), List.filter_cons (x := c)]
    simp [hn']
  | case5 n c rest hn ih =>
    rw [pull, if_neg hn, List.filter_cons, ih, List.filter_cons (x := n)]

theorem filter_baselinesFirst (l : List Xsctrl) :
    (baselinesFirst isBaseline l).filter (fun s => ¬ s.Baseline) =
      l.filter fun s => ¬ s.Baseline := by
  cases l with
  | nil => rfl
  | cons c rest =>
    have hpulled : (pull isBaseline rest).1.reverse.filter (fun s => ¬ s.Baseline) = [] := by
      refine List.filter_eq_nil_iff.2 fun a ha => ?_
      simpa using pull_fst_baseline rest a (List.mem_reverse.1 ha)
    have hkept := filter_pull rest
    rw [baselinesFirst, List.filter_append, hpulled, List.nil_append, List.filter_cons, List.filter_cons, hkept]

theorem fallThroughLast_iff (l : List Xsctrl) :
    FallThroughLast (fallThroughLast isFallThrough l) ↔
      ¬ ∃ s₁ s₂ n, [s₁, s₂, n].Sublist l ∧ s₁.FallThrough ∧ s₂.FallThrough ∧ n.Named := by
  induction l with
  | nil => exact iff_of_true List.Pairwise.nil (by simp)
  | cons a l ih =>
    have hrest : ∀ {t : List Xsctrl} {s₁ : Xsctrl}, (s₁ :: t).Sublist (a :: l) → s₁ ≠ a → (s₁ :: t).Sublist l := by
      intro t s₁ hsub hne
      cases hsub with
      | cons _ h => exact h
      | cons_cons _ h => exact absurd rfl hne
    by_cases ha : a.FallThrough
    · have herase : fallThroughLast isFallThrough (a :: l) = l ++ [a] := by
        simp [fallThroughLast, isFallThrough_iff.2 ha]
      rw [herase]
      constructor
      · rintro h ⟨s₁, s₂, n, hsub, -, h₂, hn⟩
        have htail : [s₂, n].Sublist l := by
          cases hsub with
          | cons _ h => exact (List.sublist_cons_self s₁ _).trans h
          | cons_cons _ h => exact h
        have hpair := (List.pairwise_append.1 h).1
        exact List.pairwise_iff_forall_sublist.1 hpair htail h₂ hn
      · intro h
        refine List.pairwise_append.2 ⟨?_, List.pairwise_singleton _ _, ?_⟩
        · refine List.pairwise_iff_forall_sublist.2 fun {s₂ n} hsub h₂ hn => h ?_
          exact ⟨a, s₂, n, hsub.cons_cons a, ha, h₂, hn⟩
        · intro b _ c hc _ hnamed
          rw [List.mem_singleton] at hc
          subst hc
          exact hnamed.2 ha
    · have herase : fallThroughLast isFallThrough (a :: l) = a :: fallThroughLast isFallThrough l := by
        simp [fallThroughLast, mt isFallThrough_iff.1 ha]
      rw [herase]
      constructor
      · rintro h ⟨s₁, s₂, n, hsub, h₁, h₂, hn⟩
        have hne : s₁ ≠ a := fun heq => ha (heq ▸ h₁)
        exact ih.1 (List.pairwise_cons.1 h).2 ⟨s₁, s₂, n, hrest hsub hne, h₁, h₂, hn⟩
      · intro h
        refine List.pairwise_cons.2 ⟨fun b _ hfall => absurd hfall ha, ih.2 ?_⟩
        rintro ⟨s₁, s₂, n, hsub, hall⟩
        exact h ⟨s₁, s₂, n, hsub.cons a, hall⟩

/-! ## The whole list -/

theorem baselinesFirst_fallThroughLast (l : List Xsctrl) :
    BaselinesFirst (fallThroughLast isFallThrough l) ↔ BaselinesFirst l := by
  have hfilter : ∀ {a b : Xsctrl} {l : List Xsctrl}, a.Named → b.Baseline →
      ([a, b].Sublist (l.filter fun s => ¬ s.FallThrough) ↔ [a, b].Sublist l) := by
    intro a b l ha hb
    refine sublist_filter ?_
    simp [ha.2, hb.not_fallThrough]
  unfold BaselinesFirst
  rw [List.pairwise_iff_forall_sublist, List.pairwise_iff_forall_sublist]
  constructor
  · intro h a b hsub ha hb
    refine h ?_ ha hb
    rwa [← hfilter ha hb, filter_fallThroughLast, hfilter ha hb]
  · intro h a b hsub ha hb
    refine h ?_ ha hb
    rwa [← hfilter ha hb, ← filter_fallThroughLast, hfilter ha hb]

/-- Sections other than baseline sections are left in their order by the first loop. -/
theorem sublist_baselinesFirst {l t : List Xsctrl} (h : ∀ s ∈ t, ¬ s.Baseline) :
    t.Sublist (baselinesFirst isBaseline l) ↔ t.Sublist l := by
  have ht : ∀ s ∈ t, (decide ¬ s.Baseline) = true := fun s hs => decide_eq_true (h s hs)
  rw [← sublist_filter ht, filter_baselinesFirst, sublist_filter ht]

theorem crowded_reverse_iff (sections : List Xsctrl) :
    Crowded False sections.reverse ↔
      ∃ l b₁ b₂ r, sections = l ++ b₁ :: b₂ :: r ∧ b₁.Baseline ∧ b₂.Baseline ∧ ∃ n ∈ r, n.Named := by
  constructor
  · rintro ⟨a, b₁, b₂, r, heq, h₁, h₂, h⟩
    refine ⟨r.reverse, b₂, b₁, a.reverse, ?_, h₂, h₁, by simpa using h⟩
    have := congrArg List.reverse heq
    simpa using this
  · rintro ⟨l, b₁, b₂, r, rfl, h₁, h₂, h⟩
    exact ⟨r.reverse, b₂, b₁, l.reverse, by simp, h₂, h₁, by simpa using h⟩

theorem ordered_inOrder_iff (sections : List Xsctrl) :
    InOrder sections (ordered isBaseline isFallThrough sections.reverse) ↔ WellPlaced sections := by
  have hbase : BaselinesFirst (ordered isBaseline isFallThrough sections.reverse) ↔
      ¬ ∃ l b₁ b₂ r, sections = l ++ b₁ :: b₂ :: r ∧ b₁.Baseline ∧ b₂.Baseline ∧ ∃ n ∈ r, n.Named := by
    rw [ordered, baselinesFirst_fallThroughLast, baselinesFirst_iff, crowded_reverse_iff]
  have hfall : FallThroughLast (ordered isBaseline isFallThrough sections.reverse) ↔
      ¬ ∃ n s₁ s₂, [n, s₁, s₂].Sublist sections ∧ n.Named ∧ s₁.FallThrough ∧ s₂.FallThrough := by
    rw [ordered, fallThroughLast_iff, not_iff_not]
    have hsub : ∀ {s₁ s₂ n : Xsctrl}, s₁.FallThrough → s₂.FallThrough → n.Named →
        ([s₁, s₂, n].Sublist (baselinesFirst isBaseline sections.reverse) ↔ [n, s₂, s₁].Sublist sections) := by
      intro s₁ s₂ n h₁ h₂ hn
      have hnot : ∀ s ∈ [s₁, s₂, n], ¬ s.Baseline := by
        simp only [List.mem_cons, List.not_mem_nil, or_false, forall_eq_or_imp, forall_eq]
        exact ⟨fun h => h.not_fallThrough h₁, fun h => h.not_fallThrough h₂, hn.1⟩
      rw [sublist_baselinesFirst hnot, ← List.reverse_sublist, List.reverse_reverse]
      rfl
    constructor
    · rintro ⟨s₁, s₂, n, h, h₁, h₂, hn⟩
      exact ⟨n, s₂, s₁, (hsub h₁ h₂ hn).1 h, hn, h₂, h₁⟩
    · rintro ⟨n, s₂, s₁, h, hn, h₂, h₁⟩
      exact ⟨s₁, s₂, n, (hsub h₁ h₂ hn).2 h, h₁, h₂, hn⟩
  constructor
  · exact fun h => ⟨hbase.1 h.baselinesFirst, hfall.1 h.fallThroughLast⟩
  · intro h
    have hlast := hfall.2 h.2
    refine ⟨?_, hbase.2 h.1, hlast, fun ip dbase hdecides => allowedOpsLoop_filter hlast hdecides .none⟩
    exact (ordered_perm _ _ _).trans (List.reverse_perm sections)

/-- A configuration that is accepted is put in order exactly when its sections are well placed. -/
theorem sections_in_order_iff (getip : Bytes → UInt32 × Bool) (xscontrols : List Xsctrl) (configfile : Bytes)
    (sections : List Xsctrl) (h : configSections getip configfile = .ok sections) :
    (∃ l, parseConfig getip xscontrols configfile = some (none, l) ∧ InOrder sections l) ↔ WellPlaced sections := by
  rw [← ordered_inOrder_iff]
  simp only [parseConfig, h, orderSections_eq, Option.map_some, Option.some.injEq, Prod.mk.injEq, true_and]
  exact exists_eq_left'

def twoBaselines : Bytes :=
  ascii "<dbase _>\n</dbase>\n<dbase _>\n</dbase>\n<dbase tango>\nallow rdonly from all\n</dbase>\n"

def sectionsOfTwoBaselines : List Xsctrl :=
  [⟨ascii "_", .unset, [], []⟩, ⟨ascii "_", .unset, [], []⟩, ⟨ascii "tango", .unset, [], [⟨.rdonly, 0, 0⟩]⟩]

theorem configSections_twoBaselines :
    configSections (fun _ => (0, false)) twoBaselines = .ok sectionsOfTwoBaselines := by
  decide +kernel

theorem sections_in_order_two :
    (∃ l, parseConfig (fun _ => (0, false)) [] twoBaselines = some (none, l) ∧ InOrder sectionsOfTwoBaselines l) ↔
      WellPlaced sectionsOfTwoBaselines :=
  sections_in_order_iff _ _ _ _ configSections_twoBaselines

/-- The first of two baseline sections of a file stays behind the named one. -/
theorem sections_out_of_order :
    ∃ sections, configSections (fun _ => (0, false)) twoBaselines = .ok sections ∧
      ¬ ∃ l, parseConfig (fun _ => (0, false)) [] twoBaselines = some (none, l) ∧ InOrder sections l := by
  refine ⟨sectionsOfTwoBaselines, configSections_twoBaselines, ?_⟩
  rintro ⟨l, hparse, h⟩
  have hlist : parseConfig (fun _ => (0, false)) [] twoBaselines = some (none,
      [⟨ascii "_", .unset, [], []⟩, ⟨ascii "tango", .unset, [], [⟨.rdonly, 0, 0⟩]⟩, ⟨ascii "_", .unset, [], []⟩]) := by
    decide +kernel
  rw [hlist] at hparse
  cases hparse
  have hbehind := (List.pairwise_cons.1 (List.pairwise_cons.1 h.baselinesFirst).2).1
  have hbaseline : Xsctrl.Baseline ⟨ascii "_", .unset, [], []⟩ := rfl
  exact hbehind _ List.mem_cons_self (by decide) hbaseline

end RdfStore.Dbms
