import RdfStore.Query.Inference
import Mathlib.Order.WellFoundedSet
import Mathlib.Data.Finset.Card

/-!
# Closures

A walk ends with the least closed set when nothing of it was walked through
before and no subclass cycle is in it that goes past the resource it began with.

    a walk from one resource            (walk_ok)
    a call                              (sameAs_fresh)
    calls one after the other           (sameAs_run)
-/

namespace RdfStore.Inference

open ByteMem

variable {o : Ontology} {what : What}

/-! ## More fuel -/

theorem visitAll_mono {closure : List (Bytes × List Name)} {deeper deeper' : Name → Walk → Option Walk}
    (h : ∀ x w w', deeper x w = some w' → deeper' x w = some w') (note : Bool) (cp : Name) (l : List Name) {w w' : Walk}
    (hw : visitAll closure deeper note cp l w = some w') : visitAll closure deeper' note cp l w = some w' := by
  induction l generalizing w with
  | nil => exact hw
  | cons ss rest ih =>
    rw [visitAll, Option.bind_eq_some_iff] at hw
    obtain ⟨v, hv, hw⟩ := hw
    rw [visitAll, Option.bind_eq_some_iff]
    refine ⟨v, ?_, ih hw⟩
    rw [visit] at hv ⊢
    split
    · rename_i hskip
      rwa [if_pos hskip] at hv
    · rename_i hskip
      rw [if_neg hskip] at hv
      cases hknown : closure.lookup ss.text with
      | some known => rwa [hknown] at hv
      | none =>
        rw [hknown, Option.map_eq_some_iff] at hv
        obtain ⟨u, hu, rfl⟩ := hv
        rw [h ss w u hu]
        rfl

theorem walk_mono {closure : List (Bytes × List Name)} {n m : ℕ} (hnm : n ≤ m) {cp : Name} {w w' : Walk}
    (h : walk o closure what n cp w = some w') : walk o closure what m cp w = some w' := by
  induction n generalizing m cp w w' with
  | zero => cases h
  | succ n ih =>
    obtain ⟨m, rfl⟩ : ∃ k, m = k + 1 := ⟨m - 1, by omega⟩
    have hdeeper : ∀ x w w', walk o closure what n x w = some w' → walk o closure what m x w = some w' :=
      fun x w w' h => ih (by omega) h
    rw [walk, Option.bind_eq_some_iff] at h ⊢
    obtain ⟨v, hv, hw⟩ := h
    refine ⟨v, ?_, ?_⟩
    · split
      · rename_i hmarked
        rwa [if_pos hmarked] at hv
      · rename_i hmarked
        rw [if_neg hmarked, Option.bind_eq_some_iff] at hv
        obtain ⟨u, hu, hv⟩ := hv
        rw [Option.bind_eq_some_iff]
        exact ⟨u, visitAll_mono hdeeper _ _ _ hu, visitAll_mono hdeeper _ _ _ hv⟩
    · split
      · rename_i hresource
        rwa [if_pos hresource] at hw
      · rename_i hresource
        rw [if_neg hresource] at hw
        exact visitAll_mono hdeeper _ _ _ hw

/-! ## Names -/

theorem mem_put {l : List Name} {x : Name} (h : ∀ y ∈ l, y.text = x.text → y = x) (y : Name) :
    y ∈ put l x ↔ y ∈ l ∨ y = x := by
  rw [put]
  split
  · rename_i hkey
    obtain ⟨z, hz, htext⟩ := List.any_eq_true.1 hkey
    rw [decide_eq_true_eq] at htext
    have hx : x ∈ l := h z hz htext ▸ hz
    have hsame : l.map (fun y => if y.text = x.text then x else y) = l := by
      refine (List.map_congr_left fun u hu => ?_).trans (List.map_id l)
      split
      · rename_i hu'
        exact (h u hu hu').symm
      · rfl
    rw [hsame]
    constructor
    · exact Or.inl
    · rintro (hy | rfl)
      · exact hy
      · exact hx
  · rw [List.mem_append, List.mem_singleton]

theorem mem_put_all {l k : List Name} (h : ∀ x ∈ l ++ k, ∀ y ∈ l ++ k, y.text = x.text → y = x) (y : Name) :
    y ∈ k.foldl put l ↔ y ∈ l ∨ y ∈ k := by
  induction k generalizing l with
  | nil => simp
  | cons x k ih =>
    have hput : ∀ z, z ∈ put l x ↔ z ∈ l ∨ z = x :=
      mem_put fun z hz htext => h x (by simp) z (by simp [hz]) htext
    have hin : ∀ z ∈ put l x ++ k, z ∈ l ++ x :: k := by
      intro z hz
      rw [List.mem_append, hput] at hz
      simp only [List.mem_append, List.mem_cons]
      tauto
    rw [List.foldl_cons, ih fun u hu z hz => h u (hin u hu) z (hin z hz), hput, List.mem_cons, or_assoc]

theorem mem_subjects (l : List (Name × Name)) (os : List Name) (y : Name) :
    y ∈ subjects l os ↔ ∃ x ∈ os, (y, x) ∈ l := by
  simp [subjects, and_comm]

theorem mem_objects (l : List (Name × Name)) (x y : Name) : y ∈ objects l x ↔ (x, y) ∈ l := by
  simp only [objects, List.mem_map, List.mem_filter, decide_eq_true_eq]
  constructor
  · rintro ⟨e, ⟨he, rfl⟩, rfl⟩
    exact he
  · intro h
    exact ⟨(x, y), ⟨h, rfl⟩, rfl⟩

/-! ## During a walk -/

/-- `exists $sth->{'cp_sameas'}->{ $cp->toString }` -/
def Marked (w : Walk) (x : Name) : Prop := (w.sameas.lookup x.text).isSome = true

instance (w : Walk) (x : Name) : Decidable (Marked w x) := inferInstanceAs (Decidable (_ = true))

section

variable (o what) (root : Name)

/-- How far the walk is.  The `busy` resources are marked, and those near them are being visited. -/
structure Walked (busy : Set Name) (w : Walk) : Prop where
  begun : root ∈ w.cc
  inside : ∀ x ∈ w.cc, Reaches o what root x
  finished : ∀ x ∈ w.cc, x ≠ root → Marked w x ∧ ∀ y, Below o what x y → y ∈ w.cc
  near : ∀ x, Reaches o what root x → x ∉ busy → Marked w x → ∀ y, Near o x y → y ∈ w.cc ∨ y = x
  noted : ∀ x, Reaches o what root x → ∀ y ∈ (w.sameas.lookup x.text).getD [], y ∈ w.cc ∧ y ≠ root ∧ Near o x y

/-- Nothing is lost, and only what is reached is marked. -/
structure Grown (w w' : Walk) : Prop where
  cc : ∀ x ∈ w.cc, x ∈ w'.cc
  marked : ∀ t, (w.sameas.lookup t).isSome = true → (w'.sameas.lookup t).isSome = true
  new : ∀ t, (w'.sameas.lookup t).isSome = true →
    (w.sameas.lookup t).isSome = true ∨ ∃ x, Reaches o what root x ∧ x.text = t

/-- What a walk from a resource has done. -/
structure Done (busy : Set Name) (x : Name) (w w' : Walk) : Prop where
  walked : Walked o what root busy w'
  grown : Grown o what root w w'
  marked : Marked w' x
  below : ∀ y, Below o what x y → y ∈ w'.cc ∨ y = x

/-- Nothing that is reached was walked through before. -/
structure Untouched (closure : List (Bytes × List Name)) : Prop where
  texts : ∀ x y, Reaches o what root x → Reaches o what root y → x.text = y.text → x = y
  uncached : ∀ x, Reaches o what root x → closure.lookup x.text = none

end

variable {root : Name}

theorem Grown.refl (w : Walk) : Grown o what root w w := ⟨fun _ h => h, fun _ h => h, fun _ h => Or.inl h⟩

theorem Grown.trans {w w' w'' : Walk} (h : Grown o what root w w') (h' : Grown o what root w' w'') :
    Grown o what root w w'' where
  cc := fun x hx => h'.cc x (h.cc x hx)
  marked := fun t ht => h'.marked t (h.marked t ht)
  new := fun t ht => (h'.new t ht).elim (h.new t) Or.inr

theorem hasKey_iff {closure : List (Bytes × List Name)} (h : Untouched o what root closure) {busy : Set Name} {w : Walk}
    (hw : Walked o what root busy w) {x : Name} (hx : Reaches o what root x) : hasKey w.cc x = true ↔ x ∈ w.cc := by
  rw [hasKey, List.any_eq_true]
  constructor
  · rintro ⟨y, hy, htext⟩
    rw [decide_eq_true_eq] at htext
    exact h.texts y x (hw.inside y hy) hx htext ▸ hy
  · intro hmem
    exact ⟨x, hmem, decide_eq_true rfl⟩

theorem lookup_cons_text {x y : Name} (l : List Name) (sameas : List (Bytes × List Name)) :
    ((x.text, l) :: sameas).lookup y.text = if y.text = x.text then some l else sameas.lookup y.text := by
  rw [List.lookup_cons]
  by_cases h : y.text = x.text
  · rw [if_pos h, h, beq_self_eq_true]
  · rw [if_neg h, beq_eq_false_iff_ne.2 h]

/-- A resource whose walk is done is put into the closure. -/
theorem Walked.put {closure : List (Bytes × List Name)} (h : Untouched o what root closure) {busy : Set Name} {w : Walk}
    (hw : Walked o what root busy w) {ss : Name} (hss : Reaches o what root ss) (hmarked : Marked w ss)
    (hbelow : ∀ y, Below o what ss y → y ∈ w.cc ∨ y = ss) :
    Walked o what root busy ⟨put w.cc ss, w.sameas⟩ := by
  have hmem : ∀ y, y ∈ Inference.put w.cc ss ↔ y ∈ w.cc ∨ y = ss :=
    mem_put fun y hy htext => h.texts y ss (hw.inside y hy) hss htext
  refine ⟨(hmem _).2 (Or.inl hw.begun), fun x hx => ?_, fun x hx hroot => ?_, fun x hx hbusy hx' y hy => ?_,
    fun x hx y hy => ?_⟩
  · rcases (hmem x).1 hx with hx | rfl
    · exact hw.inside x hx
    · exact hss
  · rcases (hmem x).1 hx with hx | rfl
    · obtain ⟨hmarked, hall⟩ := hw.finished x hx hroot
      exact ⟨hmarked, fun y hy => (hmem y).2 (Or.inl (hall y hy))⟩
    · exact ⟨hmarked, fun y hy => (hmem y).2 (hbelow y hy)⟩
  · exact (hw.near x hx hbusy hx' y hy).imp_left fun hmem' => (hmem y).2 (Or.inl hmem')
  · obtain ⟨hcc, hne, hnear⟩ := hw.noted x hx y hy
    exact ⟨(hmem y).2 (Or.inl hcc), hne, hnear⟩

/-- It is kept in `cp_sameas`, too. -/
theorem Walked.note {closure : List (Bytes × List Name)} (h : Untouched o what root closure) {busy : Set Name} {w : Walk}
    (hw : Walked o what root busy w) {cp ss : Name} (hcp : Reaches o what root cp) (hmarked : Marked w cp)
    (hss : ss ∈ w.cc) (hroot : ss ≠ root) (hnear : Near o cp ss) :
    Walked o what root busy ⟨w.cc, (cp.text, Inference.put ((w.sameas.lookup cp.text).getD []) ss) :: w.sameas⟩ := by
  have hmarks : ∀ x, Marked ⟨w.cc, (cp.text, Inference.put ((w.sameas.lookup cp.text).getD []) ss) :: w.sameas⟩ x ↔
      Marked w x := by
    intro x
    rw [Marked, Marked, lookup_cons_text]
    split
    · rename_i htext
      rw [htext]
      exact iff_of_true rfl hmarked
    · rfl
  refine ⟨hw.begun, hw.inside, fun x hx hne => ?_, fun x hx hbusy hx' => hw.near x hx hbusy ((hmarks x).1 hx'),
    fun x hx y hy => ?_⟩
  · exact ⟨(hmarks x).2 (hw.finished x hx hne).1, (hw.finished x hx hne).2⟩
  · rw [lookup_cons_text] at hy
    split at hy
    · rename_i htext
      have hx' := h.texts x cp hx hcp htext
      subst hx'
      rw [Option.getD_some, mem_put fun z hz htext => h.texts z ss (hw.inside z (hw.noted x hx z hz).1)
        (hw.inside ss hss) htext] at hy
      rcases hy with hy | rfl
      · exact hw.noted x hx y hy
      · exact ⟨hss, hroot, hnear⟩
    · exact hw.noted x hx y hy

theorem grown_note {w : Walk} {cp : Name} (hcp : Reaches o what root cp) (l : List Name) :
    Grown o what root w ⟨w.cc, (cp.text, l) :: w.sameas⟩ where
  cc := fun _ hx => hx
  marked := fun t ht => by
    rw [List.lookup_cons]
    cases t == cp.text
    · exact ht
    · rfl
  new := fun t ht => by
    by_cases htext : t = cp.text
    · exact Or.inr ⟨cp, hcp, htext.symm⟩
    · rw [List.lookup_cons, beq_eq_false_iff_ne.2 htext] at ht
      exact Or.inl ht

/-- One resource is visited. -/
theorem visit_ok {closure : List (Bytes × List Name)} (h : Untouched o what root closure) {busy : Set Name} {w : Walk}
    (hw : Walked o what root busy w) {note : Bool} {cp ss : Name} (hcp : Reaches o what root cp) (hmarked : Marked w cp)
    (hnote : note = true → Near o cp ss) (hss : Reaches o what root ss)
    (hdeeper : ss ∉ w.cc → ss ≠ cp → ∃ n w', walk o closure what n ss w = some w' ∧ Done o what root busy ss w w') :
    ∃ n w', visit closure (walk o closure what n) note cp ss w = some w' ∧ Walked o what root busy w' ∧
      Grown o what root w w' ∧ (ss ∈ w'.cc ∨ ss = cp) := by
  by_cases hskip : ss ∈ w.cc ∨ ss = cp
  · refine ⟨0, w, ?_, hw, .refl w, hskip⟩
    rw [visit, if_pos]
    rwa [hasKey_iff h hw hss]
  · obtain ⟨hcc, hne⟩ := not_or.1 hskip
    obtain ⟨n, v, hv, hdone⟩ := hdeeper hcc hne
    have hput := hdone.walked.put h hss hdone.marked hdone.below
    have hmem : ∀ y, y ∈ put v.cc ss ↔ y ∈ v.cc ∨ y = ss :=
      mem_put fun y hy htext => h.texts y ss (hdone.walked.inside y hy) hss htext
    have hgrown : Grown o what root w ⟨put v.cc ss, v.sameas⟩ :=
      hdone.grown.trans ⟨fun x hx => (hmem x).2 (Or.inl hx), fun _ ht => ht, fun _ ht => Or.inl ht⟩
    have hin : ss ∈ put v.cc ss := (hmem ss).2 (Or.inr rfl)
    have hvisit : visit closure (walk o closure what n) note cp ss w = some
        ⟨put v.cc ss, if note then (cp.text, put ((v.sameas.lookup cp.text).getD []) ss) :: v.sameas else v.sameas⟩ := by
      rw [visit, if_neg, h.uncached ss hss]
      · simp only [hv, Option.map_some]
      · rw [hasKey_iff h hw hss]
        exact hskip
    refine ⟨n, _, hvisit, ?_⟩
    cases note with
    | false => exact ⟨hput, hgrown, Or.inl hin⟩
    | true =>
      have hroot : ss ≠ root := fun heq => hcc (heq ▸ hw.begun)
      exact ⟨hput.note h hcp (hdone.grown.marked _ hmarked) hin hroot (hnote rfl), hgrown.trans (grown_note hcp _),
        Or.inl hin⟩

/-- The resources of a list are visited. -/
theorem visitAll_ok {closure : List (Bytes × List Name)} (h : Untouched o what root closure) {busy : Set Name}
    {note : Bool} {cp : Name} (hcp : Reaches o what root cp) (l : List Name) (hnote : note = true → ∀ ss ∈ l, Near o cp ss)
    (hl : ∀ ss ∈ l, Reaches o what root ss) {w : Walk} (hw : Walked o what root busy w) (hmarked : Marked w cp)
    (hdeeper : ∀ ss ∈ l, ∀ v, Walked o what root busy v → Grown o what root w v → ss ∉ v.cc → ss ≠ cp →
      ∃ n v', walk o closure what n ss v = some v' ∧ Done o what root busy ss v v') :
    ∃ n w', visitAll closure (walk o closure what n) note cp l w = some w' ∧ Walked o what root busy w' ∧
      Grown o what root w w' ∧ ∀ ss ∈ l, ss ∈ w'.cc ∨ ss = cp := by
  induction l generalizing w with
  | nil => exact ⟨0, w, rfl, hw, .refl w, by simp⟩
  | cons ss rest ih =>
    rw [List.forall_mem_cons] at hl hdeeper
    obtain ⟨n, v, hv, hwalked, hgrown, hin⟩ := visit_ok h hw hcp hmarked (fun hn => hnote hn ss List.mem_cons_self) hl.1
      (hdeeper.1 w hw (.refl w))
    obtain ⟨m, w', hw', hwalked', hgrown', hall⟩ := ih (fun hn ss hss => hnote hn ss (List.mem_cons_of_mem _ hss)) hl.2
      hwalked (hgrown.marked _ hmarked) fun ss hss u hu hgrown' => hdeeper.2 ss hss u hu (hgrown.trans hgrown')
    have hfirst : visitAll closure (walk o closure what (max n m)) note cp [ss] w = some v :=
      visitAll_mono (fun x w w' hx => walk_mono (Nat.le_max_left n m) hx) note cp [ss] (by simp [visitAll, hv])
    have hrest : visitAll closure (walk o closure what (max n m)) note cp rest v = some w' :=
      visitAll_mono (fun x w w' hx => walk_mono (Nat.le_max_right n m) hx) note cp rest hw'
    have hvisit : visit closure (walk o closure what (max n m)) note cp ss w = some v := by
      simpa [visitAll] using hfirst
    refine ⟨max n m, w', by rw [visitAll, hvisit, Option.bind_some, hrest], hwalked', hgrown.trans hgrown', ?_⟩
    rw [List.forall_mem_cons]
    exact ⟨hin.imp_left (hgrown'.cc ss), hall⟩

/-! ## A walk -/

/-- The resources of a model, and one more. -/
def names (o : Ontology) (root : Name) : Finset Name :=
  (root :: (o.sameAs ++ o.subClassOf ++ o.subPropertyOf).flatMap fun e => [e.1, e.2]).toFinset

theorem mem_names_of_reaches {x : Name} (h : Reaches o what root x) : x ∈ names o root := by
  rw [names, List.mem_toFinset, List.mem_cons, List.mem_flatMap]
  cases h with
  | refl => exact Or.inl rfl
  | tail _ hlink =>
    right
    simp only [List.mem_append, List.mem_cons, List.not_mem_nil, or_false]
    rcases hlink with (h | h) | ⟨-, h⟩
    · exact ⟨_, Or.inl (Or.inl h), Or.inl rfl⟩
    · exact ⟨_, Or.inl (Or.inl h), Or.inr rfl⟩
    · rw [Ontology.searched] at h
      split at h
      · exact ⟨_, Or.inl (Or.inr h), Or.inl rfl⟩
      · exact ⟨_, Or.inr h, Or.inl rfl⟩

/-- The resources whose `sameAs` statements were not followed yet. -/
def unmarked (o : Ontology) (root : Name) (w : Walk) : Finset Name := (names o root).filter fun x => ¬ Marked w x

theorem Grown.unmarked_le {w w' : Walk} (h : Grown o what root w w') :
    (unmarked o root w').card ≤ (unmarked o root w).card := by
  refine Finset.card_le_card fun x hx => ?_
  rw [unmarked, Finset.mem_filter] at hx ⊢
  exact ⟨hx.1, fun hmarked => hx.2 (h.marked _ hmarked)⟩

theorem unmarked_mark_lt {w : Walk} {cp : Name} (hcp : Reaches o what root cp) (h : ¬ Marked w cp) (l : List Name) :
    (unmarked o root ⟨w.cc, (cp.text, l) :: w.sameas⟩).card < (unmarked o root w).card := by
  refine Finset.card_lt_card ⟨fun x hx => ?_, fun hsub => ?_⟩
  · rw [unmarked, Finset.mem_filter] at hx ⊢
    exact ⟨hx.1, fun hmarked => hx.2 ((grown_note hcp l).marked _ hmarked)⟩
  · have hmem : cp ∈ unmarked o root w := Finset.mem_filter.2 ⟨mem_names_of_reaches hcp, h⟩
    have hmarked := (Finset.mem_filter.1 (hsub hmem)).2
    rw [Marked, lookup_cons_text, if_pos rfl] at hmarked
    exact hmarked rfl

/-- Below another resource that is reached, but not the one the walk began with. -/
def Down (o : Ontology) (what : What) (root y x : Name) : Prop :=
  Reaches o what root x ∧ Below o what x y ∧ y ≠ x ∧ y ≠ root

/-- The `sameAs` statements of a resource are followed, when there are walks from those near it. -/
theorem walk_near {closure : List (Bytes × List Name)} (h : Untouched o what root closure) {busy : Set Name} {w : Walk}
    (hw : Walked o what root busy w) {cp : Name} (hcp : Reaches o what root cp) (hmarked : ¬ Marked w cp)
    (hdeeper : ∀ ss v, Reaches o what root ss → Walked o what root (insert cp busy) v →
      (unmarked o root v).card < (unmarked o root w).card →
      ∃ n v', walk o closure what n ss v = some v' ∧ Done o what root (insert cp busy) ss v v') :
    ∃ n v, ((visitAll closure (walk o closure what n) true cp (subjects o.sameAs [cp])
        ⟨w.cc, (cp.text, []) :: w.sameas⟩).bind
          (visitAll closure (walk o closure what n) true cp (objects o.sameAs cp))) = some v ∧
      Walked o what root busy v ∧ Grown o what root w v ∧ Marked v cp := by
  have hgrown := grown_note (w := w) hcp []
  have hless := unmarked_mark_lt hcp hmarked []
  have hstart : Walked o what root (insert cp busy) ⟨w.cc, (cp.text, []) :: w.sameas⟩ := by
    refine ⟨hw.begun, hw.inside, fun x hx hne => ⟨hgrown.marked _ (hw.finished x hx hne).1, (hw.finished x hx hne).2⟩,
      fun x hx hbusy hmarked => ?_, fun x hx y hy => ?_⟩
    · rw [Set.mem_insert_iff, not_or] at hbusy
      refine hw.near x hx hbusy.2 ?_
      rwa [Marked, lookup_cons_text, if_neg fun htext => hbusy.1 (h.texts x cp hx hcp htext)] at hmarked
    · rw [lookup_cons_text] at hy
      split at hy
      · simp at hy
      · exact hw.noted x hx y hy
  have hstartmarked : Marked ⟨w.cc, (cp.text, []) :: w.sameas⟩ cp := by
    rw [Marked, lookup_cons_text, if_pos rfl]
    rfl
  have hsubjects : ∀ ss ∈ subjects o.sameAs [cp], Near o cp ss := by
    intro ss hss
    obtain ⟨x, hx, hmem⟩ := (mem_subjects _ _ _).1 hss
    cases List.mem_singleton.1 hx
    exact Or.inl hmem
  have hobjects : ∀ ss ∈ objects o.sameAs cp, Near o cp ss := fun ss hss => Or.inr ((mem_objects _ _ _).1 hss)
  have hreach : ∀ ss, Near o cp ss → Reaches o what root ss := fun ss hnear => hcp.tail (Or.inl hnear)
  obtain ⟨n, u, hu, hwalked, hgrown', hin⟩ := visitAll_ok h hcp _ (fun _ => hsubjects) (fun ss hss => hreach ss (hsubjects ss hss))
    hstart hstartmarked fun ss hss v hv hgrown' _ _ => hdeeper ss v (hreach ss (hsubjects ss hss)) hv
      (lt_of_le_of_lt hgrown'.unmarked_le hless)
  obtain ⟨m, v, hv, hwalked', hgrown'', hin'⟩ := visitAll_ok h hcp _ (fun _ => hobjects) (fun ss hss => hreach ss (hobjects ss hss))
    hwalked (hgrown'.marked _ hstartmarked) fun ss hss v hv hgrown'' _ _ => hdeeper ss v (hreach ss (hobjects ss hss)) hv
      (lt_of_le_of_lt (hgrown'.trans hgrown'').unmarked_le hless)
  have hall : ∀ y, Near o cp y → y ∈ v.cc ∨ y = cp := by
    rintro y (hy | hy)
    · exact (hin y ((mem_subjects _ _ _).2 ⟨cp, List.mem_singleton_self _, hy⟩)).imp_left (hgrown''.cc y)
    · exact hin' y ((mem_objects _ _ _).2 hy)
  refine ⟨max n m, v, ?_, ⟨hwalked'.begun, hwalked'.inside, hwalked'.finished, fun x hx hbusy hx' y hy => ?_,
    hwalked'.noted⟩, hgrown.trans (hgrown'.trans hgrown''), hgrown''.marked _ (hgrown'.marked _ hstartmarked)⟩
  · rw [visitAll_mono (fun x w w' hx => walk_mono (Nat.le_max_left n m) hx) _ _ _ hu, Option.bind_some,
      visitAll_mono (fun x w w' hx => walk_mono (Nat.le_max_right n m) hx) _ _ _ hv]
  · by_cases hxcp : x = cp
    · subst hxcp
      exact hall y hy
    · exact hwalked'.near x hx (by rw [Set.mem_insert_iff, not_or]; exact ⟨hxcp, hbusy⟩) hx' y hy

/-- What is below a resource is visited; what is below those kept in `cp_sameas` is there already. -/
theorem walk_below {closure : List (Bytes × List Name)} (h : Untouched o what root closure) {busy : Set Name} {w : Walk}
    (hw : Walked o what root busy w) {cp : Name} (hcp : Reaches o what root cp) (hmarked : Marked w cp)
    (hwhat : what ≠ .aResource)
    (hdeeper : ∀ ss v, Down o what root ss cp → Walked o what root busy v → Grown o what root w v →
      ∃ n v', walk o closure what n ss v = some v' ∧ Done o what root busy ss v v') :
    ∃ n w', visitAll closure (walk o closure what n) false cp
        (subjects (o.searched what) (cp :: (w.sameas.lookup cp.text).getD [])) w = some w' ∧
      Done o what root busy cp w w' := by
  have hnoted := hw.noted cp hcp
  have hfound : ∀ ss ∈ subjects (o.searched what) (cp :: (w.sameas.lookup cp.text).getD []),
      Below o what cp ss ∨ ss ∈ w.cc := by
    intro ss hss
    obtain ⟨x, hx, hmem⟩ := (mem_subjects _ _ _).1 hss
    rcases List.mem_cons.1 hx with rfl | hx
    · exact Or.inl ⟨hwhat, hmem⟩
    · obtain ⟨hcc, hroot, -⟩ := hnoted x hx
      exact Or.inr ((hw.finished x hcc hroot).2 ss ⟨hwhat, hmem⟩)
  have hreach : ∀ ss ∈ subjects (o.searched what) (cp :: (w.sameas.lookup cp.text).getD []), Reaches o what root ss :=
    fun ss hss => (hfound ss hss).elim (fun hbelow => hcp.tail (Or.inr hbelow)) (hw.inside ss)
  obtain ⟨n, w', hw', hwalked, hgrown, hin⟩ := visitAll_ok h hcp _ (fun hnote => absurd hnote Bool.false_ne_true) hreach hw
    hmarked fun ss hss v hv hgrown hcc hne => by
      have hbelow := (hfound ss hss).resolve_right fun hmem => hcc (hgrown.cc ss hmem)
      exact hdeeper ss v ⟨hcp, hbelow, hne, fun heq => hcc (heq ▸ hv.begun)⟩ hv hgrown
  refine ⟨n, w', hw', hwalked, hgrown, hgrown.marked _ hmarked, fun y hy => ?_⟩
  exact hin y ((mem_subjects _ _ _).2 ⟨cp, List.mem_cons_self, hy.2⟩)

/-- **A walk from a resource** that is reached, with its two inductions: each `sameAs` walk marks one resource more,
and what is visited below a resource is further down. -/
theorem walk_ok {closure : List (Bytes × List Name)} (h : Untouched o what root closure)
    (hdown : WellFounded (Down o what root)) (k : ℕ) (cp : Name) (hcp : Reaches o what root cp) (busy : Set Name) (w : Walk)
    (hw : Walked o what root busy w) (hk : (unmarked o root w).card ≤ k) :
    ∃ n w', walk o closure what n cp w = some w' ∧ Done o what root busy cp w w' := by
  induction k using Nat.strong_induction_on generalizing cp busy w with
  | _ k ihk =>
    induction cp using hdown.induction generalizing busy w with
    | _ cp ihcp =>
      obtain ⟨n, v, hv, hwalked, hgrown, hmarked⟩ : ∃ n v,
          (if (w.sameas.lookup cp.text).isSome then some w
            else (visitAll closure (walk o closure what n) true cp (subjects o.sameAs [cp])
              ⟨w.cc, (cp.text, []) :: w.sameas⟩).bind
                (visitAll closure (walk o closure what n) true cp (objects o.sameAs cp))) = some v ∧
          Walked o what root busy v ∧ Grown o what root w v ∧ Marked v cp := by
        by_cases hmarked : Marked w cp
        · exact ⟨0, w, if_pos hmarked, hw, .refl w, hmarked⟩
        · obtain ⟨n, v, hv, hrest⟩ := walk_near h hw hcp hmarked fun ss v hss hv hless =>
            ihk _ (lt_of_lt_of_le hless hk) ss hss _ v hv (Nat.le_refl _)
          exact ⟨n, v, (if_neg hmarked).trans hv, hrest⟩
      obtain ⟨m, w', hw', hdone⟩ : ∃ m w',
          (if what = .aResource then some v
            else visitAll closure (walk o closure what m) false cp
              (subjects (o.searched what) (cp :: (v.sameas.lookup cp.text).getD [])) v) = some w' ∧
          Done o what root busy cp v w' := by
        by_cases hwhat : what = .aResource
        · exact ⟨0, v, if_pos hwhat, hwalked, .refl v, hmarked, fun y hy => absurd hwhat hy.1⟩
        · obtain ⟨m, w', hw', hdone⟩ := walk_below h hwalked hcp hmarked hwhat fun ss u hss hu hgrown' =>
            ihcp ss hss (hcp.tail (Or.inr hss.2.1)) busy u hu ((hgrown.trans hgrown').unmarked_le.trans hk)
          exact ⟨m, w', (if_neg hwhat).trans hw', hdone⟩
      refine ⟨max n m + 1, w', ?_, hdone.walked, hgrown.trans hdone.grown, hdone.marked, hdone.below⟩
      rw [walk, Option.bind_eq_some_iff]
      have hleft : ∀ x w w', walk o closure what n x w = some w' → walk o closure what (max n m) x w = some w' :=
        fun x w w' hx => walk_mono (Nat.le_max_left n m) hx
      have hright : ∀ x w w', walk o closure what m x w = some w' → walk o closure what (max n m) x w = some w' :=
        fun x w w' hx => walk_mono (Nat.le_max_right n m) hx
      refine ⟨v, ?_, ?_⟩
      · split
        · rename_i hmarked
          rwa [if_pos hmarked] at hv
        · rename_i hmarked
          rw [if_neg hmarked, Option.bind_eq_some_iff] at hv
          obtain ⟨u, hu, hv⟩ := hv
          rw [visitAll_mono hleft _ _ _ hu, Option.bind_some, visitAll_mono hleft _ _ _ hv]
      · split
        · rename_i hwhat
          rwa [if_pos hwhat] at hw'
        · rename_i hwhat
          rw [if_neg hwhat] at hw'
          exact visitAll_mono hright _ _ _ hw'

/-! ## A call -/

/-- Without cycles the resources below are further and further down. -/
theorem down_wellFounded (h : ∀ x, ¬ Relation.TransGen (Down o what root) x x) : WellFounded (Down o what root) := by
  have : IsStrictOrder Name (Relation.TransGen (Down o what root)) := { irrefl := h }
  have hfinite := Set.wellFoundedOn_iff.1 (Finset.wellFoundedOn (r := Relation.TransGen (Down o what root)) (names o root))
  refine Subrelation.wf (fun {y x} hyx => ?_) hfinite
  exact ⟨.single hyx, mem_names_of_reaches (hyx.1.tail (Or.inr hyx.2.1)), mem_names_of_reaches hyx.1⟩

/-- The closures that are kept after a call: those before it, and the one it found for resources that are the same. -/
theorem lookup_copied {cc near : List Name} {closure : List (Bytes × List Name)} {t : Bytes} {l : List Name}
    (h : (near.foldl (fun closure sa => (sa.text, cc.foldl put [sa]) :: closure) closure).lookup t = some l) :
    closure.lookup t = some l ∨ ∃ sa ∈ near, sa.text = t ∧ l = cc.foldl put [sa] := by
  induction near generalizing closure with
  | nil => exact Or.inl h
  | cons sa near ih =>
    rcases ih h with h | ⟨x, hx, htext⟩
    · rw [List.lookup_cons] at h
      by_cases ht : t = sa.text
      · rw [ht, beq_self_eq_true] at h
        exact Or.inr ⟨sa, List.mem_cons_self, ht.symm, (Option.some.inj h).symm⟩
      · rw [beq_eq_false_iff_ne.2 ht] at h
        exact Or.inl h
    · exact Or.inr ⟨x, List.mem_cons_of_mem _ hx, htext⟩

/-- **A call for a resource of which nothing was walked through.** -/
theorem sameAs_fresh {s : Closures} (h : Untouched o what root s.closure)
    (hsameas : ∀ x, Reaches o what root x → s.sameas.lookup x.text = none)
    (hcycle : ∀ x, ¬ Relation.TransGen (Down o what root) x x) :
    ∃ fuel l s', sameAs o fuel root what s = some (l, s') ∧ (∀ y, y ∈ l ↔ Reaches o what root y) ∧
      (∀ t k, s'.closure.lookup t = some k → s.closure.lookup t = some k ∨
        ∃ x, Reaches o what root x ∧ x.text = t ∧ ∀ y, y ∈ k ↔ Reaches o what x y) ∧
      ∀ t, (s'.sameas.lookup t).isSome = true →
        (s.sameas.lookup t).isSome = true ∨ ∃ x, Reaches o what root x ∧ x.text = t := by
  have hstart : Walked o what root ∅ ⟨[root], s.sameas⟩ := by
    have hunmarked : ∀ x, Reaches o what root x → ¬ Marked ⟨[root], s.sameas⟩ x := by
      intro x hx hmarked
      rw [Marked, hsameas x hx] at hmarked
      cases hmarked
    refine ⟨List.mem_singleton_self _, fun x hx => ?_, fun x hx hne => absurd (List.mem_singleton.1 hx) hne,
      fun x hx _ hmarked => absurd hmarked (hunmarked x hx), fun x hx y hy => ?_⟩
    · cases List.mem_singleton.1 hx
      exact .refl
    · simp [hsameas x hx] at hy
  obtain ⟨n, w, hw, hdone⟩ := walk_ok h (down_wellFounded hcycle) _ root .refl ∅ _ hstart (Nat.le_refl _)
  have hwalked := hdone.walked
  have hmem : ∀ y, y ∈ w.cc ↔ Reaches o what root y := by
    refine fun y => ⟨hwalked.inside y, fun hy => ?_⟩
    induction hy with
    | refl => exact hwalked.begun
    | @tail x y hx hlink ih =>
      have hmarked : Marked w x ∧ ∀ y, Below o what x y → y ∈ w.cc ∨ y = x := by
        by_cases hroot : x = root
        · subst hroot
          exact ⟨hdone.marked, hdone.below⟩
        · obtain ⟨hmarked, hbelow⟩ := hwalked.finished x ih hroot
          exact ⟨hmarked, fun y hy => Or.inl (hbelow y hy)⟩
      have hin : y ∈ w.cc ∨ y = x :=
        hlink.elim (hwalked.near x hx (Set.notMem_empty x) hmarked.1 y) (hmarked.2 y)
      rcases hin with hin | rfl
      · exact hin
      · exact ih
  refine ⟨n, w.cc, _, by rw [sameAs, h.uncached root .refl, hw]; rfl, hmem, fun t k hk => ?_, hdone.grown.new⟩
  rcases lookup_copied hk with hk | ⟨sa, hsa, htext, rfl⟩
  · rw [List.lookup_cons] at hk
    by_cases ht : t = root.text
    · rw [ht, beq_self_eq_true] at hk
      cases hk
      exact Or.inr ⟨root, .refl, ht.symm, hmem⟩
    · rw [beq_eq_false_iff_ne.2 ht] at hk
      exact Or.inl hk
  · obtain ⟨hcc, -, hnear⟩ := hwalked.noted root .refl sa hsa
    refine Or.inr ⟨sa, (hmem sa).1 hcc, htext, fun y => ?_⟩
    have hin : ∀ z ∈ [sa] ++ w.cc, Reaches o what root z := by
      intro z hz
      rcases List.mem_append.1 hz with hz | hz
      · cases List.mem_singleton.1 hz
        exact (hmem sa).1 hcc
      · exact (hmem z).1 hz
    rw [mem_put_all fun a ha b hb htext => h.texts b a (hin b hb) (hin a ha) htext, reaches_near hnear, ← hmem,
      List.mem_singleton]
    exact or_iff_right_of_imp fun heq => heq ▸ hcc

/-! ## Calls one after the other -/

/-- Calls, of which each met a condition on the calls before it and on the state. -/
inductive Calls (o : Ontology) (condition : List (Name × What) → Closures → Name → What → Prop) :
    List (Name × What) → Closures → Prop
  | start : Calls o condition [] .start
  | call {seen : List (Name × What)} {s s' : Closures} {fuel : ℕ} {x : Name} {what : What} {l : List Name}
      (h : Calls o condition seen s) (hcondition : condition seen s x what)
      (hcall : sameAs o fuel x what s = some (l, s')) : Calls o condition ((x, what) :: seen) s'

/-- No two resources have one text, and either the closure of the resource is kept and was found for calls of this
kind, or nothing of it was walked through and it has no cycle of subclasses that goes past the resource. -/
structure Suits (o : Ontology) (seen : List (Name × What)) (s : Closures) (x : Name) (what : What) : Prop where
  texts : ∀ a ∈ names o x ∪ (seen.map (·.1)).toFinset, ∀ b ∈ names o x ∪ (seen.map (·.1)).toFinset,
    a.text = b.text → a = b
  fresh : ((s.closure.lookup x.text).isSome = true ∧ ∀ c ∈ seen, Reaches o c.2 c.1 x → c.2 = what) ∨
    (∀ c ∈ seen, ∀ y, Reaches o what x y → ¬ Reaches o c.2 c.1 y) ∧
      ∀ y, ¬ Relation.TransGen (Down o what x) y y

/-- What is kept was reached by a call. -/
structure Kept (o : Ontology) (seen : List (Name × What)) (s : Closures) : Prop where
  closure : ∀ t k, s.closure.lookup t = some k →
    ∃ c ∈ seen, ∃ x, Reaches o c.2 c.1 x ∧ x.text = t ∧ ∀ y, y ∈ k ↔ Reaches o c.2 x y
  sameas : ∀ t, (s.sameas.lookup t).isSome = true → ∃ c ∈ seen, ∃ x, Reaches o c.2 c.1 x ∧ x.text = t

theorem mem_names_seen {seen : List (Name × What)} {c : Name × What} (hc : c ∈ seen) {x y : Name}
    (h : Reaches o c.2 c.1 y) : y ∈ names o x ∪ (seen.map (·.1)).toFinset := by
  rw [Finset.mem_union, List.mem_toFinset]
  have hmem := mem_names_of_reaches h
  rw [names, List.mem_toFinset, List.mem_cons] at hmem
  rcases hmem with rfl | hmem
  · exact Or.inr (List.mem_map_of_mem hc)
  · left
    rw [names, List.mem_toFinset]
    exact List.mem_cons_of_mem _ hmem

/-- A call in such a run returns the closure, and keeps what was reached. -/
theorem sameAs_kept {seen : List (Name × What)} {s : Closures} (h : Kept o seen s) {x : Name} {what : What}
    (hsuits : Suits o seen s x what) :
    ∃ fuel l s', sameAs o fuel x what s = some (l, s') ∧ (∀ y, y ∈ l ↔ Reaches o what x y) ∧
      Kept o ((x, what) :: seen) s' := by
  have hown : ∀ y, Reaches o what x y → y ∈ names o x ∪ (seen.map (·.1)).toFinset :=
    fun y hy => Finset.mem_union_left _ (mem_names_of_reaches hy)
  rcases hsuits.fresh with ⟨hkept, hkind⟩ | ⟨hapart, hcycle⟩
  · obtain ⟨k, hk⟩ := Option.isSome_iff_exists.1 hkept
    obtain ⟨c, hc, y, hy, htext, hmem⟩ := h.closure _ _ hk
    have hxy : y = x := hsuits.texts y (mem_names_seen hc hy) x (hown x .refl) htext
    subst hxy
    rw [hkind c hc hy] at hmem
    refine ⟨0, k, s, by rw [sameAs, hk], hmem, fun t l hl => ?_, fun t ht => ?_⟩
    · obtain ⟨d, hd, hrest⟩ := h.closure t l hl
      exact ⟨d, List.mem_cons_of_mem _ hd, hrest⟩
    · obtain ⟨d, hd, hrest⟩ := h.sameas t ht
      exact ⟨d, List.mem_cons_of_mem _ hd, hrest⟩
  · have huntouched : Untouched o what x s.closure := by
      refine ⟨fun a b ha hb => hsuits.texts a (hown a ha) b (hown b hb), fun y hy => ?_⟩
      by_contra hsome
      obtain ⟨k, hk⟩ := Option.ne_none_iff_exists'.1 hsome
      obtain ⟨c, hc, z, hz, htext, -⟩ := h.closure _ _ hk
      exact hapart c hc y hy (hsuits.texts z (mem_names_seen hc hz) y (hown y hy) htext ▸ hz)
    have hsameas : ∀ y, Reaches o what x y → s.sameas.lookup y.text = none := by
      intro y hy
      by_contra hsome
      obtain ⟨c, hc, z, hz, htext⟩ := h.sameas _ (Option.isSome_iff_ne_none.2 hsome)
      exact hapart c hc y hy (hsuits.texts z (mem_names_seen hc hz) y (hown y hy) htext ▸ hz)
    obtain ⟨fuel, l, s', hcall, hmem, hclosure, hmarks⟩ := sameAs_fresh huntouched hsameas hcycle
    refine ⟨fuel, l, s', hcall, hmem, fun t k hk => ?_, fun t ht => ?_⟩
    · rcases hclosure t k hk with hk | hnew
      · obtain ⟨d, hd, hrest⟩ := h.closure t k hk
        exact ⟨d, List.mem_cons_of_mem _ hd, hrest⟩
      · exact ⟨(x, what), List.mem_cons_self, hnew⟩
    · rcases hmarks t ht with ht | hnew
      · obtain ⟨d, hd, hrest⟩ := h.sameas t ht
        exact ⟨d, List.mem_cons_of_mem _ hd, hrest⟩
      · exact ⟨(x, what), List.mem_cons_self, hnew⟩

theorem sameAs_fuel {fuel fuel' : ℕ} {x : Name} {what : What} {s : Closures} {r r' : List Name × Closures}
    (h : sameAs o fuel x what s = some r) (h' : sameAs o fuel' x what s = some r') : r = r' := by
  rw [sameAs] at h h'
  cases hkept : s.closure.lookup x.text with
  | some k =>
    rw [hkept] at h h'
    exact Option.some.inj (h.symm.trans h')
  | none =>
    rw [hkept] at h h'
    obtain ⟨w, hw, rfl⟩ := Option.map_eq_some_iff.1 h
    obtain ⟨w', hw', rfl⟩ := Option.map_eq_some_iff.1 h'
    have heq := (walk_mono (Nat.le_max_left fuel fuel') hw).symm.trans (walk_mono (Nat.le_max_right fuel fuel') hw')
    cases Option.some.inj heq
    rfl

theorem Calls.kept {seen : List (Name × What)} {s : Closures} (h : Calls o (Suits o) seen s) : Kept o seen s := by
  induction h with
  | start => exact ⟨fun t k hk => (by cases hk), fun t ht => (by cases ht)⟩
  | call _ hsuits hcall ih =>
    obtain ⟨fuel, l, s', hcall', -, hkept⟩ := sameAs_kept ih hsuits
    cases sameAs_fuel hcall hcall'
    exact hkept

/-- **Call after call ends with the least closed set**, as long as each call suits the calls before it. -/
theorem sameAs_run {seen : List (Name × What)} {s : Closures} (h : Calls o (Suits o) seen s) {x : Name} {what : What}
    (hsuits : Suits o seen s x what) :
    ∃ fuel l s', sameAs o fuel x what s = some (l, s') ∧ ∀ y, y ∈ l ↔ y ∈ leastClosed o what x := by
  obtain ⟨fuel, l, s', hcall, hmem, -⟩ := sameAs_kept h.kept hsuits
  exact ⟨fuel, l, s', hcall, fun y => (hmem y).trans (mem_leastClosed_iff o what x y).symm⟩

/-- A resource with a text of one byte. -/
def short (c : UInt8) : Name := ⟨[c], false⟩

/-- One class is the same as another one, and a third one is below it. -/
def smallOntology : Ontology := ⟨[(short 0x61, short 0x62)], [(short 0x63, short 0x61)], []⟩

/-- The classes below the second one. -/
theorem sameAs_run_small :
    ∃ fuel l s', sameAs smallOntology fuel (short 0x62) .aClass .start = some (l, s') ∧
      ∀ y, y ∈ l ↔ y ∈ leastClosed smallOntology .aClass (short 0x62) := by
  refine sameAs_run .start ⟨by decide, Or.inr ⟨by simp, fun y hy => ?_⟩⟩
  have hends : ∀ a b, Relation.TransGen (Down smallOntology .aClass (short 0x62)) a b →
      a = short 0x63 ∧ b = short 0x61 := by
    intro a b hab
    have hstep : ∀ a b, Down smallOntology .aClass (short 0x62) a b → a = short 0x63 ∧ b = short 0x61 := by
      intro a b h
      have hmem : (a, b) ∈ [(short 0x63, short 0x61)] := h.2.1.2
      cases List.mem_singleton.1 hmem
      exact ⟨rfl, rfl⟩
    induction hab with
    | single h => exact hstep _ _ h
    | tail _ h ih => exact ⟨ih.1, (hstep _ _ h).2⟩
  obtain ⟨rfl, heq⟩ := hends y y hy
  exact absurd heq (by decide)

/-- Two classes below each other, one of them below a third one. -/
def cycleOntology : Ontology :=
  ⟨[], [(short 0x62, short 0x61), (short 0x63, short 0x62), (short 0x62, short 0x63)], []⟩

/-- A walk from a class goes on to the one below it, as long as that one is not in the closure. -/
theorem walk_next {n : ℕ} {cp ss : Name} (hsubjects : subjects cycleOntology.subClassOf [cp] = [ss])
    (hkey : ¬ (hasKey [short 0x61] ss = true ∨ ss = cp)) {sameas : List (Bytes × List Name)}
    (hnear : ∀ t, (sameas.lookup t).getD [] = [])
    (hdeeper : ∀ sameas : List (Bytes × List Name), (∀ t, (sameas.lookup t).getD [] = []) →
      walk cycleOntology [] .aClass n ss ⟨[short 0x61], sameas⟩ = none) :
    walk cycleOntology [] .aClass (n + 1) cp ⟨[short 0x61], sameas⟩ = none := by
  have hmark : ∀ t, (((cp.text, []) :: sameas).lookup t).getD [] = ([] : List Name) := by
    intro t
    rw [List.lookup_cons]
    cases t == cp.text
    · exact hnear t
    · rfl
  have hbelow : ∀ sameas : List (Bytes × List Name), (∀ t, (sameas.lookup t).getD [] = []) →
      visitAll [] (walk cycleOntology [] .aClass n) false cp
        (subjects cycleOntology.subClassOf (cp :: (sameas.lookup cp.text).getD [])) ⟨[short 0x61], sameas⟩ = none := by
    intro sameas hnear
    rw [hnear, hsubjects, visitAll, visit, if_neg hkey]
    simp [hdeeper sameas hnear]
  rw [walk]
  split
  · exact hbelow sameas hnear
  · exact hbelow _ hmark

/-- From one class of the cycle the walk goes on to the other one. -/
theorem walk_cycle (n : ℕ) : ∀ sameas : List (Bytes × List Name), (∀ t, (sameas.lookup t).getD [] = []) →
    walk cycleOntology [] .aClass n (short 0x62) ⟨[short 0x61], sameas⟩ = none ∧
      walk cycleOntology [] .aClass n (short 0x63) ⟨[short 0x61], sameas⟩ = none := by
  induction n with
  | zero => exact fun _ _ => ⟨rfl, rfl⟩
  | succ n ih =>
    intro sameas hnear
    exact ⟨walk_next (by decide) (by decide) hnear fun sameas h => (ih sameas h).2,
      walk_next (by decide) (by decide) hnear fun sameas h => (ih sameas h).1⟩

/-- The walk does not end when there is a cycle below the class. -/
theorem sameAs_run_not :
    ¬ ∀ (o : Ontology) (seen : List (Name × What)) (s : Closures), Calls o (fun _ _ _ _ => True) seen s →
      ∀ (x : Name) (what : What), ∃ fuel l s', sameAs o fuel x what s = some (l, s') ∧
        ∀ y, y ∈ l ↔ y ∈ leastClosed o what x := by
  intro h
  obtain ⟨fuel, l, s', hcall, -⟩ := h cycleOntology [] .start .start (short 0x61) .aClass
  have hnone : walk cycleOntology [] .aClass fuel (short 0x61) ⟨[short 0x61], []⟩ = none := by
    cases fuel with
    | zero => rfl
    | succ n => exact walk_next (by decide) (by decide) (fun _ => rfl) fun sameas h => (walk_cycle n sameas h).1
  rw [sameAs, show Closures.start.closure.lookup (short 0x61).text = none from rfl,
    show Closures.start.closure = [] from rfl, show Closures.start.sameas = [] from rfl, hnone] at hcall
  cases hcall

end RdfStore.Inference
