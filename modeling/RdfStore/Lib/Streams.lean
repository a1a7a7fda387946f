import Mathlib.Data.List.Nodup
import Mathlib.Data.Set.Function

/-!
# Streams that end, and first occurrences

A machine that answers one item at a time, and whose loops may be cut off: `none`
says that a loop was.  And the items of a list whose keys were not seen before.

    the items of a stream are unique                 (Yields.unique)
    a list cut off, and the same for two keys        (take_firsts_eq_iff)
-/

namespace Streams

/-! ## Streams -/

section

variable {σ α : Type*}

/-- Step by step the machine answers the items of the list, and then that there are no more. -/
inductive Yields (next : σ → Option (Option α × σ)) : σ → List α → Prop
  | nil {s t : σ} (h : next s = some (none, t)) : Yields next s []
  | cons {s t : σ} {a : α} {l : List α} (h : next s = some (some a, t)) (hl : Yields next t l) :
    Yields next s (a :: l)

theorem Yields.unique {next : σ → Option (Option α × σ)} {s : σ} {l m : List α} (hl : Yields next s l)
    (hm : Yields next s m) : l = m := by
  induction hl generalizing m with
  | nil h =>
    cases hm with
    | nil h' => rfl
    | cons h' _ => simp [h] at h'
  | cons h _ ih =>
    cases hm with
    | nil h' => simp [h] at h'
    | cons h' hm =>
      simp only [h, Option.some.injEq, Prod.mk.injEq] at h'
      obtain ⟨rfl, rfl⟩ := h'
      rw [ih hm]

end

/-! ## First occurrences -/

section

variable {α κ : Type*} [DecidableEq κ] (f : α → κ)

/-- The items whose keys are neither among those seen before nor among the keys of earlier items. -/
def firsts : List κ → List α → List α
  | _, [] => []
  | seen, a :: l => if f a ∈ seen then firsts seen l else a :: firsts (f a :: seen) l

variable {f}

theorem firsts_sublist (seen : List κ) (l : List α) : (firsts f seen l).Sublist l := by
  induction l generalizing seen with
  | nil => exact List.Sublist.refl []
  | cons a l ih =>
    unfold firsts
    split
    · exact (ih seen).cons a
    · exact (ih _).cons_cons a

theorem firsts_not_seen {seen : List κ} {l : List α} : ∀ a ∈ firsts f seen l, f a ∉ seen := by
  induction l generalizing seen with
  | nil => simp [firsts]
  | cons b l ih =>
    intro a ha
    unfold firsts at ha
    split at ha
    · exact ih a ha
    · rename_i hb
      rcases List.mem_cons.1 ha with rfl | ha
      · exact hb
      · intro hseen
        exact ih a ha (List.mem_cons_of_mem _ hseen)

theorem firsts_keys_nodup (seen : List κ) (l : List α) : ((firsts f seen l).map f).Nodup := by
  induction l generalizing seen with
  | nil => simp [firsts]
  | cons b l ih =>
    unfold firsts
    split
    · exact ih seen
    · rw [List.map_cons, List.nodup_cons]
      refine ⟨fun hmem => ?_, ih _⟩
      obtain ⟨a, ha, heq⟩ := List.mem_map.1 hmem
      exact firsts_not_seen a ha (heq ▸ List.mem_cons_self)

/-- Every key is still there. -/
theorem exists_firsts {seen : List κ} {l : List α} : ∀ a ∈ l, f a ∈ seen ∨ ∃ b ∈ firsts f seen l, f b = f a := by
  induction l generalizing seen with
  | nil => simp
  | cons c l ih =>
    intro a ha
    unfold firsts
    split
    · rename_i hc
      rcases List.mem_cons.1 ha with rfl | ha
      · exact Or.inl hc
      · exact ih a ha
    · rcases List.mem_cons.1 ha with rfl | ha
      · exact Or.inr ⟨a, List.mem_cons_self, rfl⟩
      · rcases @ih (f c :: seen) a ha with hseen | ⟨b, hb, heq⟩
        · rcases List.mem_cons.1 hseen with heq | hseen
          · exact Or.inr ⟨c, List.mem_cons_self, heq.symm⟩
          · exact Or.inl hseen
        · exact Or.inr ⟨b, List.mem_cons_of_mem _ hb, heq⟩

theorem firsts_congr_seen {seen seen' : List κ} (h : ∀ k, k ∈ seen ↔ k ∈ seen') (l : List α) :
    firsts f seen l = firsts f seen' l := by
  induction l generalizing seen seen' with
  | nil => rfl
  | cons a l ih =>
    have hcons : ∀ k, k ∈ f a :: seen ↔ k ∈ f a :: seen' := by simp [h]
    unfold firsts
    rw [ih h, ih hcons]
    simp [h]

theorem firsts_append (seen : List κ) (l m : List α) :
    firsts f seen (l ++ m) = firsts f seen l ++ firsts f (l.map f ++ seen) m := by
  induction l generalizing seen with
  | nil => rfl
  | cons a l ih =>
    rw [List.cons_append, firsts, firsts]
    split
    · rename_i ha
      rw [ih]
      congr 1
      refine firsts_congr_seen (fun k => ?_) m
      simp only [List.map_cons, List.cons_append, List.mem_cons, List.mem_append]
      constructor
      · exact Or.inr
      · rintro (rfl | h)
        · exact Or.inr ha
        · exact h
    · rw [ih, List.cons_append]
      congr 2
      refine firsts_congr_seen (fun k => ?_) m
      simp only [List.map_cons, List.cons_append, List.mem_cons, List.mem_append]
      tauto

/-- What is seen already is passed over. -/
theorem firsts_dropWhile (seen : List κ) (l : List α) :
    firsts f seen l = firsts f seen (l.dropWhile fun a => decide (f a ∈ seen)) := by
  induction l with
  | nil => rfl
  | cons a l ih =>
    by_cases ha : f a ∈ seen
    · rw [firsts, if_pos ha, List.dropWhile_cons_of_pos (by simpa using ha), ih]
    · rw [List.dropWhile_cons_of_neg (by simpa using ha)]

theorem firsts_map {β : Type*} (g : β → α) (seen : List κ) (l : List β) :
    firsts f seen (l.map g) = (firsts (f ∘ g) seen l).map g := by
  induction l generalizing seen with
  | nil => rfl
  | cons a l ih =>
    rw [List.map_cons, firsts, firsts, ih, ih, Function.comp_apply]
    by_cases ha : f (g a) ∈ seen
    · rw [if_pos ha, if_pos ha]
    · rw [if_neg ha, if_neg ha, List.map_cons]

theorem firsts_eq_nil_iff {seen : List κ} {l : List α} : firsts f seen l = [] ↔ ∀ a ∈ l, f a ∈ seen := by
  constructor
  · intro h a ha
    rcases exists_firsts (f := f) a ha with hseen | ⟨b, hb, -⟩
    · exact hseen
    · rw [h] at hb
      cases hb
  · intro h
    rw [List.eq_nil_iff_forall_not_mem]
    intro a ha
    exact firsts_not_seen a ha (h a ((firsts_sublist seen l).subset ha))

theorem firsts_eq_self {seen : List κ} {l : List α} (hnodup : (l.map f).Nodup) (hseen : ∀ a ∈ l, f a ∉ seen) :
    firsts f seen l = l := by
  induction l generalizing seen with
  | nil => rfl
  | cons a l ih =>
    rw [List.map_cons, List.nodup_cons] at hnodup
    rw [firsts, if_neg (hseen a List.mem_cons_self), ih hnodup.2]
    intro b hb hmem
    rcases List.mem_cons.1 hmem with heq | hmem
    · exact hnodup.1 (heq ▸ List.mem_map_of_mem hb)
    · exact hseen b (List.mem_cons_of_mem _ hb) hmem

/-- Two keys that tell the same items apart keep the same items. -/
theorem firsts_congr {ι : Type*} [DecidableEq ι] {g : α → ι} {l : List α} {seen : List κ} {seen' : List ι}
    (h : ∀ a ∈ l, ∀ b ∈ l, f a = f b ↔ g a = g b) (hseen : ∀ a ∈ l, f a ∈ seen ↔ g a ∈ seen') :
    firsts f seen l = firsts g seen' l := by
  induction l generalizing seen seen' with
  | nil => rfl
  | cons a l ih =>
    have hl : ∀ b ∈ l, ∀ c ∈ l, f b = f c ↔ g b = g c := fun b hb c hc =>
      h b (List.mem_cons_of_mem _ hb) c (List.mem_cons_of_mem _ hc)
    have hthen := ih hl fun b hb => hseen b (List.mem_cons_of_mem _ hb)
    have hcons : ∀ b ∈ l, f b ∈ f a :: seen ↔ g b ∈ g a :: seen' := fun b hb => by
      rw [List.mem_cons, List.mem_cons, hseen b (List.mem_cons_of_mem _ hb),
        h b (List.mem_cons_of_mem _ hb) a List.mem_cons_self]
    rw [firsts, firsts, hthen, ih hl hcons]
    simp [hseen a List.mem_cons_self]

/-- **First occurrences by a key, cut off at `k` items, are the first occurrences among the first `k` items**
exactly when the key tells these items apart, and either no two of them are the same or every later item has
a key of theirs. -/
theorem take_firsts_eq_iff [DecidableEq α] (k : ℕ) (l : List α) :
    (firsts f [] l).take k = firsts id [] (l.take k) ↔
      Set.InjOn f {a | a ∈ l.take k} ∧ ((l.take k).Nodup ∨ ∀ b ∈ l, ∃ a ∈ l.take k, f a = f b) := by
  have hsplit : firsts f [] l = firsts f [] (l.take k) ++ firsts f ((l.take k).map f) (l.drop k) := by
    conv_lhs => rw [← List.take_append_drop k l, firsts_append, List.append_nil]
  have hlength : (firsts f [] (l.take k)).length ≤ (l.take k).length := (firsts_sublist [] _).length_le
  have hk : (l.take k).length ≤ k := by
    rw [List.length_take]
    exact Nat.min_le_left k l.length
  have hall : ∀ a ∈ l.take k, a ∈ firsts id [] (l.take k) := by
    intro a ha
    have hfirst : id a ∈ [] ∨ ∃ b ∈ firsts id [] (l.take k), id b = id a := exists_firsts a ha
    rcases hfirst with h | ⟨b, hb, heq⟩
    · cases h
    · rw [id_eq, id_eq] at heq
      exact heq ▸ hb
  have hcongr : Set.InjOn f {a | a ∈ l.take k} → firsts f [] (l.take k) = firsts id [] (l.take k) := by
    intro hinj
    refine firsts_congr (fun a ha b hb => ⟨fun heq => hinj ha hb heq, fun heq => ?_⟩) (by simp)
    rw [id_eq, id_eq] at heq
    rw [heq]
  have hlater : firsts f ((l.take k).map f) (l.drop k) = [] ↔ ∀ b ∈ l, ∃ a ∈ l.take k, f a = f b := by
    rw [firsts_eq_nil_iff]
    constructor
    · intro h b hb
      rw [← List.take_append_drop k l] at hb
      rcases List.mem_append.1 hb with hb | hb
      · exact ⟨b, hb, rfl⟩
      · exact List.mem_map.1 (h b hb)
    · intro h b hb
      exact List.mem_map.2 (h b (List.mem_of_mem_drop hb))
  have htake : (firsts f [] l).take k = firsts f [] (l.take k) ++
      (firsts f ((l.take k).map f) (l.drop k)).take (k - (firsts f [] (l.take k)).length) := by
    rw [hsplit, List.take_append, List.take_of_length_le (le_trans hlength hk)]
  constructor
  · intro hcut
    have heq := htake.symm.trans hcut
    have hinj : Set.InjOn f {a | a ∈ l.take k} := by
      intro a ha b hb hab
      have hnodup : ((firsts id [] (l.take k)).map f).Nodup := by
        rw [← hcut]
        exact (firsts_keys_nodup [] l).sublist ((List.take_sublist k _).map f)
      exact List.inj_on_of_nodup_map hnodup (hall a ha) (hall b hb) hab
    refine ⟨hinj, ?_⟩
    rw [hcongr hinj] at hlength
    rw [hcongr hinj, List.append_right_eq_self] at heq
    rcases List.take_eq_nil_iff.1 heq with hzero | hnil
    · left
      have hsame : firsts id [] (l.take k) = l.take k := (firsts_sublist [] _).eq_of_length (by omega)
      have := firsts_keys_nodup (f := id) [] (l.take k)
      rwa [List.map_id, hsame] at this
    · exact Or.inr (hlater.1 hnil)
  · rintro ⟨hinj, hcase⟩
    rw [htake, hcongr hinj, List.append_right_eq_self, List.take_eq_nil_iff]
    rcases hcase with hnodup | hseen
    · rcases Nat.lt_or_ge l.length k with hshort | hlong
      · right
        rw [List.drop_eq_nil_of_le hshort.le]
        rfl
      · left
        rw [firsts_eq_self (by simpa using hnodup) (by simp), List.length_take]
        omega
    · exact Or.inr (hlater.2 hseen)

end

end Streams
