import Mathlib.Data.List.Pairwise
import Mathlib.Data.List.Sort

/-!
# Sorted indexes

A list sorted strictly by a key, as an index is that `qsort` orders and
`bsearch` reads.

    bsearch (compare k <| key ·) l = some x ↔ x ∈ l ∧ key x = k        (bsearch_eq_some_iff)
    the keys of l are distinct → l is sorted after qsort               (sorted_qsort)
-/

namespace SortedIndex

variable {α κ : Type} [Ord κ]

/-- The keys ascend strictly. -/
def Sorted (key : α → κ) (l : List α) : Prop := l.Pairwise fun a b => compare (key a) (key b) = .lt

/-- Halving: `cmp x` compares the key looked for with that of `x`. -/
def bsearchLoop (cmp : α → Ordering) : Nat → List α → Option α
  | 0, _ => none
  | fuel + 1, l =>
    match l.drop (l.length / 2) with
    | [] => none
    | x :: above =>
      match cmp x with
      | .eq => some x
      | .lt => bsearchLoop cmp fuel (l.take (l.length / 2))
      | .gt => bsearchLoop cmp fuel above

/-- `bsearch`: an element that compares equal, if there is one. -/
def bsearch (cmp : α → Ordering) (l : List α) : Option α := bsearchLoop cmp l.length l

/-- `qsort` -/
def qsort (cmp : α → α → Ordering) (l : List α) : List α := l.insertionSort fun a b => (cmp a b).isLE = true


/-! ## Searching -/

section

omit [Ord κ]

theorem perm_qsort (cmp : α → α → Ordering) (l : List α) : (qsort cmp l).Perm l := List.perm_insertionSort _ l

theorem bsearchLoop_mem {cmp : α → Ordering} {fuel : Nat} {l : List α} {x : α}
    (h : bsearchLoop cmp fuel l = some x) : x ∈ l ∧ cmp x = .eq := by
  induction fuel generalizing l with
  | zero => cases h
  | succ fuel ih =>
    rw [bsearchLoop] at h
    split at h
    · cases h
    · next y above hdrop =>
      have hmem : ∀ z ∈ y :: above, z ∈ l := fun z hz => List.drop_subset _ l (hdrop ▸ hz)
      split at h
      · next heq =>
        cases h
        exact ⟨hmem _ List.mem_cons_self, heq⟩
      · exact ⟨List.take_subset _ l (ih h).1, (ih h).2⟩
      · exact ⟨hmem _ (List.mem_cons_of_mem y (ih h).1), (ih h).2⟩

end

variable [Std.LawfulEqOrd κ]

theorem not_compare_self {k : κ} : compare k k ≠ .lt := by
  have h : compare k k = .eq := Std.LawfulEqCmp.compare_eq_iff_eq.2 rfl
  rw [h]
  nofun

theorem Sorted.distinct {key : α → κ} {l : List α} (hsorted : Sorted key l) :
    l.Pairwise fun a b => key a ≠ key b := by
  refine hsorted.imp fun hlt he => ?_
  rw [he] at hlt
  exact not_compare_self hlt

theorem Sorted.eq_of_key {key : α → κ} {l : List α} (hsorted : Sorted key l) {x y : α} (hx : x ∈ l)
    (hy : y ∈ l) (h : key x = key y) : x = y := by
  by_contra hne
  have : Std.Symm fun a b : α => key a ≠ key b := ⟨fun _ _ h => h.symm⟩
  exact hsorted.distinct.forall hx hy hne h

variable [Std.TransOrd κ]

theorem bsearchLoop_isSome {key : α → κ} {k : κ} {fuel : Nat} {l : List α} (hsorted : Sorted key l)
    (hfuel : l.length ≤ fuel) {x : α} (hx : x ∈ l) (hk : key x = k) :
    (bsearchLoop (fun y => compare k (key y)) fuel l).isSome := by
  induction fuel generalizing l with
  | zero =>
    rw [List.length_eq_zero_iff.1 (Nat.le_zero.1 hfuel)] at hx
    cases hx
  | succ fuel ih =>
    have hpos : 0 < l.length := List.length_pos_of_mem hx
    have hsplit := List.take_append_drop (l.length / 2) l
    rw [bsearchLoop]
    cases hdrop : l.drop (l.length / 2) with
    | nil =>
      have := List.drop_eq_nil_iff.1 hdrop
      omega
    | cons y above =>
      rw [hdrop] at hsplit
      have hlen : (l.take (l.length / 2)).length ≤ fuel := by
        rw [List.length_take]
        omega
      have hlen' : above.length ≤ fuel := by
        have hcount := congrArg List.length hsplit
        simp only [List.length_append, List.length_cons] at hcount
        omega
      rw [← hsplit, Sorted, List.pairwise_append] at hsorted
      obtain ⟨hbelow, habove, hacross⟩ := hsorted
      rw [List.pairwise_cons] at habove
      rw [← hsplit, List.mem_append, List.mem_cons] at hx
      show (match compare k (key y) with
        | .eq => some y
        | .lt => bsearchLoop (fun y => compare k (key y)) fuel (l.take (l.length / 2))
        | .gt => bsearchLoop (fun y => compare k (key y)) fuel above).isSome
      split
      · rfl
      · next hlt =>
        rw [← hk] at hlt
        refine ih hbelow hlen (hx.resolve_right fun h => ?_)
        rcases h with rfl | h
        · exact not_compare_self hlt
        · exact not_compare_self (Std.TransCmp.lt_trans hlt (habove.1 x h))
      · next hgt =>
        rw [Std.OrientedCmp.gt_iff_lt, ← hk] at hgt
        refine ih habove.2 hlen' ((hx.resolve_left fun h => ?_).resolve_left fun h => ?_)
        · exact not_compare_self (Std.TransCmp.lt_trans hgt (hacross x h y List.mem_cons_self))
        · exact not_compare_self (h ▸ hgt)

theorem bsearch_eq_some_iff {key : α → κ} {l : List α} (hsorted : Sorted key l) (k : κ) (x : α) :
    bsearch (fun y => compare k (key y)) l = some x ↔ x ∈ l ∧ key x = k := by
  constructor
  · intro h
    obtain ⟨hmem, heq⟩ := bsearchLoop_mem h
    exact ⟨hmem, (Std.LawfulEqCmp.compare_eq_iff_eq.1 heq).symm⟩
  · rintro ⟨hx, hk⟩
    obtain ⟨y, hy⟩ := Option.isSome_iff_exists.1 (bsearchLoop_isSome hsorted le_rfl hx hk)
    obtain ⟨hmem, heq⟩ := bsearchLoop_mem hy
    have hxy : x = y := hsorted.eq_of_key hx hmem (hk.trans (Std.LawfulEqCmp.compare_eq_iff_eq.1 heq))
    rw [hxy]
    exact hy

theorem bsearch_eq_none_iff {key : α → κ} {l : List α} (hsorted : Sorted key l) (k : κ) :
    bsearch (fun y => compare k (key y)) l = none ↔ ∀ x ∈ l, key x ≠ k := by
  rw [Option.eq_none_iff_forall_ne_some]
  constructor
  · intro h x hx hk
    exact h x ((bsearch_eq_some_iff hsorted k x).2 ⟨hx, hk⟩)
  · intro h x hx
    obtain ⟨hmem, hk⟩ := (bsearch_eq_some_iff hsorted k x).1 hx
    exact h x hmem hk

/-! ## Sorting -/

theorem sorted_qsort {key : α → κ} {l : List α} (hdistinct : l.Pairwise fun a b => key a ≠ key b) :
    Sorted key (qsort (fun a b => compare (key a) (key b)) l) := by
  have : Std.Total fun a b : α => (compare (key a) (key b)).isLE = true := ⟨fun a b => by
    rw [← Std.OrientedCmp.isGE_iff_isLE (a := key a)]
    cases compare (key a) (key b) <;> simp⟩
  have : IsTrans α fun a b => (compare (key a) (key b)).isLE = true := ⟨fun _ _ _ => Std.TransCmp.isLE_trans⟩
  have hle : (qsort (fun a b => compare (key a) (key b)) l).Pairwise fun a b =>
      (compare (key a) (key b)).isLE = true := List.pairwise_insertionSort _ l
  have hne : (qsort (fun a b => compare (key a) (key b)) l).Pairwise fun a b => key a ≠ key b :=
    (perm_qsort _ l).symm.pairwise hdistinct fun h => h.symm
  refine hle.imp₂ (fun a b hle hne => ?_) hne
  cases hc : compare (key a) (key b) with
  | lt => rfl
  | eq => exact absurd (Std.LawfulEqCmp.compare_eq_iff_eq.1 hc) hne
  | gt => rw [hc] at hle; cases hle

end SortedIndex
