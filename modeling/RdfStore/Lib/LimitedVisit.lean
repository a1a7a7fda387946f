import Mathlib.Data.Finset.Sort
import Mathlib.Data.Set.Card
import Mathlib.Logic.Relation

/-!
# A depth-first visit that marks late and goes a limited way down

A node has entries, and an entry may lead on to another node.  A visit of a node
goes through its entries that are not out yet, visits where they lead to and
only then puts them out, so a loop is followed round and round until the limit
on the depth ends it.  `Cut` says that the limit is met at a node that still has
entries to put out.

    no Cut  →  the visit puts out what can be found, without loops  (visit_of_not_cut)
    with fewer targets than levels:  Cut ↔ a loop can be found      (cut_iff_loops)
-/

namespace LimitedVisit

variable {N ι : Type*} (entries : N → Finset ι) (next : ι → Option N)

/-! ## What can be found -/

/-- The entries of a node, and those of the nodes they lead to. -/
inductive Found (n : N) : ι → Prop
  | entry {i : ι} (hi : i ∈ entries n) : Found n i
  | next {i j : ι} {m : N} (hi : Found n i) (hm : next i = some m) (hj : j ∈ entries m) : Found n j

def Leads (i j : ι) : Prop := ∃ m, next i = some m ∧ j ∈ entries m

/-- The nodes the entries found lead to. -/
def targets (n : N) : Set N := {m | ∃ i, Found entries next n i ∧ next i = some m}

/-- With an entry all it leads to is out, and it is in no loop. -/
structure Settled (out : Finset ι) : Prop where
  closed : ∀ i ∈ out, ∀ j, Leads entries next i j → j ∈ out
  noLoop : ∀ i ∈ out, ¬ Relation.TransGen (Leads entries next) i i

variable {entries next}

/-- A walk along `p` that never leaves `P` is one along `q` if each of its steps is. -/
theorem transGen_of_steps {α : Type*} {p q : α → α → Prop} {P : α → Prop}
    (hstep : ∀ i j, P i → p i j → q i j ∧ P j) {i j : α} (hi : P i) (h : Relation.TransGen p i j) :
    Relation.TransGen q i j ∧ P j := by
  induction h with
  | single hij =>
    obtain ⟨hq, hj⟩ := hstep _ _ hi hij
    exact ⟨.single hq, hj⟩
  | tail _ hij ih =>
    obtain ⟨hq, hj⟩ := hstep _ _ ih.2 hij
    exact ⟨.tail ih.1 hq, hj⟩

theorem Found.trans {n : N} {i j : ι} {m : N} (hi : Found entries next n i) (hm : next i = some m)
    (hj : Found entries next m j) : Found entries next n j := by
  induction hj with
  | entry hj => exact .next hi hm hj
  | next _ hm' hj ih => exact .next ih hm' hj

theorem Settled.mem_of_transGen {out : Finset ι} (h : Settled entries next out) {i j : ι} (hi : i ∈ out)
    (hij : Relation.TransGen (Leads entries next) i j) : j ∈ out := by
  induction hij with
  | single hij => exact h.closed _ hi _ hij
  | tail _ hij ih => exact h.closed _ ih _ hij

theorem settled_empty : Settled entries next ∅ :=
  ⟨fun _ hi => absurd hi (Finset.notMem_empty _), fun _ hi => absurd hi (Finset.notMem_empty _)⟩

variable [LinearOrder ι]

variable (entries next)

/-! ## The visit -/

/-- What following an entry does, with a visit for the node it leads to. -/
def follow (visit : N → Finset ι → Finset ι) (out : Finset ι) (i : ι) : Finset ι :=
  match next i with
  | none => out
  | some m => visit m out

/-- A visit with `k` levels left. -/
def visit : Nat → N → Finset ι → Finset ι
  | 0, _, out => out
  | k + 1, n, out => (entries n \ out).sort.foldl (follow next (visit k)) out ∪ (entries n \ out)

/-- Following some entries one after the other. -/
def visitAll (k : Nat) (l : List ι) (out : Finset ι) : Finset ι :=
  l.foldl (follow next (visit entries next k)) out

/-- The limit is met at a node with entries that are not out. -/
inductive Cut : Nat → N → Finset ι → Prop
  | limit {n : N} {out : Finset ι} (h : ¬ entries n ⊆ out) : Cut 0 n out
  | deeper {k : Nat} {n m : N} {out : Finset ι} {l l' : List ι} {i : ι}
      (hl : (entries n \ out).sort = l ++ i :: l') (hm : next i = some m)
      (h : Cut k m (visitAll entries next k l out)) : Cut (k + 1) n out

variable {entries next}

theorem visit_succ (k : Nat) (n : N) (out : Finset ι) : visit entries next (k + 1) n out =
    visitAll entries next k (entries n \ out).sort out ∪ (entries n \ out) := rfl

theorem visitAll_append (k : Nat) (l l' : List ι) (out : Finset ι) : visitAll entries next k (l ++ l') out =
    visitAll entries next k l' (visitAll entries next k l out) := List.foldl_append

theorem visitAll_cons_none {k : Nat} {i : ι} {l : List ι} {out : Finset ι} (h : next i = none) :
    visitAll entries next k (i :: l) out = visitAll entries next k l out := by
  simp only [visitAll, List.foldl_cons, follow, h]

theorem visitAll_cons_some {k : Nat} {i : ι} {m : N} {l : List ι} {out : Finset ι} (h : next i = some m) :
    visitAll entries next k (i :: l) out = visitAll entries next k l (visit entries next k m out) := by
  simp only [visitAll, List.foldl_cons, follow, h]

/-- Nothing else is put out. -/
theorem mem_visit {k : Nat} {n : N} {out : Finset ι} {i : ι} (h : i ∈ visit entries next k n out) :
    i ∈ out ∨ Found entries next n i := by
  induction k generalizing n out i with
  | zero => exact Or.inl h
  | succ k ih =>
    have hall : ∀ (l : List ι) (out' : Finset ι), (∀ j ∈ l, j ∈ entries n) →
        (∀ j ∈ out', j ∈ out ∨ Found entries next n j) →
        ∀ j ∈ visitAll entries next k l out', j ∈ out ∨ Found entries next n j := by
      intro l
      induction l with
      | nil => exact fun _ _ hout => hout
      | cons a l ihl =>
        intro out' hl hout
        have hl' : ∀ j ∈ l, j ∈ entries n := fun j hj => hl j (List.mem_cons_of_mem _ hj)
        cases ha : next a with
        | none =>
          rw [visitAll_cons_none ha]
          exact ihl out' hl' hout
        | some m =>
          rw [visitAll_cons_some ha]
          refine ihl _ hl' fun j hj => ?_
          rcases ih hj with hj | hj
          · exact hout j hj
          · exact Or.inr (Found.trans (.entry (hl a List.mem_cons_self)) ha hj)
    rw [visit_succ, Finset.mem_union] at h
    rcases h with h | h
    · refine hall _ out (fun j hj => ?_) (fun j hj => Or.inl hj) i h
      exact (Finset.mem_sdiff.1 ((Finset.mem_sort _).1 hj)).1
    · exact Or.inr (.entry (Finset.mem_sdiff.1 h).1)

/-! ## A visit that is not cut -/

/-- Entries whose nodes are out already can be put out. -/
theorem Settled.union {out new : Finset ι} (h : Settled entries next out)
    (hnew : ∀ i ∈ new, ∀ m, next i = some m → entries m ⊆ out) : Settled entries next (out ∪ new) := by
  have hleads : ∀ i ∈ new, ∀ j, Leads entries next i j → j ∈ out := by
    rintro i hi j ⟨m, hm, hj⟩
    exact hnew i hi m hm hj
  constructor
  · intro i hi j hij
    rcases Finset.mem_union.1 hi with hi | hi
    · exact Finset.mem_union_left _ (h.closed i hi j hij)
    · exact Finset.mem_union_left _ (hleads i hi j hij)
  · intro i hi hloop
    -- a loop through a new entry comes back to it from what is out, so the entry is out itself
    have hout : i ∈ out := by
      rcases Finset.mem_union.1 hi with hi | hi
      · exact hi
      · obtain ⟨j, hij, hji⟩ := Relation.TransGen.head'_iff.1 hloop
        have hj := hleads i hi j hij
        rcases Relation.reflTransGen_iff_eq_or_transGen.1 hji with rfl | hji
        · exact hj
        · exact h.mem_of_transGen hj hji
    exact h.noLoop i hout hloop

/-- A visit that is not cut keeps what is out settled, and puts out the entries of its node. -/
theorem Settled.visit {k : Nat} {n : N} {out : Finset ι} (h : Settled entries next out)
    (hcut : ¬ Cut entries next k n out) : Settled entries next (visit entries next k n out) ∧
      out ⊆ visit entries next k n out ∧ entries n ⊆ visit entries next k n out := by
  induction k generalizing n out with
  | zero => exact ⟨h, subset_rfl, not_not.1 fun hn => hcut (.limit hn)⟩
  | succ k ih =>
    -- along the entries: what is out stays settled and has all that the entries so far lead to
    have hall : ∀ l l', (entries n \ out).sort = l ++ l' → Settled entries next (visitAll entries next k l out) ∧
        out ⊆ visitAll entries next k l out ∧
        ∀ i ∈ l, ∀ m, next i = some m → entries m ⊆ visitAll entries next k l out := by
      intro l
      induction l using List.reverseRecOn with
      | nil => exact fun _ _ => ⟨h, subset_rfl, fun i hi => absurd hi List.not_mem_nil⟩
      | append_singleton l a ihl =>
        intro l' hl
        rw [List.append_assoc, List.singleton_append] at hl
        obtain ⟨hset, hsub, hent⟩ := ihl (a :: l') hl
        rw [visitAll_append]
        cases ha : next a with
        | none =>
          rw [visitAll_cons_none ha]
          refine ⟨hset, hsub, fun i hi m hm => ?_⟩
          rcases List.mem_append.1 hi with hi | hi
          · exact hent i hi m hm
          · rw [List.mem_singleton.1 hi, ha] at hm
            cases hm
        | some m =>
          rw [visitAll_cons_some ha]
          obtain ⟨hset', hsub', hent'⟩ := ih hset fun hc => hcut (.deeper hl ha hc)
          refine ⟨hset', hsub.trans hsub', fun i hi m' hm' => ?_⟩
          rcases List.mem_append.1 hi with hi | hi
          · exact (hent i hi m' hm').trans hsub'
          · rw [List.mem_singleton.1 hi, ha] at hm'
            cases hm'
            exact hent'
    obtain ⟨hset, hsub, hent⟩ := hall _ [] (List.append_nil _).symm
    rw [visit_succ]
    refine ⟨hset.union fun i hi => hent i ((Finset.mem_sort _).2 hi), hsub.trans Finset.subset_union_left, ?_⟩
    intro i hi
    by_cases hout : i ∈ out
    · exact Finset.mem_union_left _ (hsub hout)
    · exact Finset.mem_union_right _ (Finset.mem_sdiff.2 ⟨hi, hout⟩)

/-- A visit that is not cut puts out just what can be found, and finds no loop. -/
theorem visit_of_not_cut {k : Nat} {n : N} (hcut : ¬ Cut entries next k n ∅) :
    (∀ i, i ∈ visit entries next k n ∅ ↔ Found entries next n i) ∧
      ∀ i, Found entries next n i → ¬ Relation.TransGen (Leads entries next) i i := by
  obtain ⟨hset, -, hent⟩ := settled_empty.visit hcut
  have hfound : ∀ i, Found entries next n i → i ∈ visit entries next k n ∅ := by
    intro i hi
    induction hi with
    | entry hi => exact hent hi
    | next _ hm hj ih => exact hset.closed _ ih _ ⟨_, hm, hj⟩
  refine ⟨fun i => ⟨fun hi => ?_, hfound i⟩, fun i hi => hset.noLoop i (hfound i hi)⟩
  rcases mem_visit hi with hi | hi
  · exact absurd hi (Finset.notMem_empty _)
  · exact hi

/-! ## When the limit is met -/

/-- Without loops there is a target for every level that is used up. -/
theorem Cut.le_targets {k : Nat} {n : N} {out : Finset ι} (h : Cut entries next k n out)
    (hloop : ∀ i, Found entries next n i → ¬ Relation.TransGen (Leads entries next) i i) :
    (k : ℕ∞) ≤ (targets entries next n).encard := by
  induction h with
  | limit => exact zero_le
  | @deeper k n m out l l' i hl hm _ ih =>
    have hi : Found entries next n i := by
      have hmem : i ∈ (entries n \ out).sort := by
        rw [hl]
        exact List.mem_append_right _ List.mem_cons_self
      exact .entry (Finset.mem_sdiff.1 ((Finset.mem_sort _).1 hmem)).1
    have hk := ih fun j hj => hloop j (hi.trans hm hj)
    -- what leads back to `m` from below `m` is in a loop
    have hnot : m ∉ targets entries next m := by
      rintro ⟨j, hj, hjm⟩
      have hleads : ∀ j', Found entries next m j' → Relation.TransGen (Leads entries next) j j' := by
        intro j' hj'
        induction hj' with
        | entry hj' => exact .single ⟨m, hjm, hj'⟩
        | next _ hm' hj' ih' => exact .tail ih' ⟨_, hm', hj'⟩
      exact hloop j (hi.trans hm hj) (hleads j hj)
    have hsub : insert m (targets entries next m) ⊆ targets entries next n := by
      rintro x (rfl | ⟨j, hj, hx⟩)
      · exact ⟨i, hi, hm⟩
      · exact ⟨j, hi.trans hm hj, hx⟩
    calc ((k + 1 : ℕ) : ℕ∞) = k + 1 := by push_cast; rfl
      _ ≤ (targets entries next m).encard + 1 := add_le_add_left hk 1
      _ = (insert m (targets entries next m)).encard := (Set.encard_insert_of_notMem hnot).symm
      _ ≤ (targets entries next n).encard := Set.encard_le_encard hsub

/-- With fewer targets than levels the limit is met exactly if there is a loop. -/
theorem cut_iff_loops {k : Nat} {n : N} (hfew : (targets entries next n).encard < k) :
    Cut entries next k n ∅ ↔
      ∃ i, Found entries next n i ∧ Relation.TransGen (Leads entries next) i i := by
  constructor
  · intro hcut
    by_contra hno
    push Not at hno
    exact absurd (hcut.le_targets hno) (not_le.2 hfew)
  · rintro ⟨i, hi, hloop⟩
    by_contra hcut
    exact (visit_of_not_cut hcut).2 i hi hloop

end LimitedVisit
