import Mathlib.Algebra.BigOperators.Group.Finset.Piecewise

/-!
# One after another

Clients send requests to one state, which are answered one after another in some
order.  What a client sees is its own part of the order and of the answers.

    serving more requests is serving them from where the others have led      (serveAll_append)
-/

namespace Serial

variable {ι ρ β σ α : Type}

/-- The requests in an order, each with its client: the answers, and the state they lead to. -/
def serveAll (f : σ → ι → ρ → β × σ) : σ → List (ι × ρ) → List (ι × β) × σ
  | s, [] => ([], s)
  | s, (i, r) :: order => ((i, (f s i r).1) :: (serveAll f (f s i r).2 order).1, (serveAll f (f s i r).2 order).2)

theorem serveAll_append (f : σ → ι → ρ → β × σ) (s : σ) (order more : List (ι × ρ)) :
    serveAll f s (order ++ more) = ((serveAll f s order).1 ++ (serveAll f (serveAll f s order).2 more).1,
      (serveAll f (serveAll f s order).2 more).2) := by
  induction order generalizing s with
  | nil => rfl
  | cons x order ih => simp only [List.cons_append, serveAll, ih]

theorem serveAll_concat (f : σ → ι → ρ → β × σ) (s : σ) (order : List (ι × ρ)) (i : ι) (r : ρ) :
    serveAll f s (order ++ [(i, r)]) = ((serveAll f s order).1 ++ [(i, (f (serveAll f s order).2 i r).1)],
      (f (serveAll f s order).2 i r).2) :=
  serveAll_append f s order [(i, r)]

variable [DecidableEq ι]

/-- The part of one client. -/
def ofClient (i : ι) (l : List (ι × α)) : List α := (l.filter fun x => x.1 = i).map Prod.snd

@[simp] theorem ofClient_nil (i : ι) : ofClient i ([] : List (ι × α)) = [] := rfl

theorem ofClient_concat_self (i : ι) (l : List (ι × α)) (a : α) : ofClient i (l ++ [(i, a)]) = ofClient i l ++ [a] := by
  simp [ofClient, List.filter_append]

theorem ofClient_concat_of_ne {i j : ι} (h : j ≠ i) (l : List (ι × α)) (a : α) :
    ofClient i (l ++ [(j, a)]) = ofClient i l := by
  simp [ofClient, List.filter_append, h]

theorem ofClient_cons (i : ι) (x : ι × α) (l : List (ι × α)) :
    ofClient i (x :: l) = if x.1 = i then x.2 :: ofClient i l else ofClient i l := by
  unfold ofClient
  rw [List.filter_cons]
  split
  · next h => rw [if_pos (of_decide_eq_true h), List.map_cons]
  · next h => rw [if_neg (by simpa using h)]

theorem mem_ofClient {i : ι} {a : α} {l : List (ι × α)} (h : (i, a) ∈ l) : a ∈ ofClient i l :=
  List.mem_map.2 ⟨(i, a), List.mem_filter.2 ⟨h, by simp⟩, rfl⟩

/-- A sum over an order, client by client. -/
theorem sum_ofClient [Fintype ι] {M : Type} [AddCommMonoid M] (f : ι → α → M) (l : List (ι × α)) :
    (l.map fun x => f x.1 x.2).sum = ∑ i, ((ofClient i l).map (f i)).sum := by
  induction l with
  | nil => simp
  | cons x l ih =>
    have hcons : ∀ i, ((ofClient i (x :: l)).map (f i)).sum =
        (if x.1 = i then f i x.2 else 0) + ((ofClient i l).map (f i)).sum := by
      intro i
      rw [ofClient_cons]
      split
      · rw [List.map_cons, List.sum_cons]
      · rw [zero_add]
    rw [List.map_cons, List.sum_cons, ih, Finset.sum_congr rfl fun i _ => hcons i, Finset.sum_add_distrib,
      Finset.sum_ite_eq, if_pos (Finset.mem_univ _)]

end Serial
