import Mathlib.Data.List.Sort
import Mathlib.Order.Basic
import Mathlib.Tactic.Common

/-!
# Tables with a cursor

A table in ascending key order, asked through its cursor: the first key, the key
after a key, the first key from a key on.  A walk from a key goes over the rest of
the list.

    t.entries = l ++ e :: r → t.next e.1 = r.head?.map Prod.fst           (next_of_split)
    t.entries = t.below a ++ t.above a                                    (below_append_above)
-/

namespace OrderedTable

variable {κ β : Type} [LinearOrder κ]

/-- Entries in ascending key order. -/
structure Table (κ β : Type) [LinearOrder κ] where
  entries : List (κ × β)
  ascending : entries.Pairwise fun a b => a.1 < b.1

def Table.first (t : Table κ β) : Option κ := t.entries.head?.map Prod.fst

def Table.next (t : Table κ β) (k : κ) : Option κ := (t.entries.find? (k < ·.1)).map Prod.fst

def Table.fromKey (t : Table κ β) (k : κ) : Option κ := (t.entries.find? (k ≤ ·.1)).map Prod.fst

def Table.fetch (t : Table κ β) (k : κ) : Option β := (t.entries.find? (·.1 = k)).map Prod.snd

variable {t : Table κ β} {l r : List (κ × β)} {e : κ × β}

/-- The keys before an entry are lower and the keys behind it are higher. -/
theorem Table.split (h : t.entries = l ++ e :: r) : (∀ x ∈ l, x.1 < e.1) ∧ ∀ x ∈ r, e.1 < x.1 := by
  have hasc := t.ascending
  rw [h, List.pairwise_append] at hasc
  exact ⟨fun x hx => hasc.2.2 x hx e List.mem_cons_self, (List.pairwise_cons.1 hasc.2.1).1⟩

theorem Table.next_of_split (h : t.entries = l ++ e :: r) : t.next e.1 = r.head?.map Prod.fst := by
  obtain ⟨hlow, hhigh⟩ := Table.split h
  have hl : l.find? (fun x => decide (e.1 < x.1)) = none :=
    List.find?_eq_none.2 fun x hx => by simpa using (hlow x hx).le
  unfold Table.next
  rw [h, List.find?_append, hl, Option.none_or, List.find?_cons_of_neg (by simp)]
  cases r with
  | nil => rfl
  | cons x r => rw [List.find?_cons_of_pos (by simpa using hhigh x List.mem_cons_self), List.head?_cons]

theorem Table.fetch_of_split (h : t.entries = l ++ e :: r) : t.fetch e.1 = some e.2 := by
  obtain ⟨hlow, -⟩ := Table.split h
  have hl : l.find? (fun x => decide (x.1 = e.1)) = none :=
    List.find?_eq_none.2 fun x hx => by simpa using (hlow x hx).ne
  unfold Table.fetch
  rw [h, List.find?_append, hl, Option.none_or, List.find?_cons_of_pos (by simp)]
  rfl

theorem Table.fetch_of_mem (h : e ∈ t.entries) : t.fetch e.1 = some e.2 := by
  obtain ⟨l, r, hsplit⟩ := List.append_of_mem h
  exact Table.fetch_of_split hsplit

theorem Table.fetch_eq_some_iff {k : κ} {v : β} : t.fetch k = some v ↔ (k, v) ∈ t.entries := by
  constructor
  · intro h
    obtain ⟨x, hx, rfl⟩ := Option.map_eq_some_iff.1 h
    have hkey : x.1 = k := by simpa using List.find?_some hx
    subst hkey
    exact List.mem_of_find?_eq_some hx
  · exact fun h => Table.fetch_of_mem h

/-! ## From a key on -/

def Table.below (t : Table κ β) (k : κ) : List (κ × β) := t.entries.filter (·.1 < k)

def Table.above (t : Table κ β) (k : κ) : List (κ × β) := t.entries.filter (k ≤ ·.1)

theorem below_append_above_list {es : List (κ × β)} (h : es.Pairwise fun a b => a.1 < b.1) (k : κ) :
    es.filter (·.1 < k) ++ es.filter (k ≤ ·.1) = es := by
  induction es with
  | nil => rfl
  | cons e es ih =>
    obtain ⟨hhead, htail⟩ := List.pairwise_cons.1 h
    by_cases hk : e.1 < k
    · rw [List.filter_cons_of_pos (by simpa using hk), List.filter_cons_of_neg (by simpa using hk),
        List.cons_append, ih htail]
    · have hle : k ≤ e.1 := not_lt.1 hk
      have hnone : es.filter (fun x => decide (x.1 < k)) = [] :=
        List.filter_eq_nil_iff.2 fun x hx => by simpa using hle.trans (hhead x hx).le
      have hall : es.filter (fun x => decide (k ≤ x.1)) = es :=
        List.filter_eq_self.2 fun x hx => by simpa using hle.trans (hhead x hx).le
      rw [List.filter_cons_of_neg (by simpa using hk), List.filter_cons_of_pos (by simpa using hle), hnone, hall,
        List.nil_append]

theorem Table.below_append_above (t : Table κ β) (k : κ) : t.below k ++ t.above k = t.entries :=
  below_append_above_list t.ascending k

theorem Table.fromKey_eq (t : Table κ β) (k : κ) : t.fromKey k = (t.above k).head?.map Prod.fst := by
  unfold Table.fromKey Table.above
  rw [List.head?_filter]

end OrderedTable
