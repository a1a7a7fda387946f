import RdfStore.Lib.OrderedTable

/-!
# Walking a table

The answers a reader gets that asks for a first entry and then, again and again,
for the entry after the last one: the rest of the table and a final not-found.

    replies ++ [some e] ++ [x] <+: t.walk start ↔ x = t.entryAfter e.1     (walk_extend_iff)
-/

namespace OrderedTable

variable {κ β : Type} [LinearOrder κ]

/-- The entry after a key, the first entry when there is none. -/
def Table.entryAfter (t : Table κ β) : Option κ → Option (κ × β)
  | none => t.entries.head?
  | some k => t.entries.find? (k < ·.1)

/-- The first entry from a key on. -/
def Table.entryFrom (t : Table κ β) (k : κ) : Option (κ × β) := t.entries.find? (k ≤ ·.1)

/-- The entries from a key on, all entries when there is none. -/
def Table.rest (t : Table κ β) : Option κ → List (κ × β)
  | none => t.entries
  | some k => t.above k

def Table.walk (t : Table κ β) (start : Option κ) : List (Option (κ × β)) :=
  (t.rest start).map some ++ [none]

variable {t : Table κ β} {start : Option κ}

/-- What is to come is an ending of the table. -/
theorem Table.rest_suffix : ∃ l, t.entries = l ++ t.rest start := by
  cases start with
  | none => exact ⟨[], rfl⟩
  | some k => exact ⟨t.below k, (t.below_append_above k).symm⟩

theorem Table.entryAfter_of_split {l r : List (κ × β)} {e : κ × β} (h : t.entries = l ++ e :: r) :
    t.entryAfter (some e.1) = r.head? := by
  obtain ⟨hlow, hhigh⟩ := Table.split h
  have hl : l.find? (fun x => decide (e.1 < x.1)) = none :=
    List.find?_eq_none.2 fun x hx => by simpa using (hlow x hx).le
  show t.entries.find? (fun x => decide (e.1 < x.1)) = _
  rw [h, List.find?_append, hl, Option.none_or, List.find?_cons_of_neg (by simp)]
  cases r with
  | nil => rfl
  | cons x r => rw [List.find?_cons_of_pos (by simpa using hhigh x List.mem_cons_self), List.head?_cons]

/-- The answers so far that end with an entry are the walk up to that entry. -/
theorem Table.walk_split {replies : List (Option (κ × β))} {e : κ × β}
    (h : replies ++ [some e] <+: t.walk start) :
    ∃ l r, t.rest start = l ++ e :: r ∧ replies = l.map some := by
  rcases List.prefix_concat_iff.1 h with heq | hpre
  · -- the walk ends with not-found
    have hlast := List.append_inj_right' heq rfl
    cases hlast
  · obtain ⟨more, hmore⟩ := hpre
    obtain ⟨l', r, hrest, hl', -⟩ := List.map_eq_append_iff.1 hmore.symm
    obtain ⟨l, e', rfl, rfl, he'⟩ := List.map_eq_append_iff.1 hl'
    cases e' with
    | nil => cases he'
    | cons x xs =>
      simp only [List.map_cons, List.cons.injEq, Option.some.injEq, List.map_eq_nil_iff] at he'
      obtain ⟨rfl, rfl⟩ := he'
      exact ⟨l, r, by rw [hrest, List.append_assoc]; rfl, rfl⟩

/-- The right answer after an entry is the entry after it. -/
theorem Table.walk_extend_iff {replies : List (Option (κ × β))} {e : κ × β} {x : Option (κ × β)}
    (h : replies ++ [some e] <+: t.walk start) :
    replies ++ [some e] ++ [x] <+: t.walk start ↔ x = t.entryAfter (some e.1) := by
  obtain ⟨l, r, hrest, rfl⟩ := Table.walk_split h
  obtain ⟨before, hbefore⟩ := @Table.rest_suffix κ β _ t start
  have hafter : t.entryAfter (some e.1) = r.head? := by
    refine Table.entryAfter_of_split (l := before ++ l) ?_
    rw [hbefore, hrest, List.append_assoc]
  have hwalk : t.walk start = l.map some ++ [some e] ++ (r.map some ++ [none]) := by
    simp [Table.walk, hrest]
  rw [hafter, hwalk, List.prefix_append_right_inj]
  cases r with
  | nil => simp
  | cons y r => simp

/-! ## Two readers of one cursor -/

theorem Table.lt_of_entryAfter {p : κ} {e : κ × β} (h : t.entryAfter (some p) = some e) : p < e.1 := by
  simpa using List.find?_some h

theorem Table.mem_of_entryAfter {p : Option κ} {e : κ × β} (h : t.entryAfter p = some e) :
    e ∈ t.entries := by
  cases p with
  | none => exact List.mem_of_head? h
  | some p => exact List.mem_of_find?_eq_some h

theorem Table.entryAfter_le {p : κ} {e : κ × β} (he : e ∈ t.entries) (hp : p < e.1) :
    ∃ y, t.entryAfter (some p) = some y ∧ y.1 ≤ e.1 := by
  have hsome : (t.entries.find? (p < ·.1)).isSome := by
    rw [List.find?_isSome]
    exact ⟨e, he, by simpa using hp⟩
  obtain ⟨y, hy⟩ := Option.isSome_iff_exists.1 hsome
  refine ⟨y, hy, ?_⟩
  obtain ⟨-, as, bs, hsplit, has⟩ := List.find?_eq_some_iff_append.1 hy
  rw [hsplit, List.mem_append, List.mem_cons] at he
  rcases he with he | rfl | he
  · have := has e he
    simp [hp] at this
  · exact le_rfl
  · exact ((Table.split hsplit).2 e he).le

/-- Two keys of the table with the same entry behind them are the same key, or the last. -/
theorem Table.eq_of_entryAfter_eq {e e' : κ × β} (he : e ∈ t.entries) (he' : e' ∈ t.entries)
    (h : t.entryAfter (some e.1) = t.entryAfter (some e'.1)) : e.1 = e'.1 := by
  rcases lt_trichotomy e.1 e'.1 with hlt | heq | hlt
  · obtain ⟨y, hy, hle⟩ := Table.entryAfter_le he' hlt
    rw [h] at hy
    exact absurd (Table.lt_of_entryAfter hy) (not_lt.2 hle)
  · exact heq
  · obtain ⟨y, hy, hle⟩ := Table.entryAfter_le he hlt
    rw [← h] at hy
    exact absurd (Table.lt_of_entryAfter hy) (not_lt.2 hle)

/-- The entry two steps after a position. -/
def Table.entryAfterNext (t : Table κ β) (p : Option κ) : Option (κ × β) :=
  (t.entryAfter p).bind fun e => t.entryAfter (some e.1)

/-- Two steps lead to the entry after `e` from the key before it, or at the end of the table. -/
theorem Table.entryAfterNext_eq_iff {p : Option κ} {e : κ × β} (he : e ∈ t.entries) :
    t.entryAfterNext p = t.entryAfter (some e.1) ↔
      (t.entryAfter p).map Prod.fst = some e.1 ∨
        t.entryAfter p = none ∧ t.entryAfter (some e.1) = none := by
  unfold Table.entryAfterNext
  cases hp : t.entryAfter p with
  | none => simp [eq_comm]
  | some x =>
    simp only [Option.bind_some, Option.map_some, Option.some.injEq, reduceCtorEq, false_and, or_false]
    refine ⟨fun h => Table.eq_of_entryAfter_eq (Table.mem_of_entryAfter hp) he h, ?_⟩
    rintro h
    rw [h]

end OrderedTable
