import Mathlib.Data.List.Nodup

/-!
# Singly linked lists

Cells hold a link to the next one; a head points to the first.  A `Place` is where
a pointer stands: the head or the link of a cell, so that it can be read and
written through a pointer to it.  `Hangs m q l` says that the links from the place
`q` run through the cells of `l` in that order and end.

| operation       | list before              | list after               |                        |
|-----------------|--------------------------|--------------------------|------------------------|
| `unlink q a`    | `a :: l` at `q`          | `l` at `q`               | `Hangs.unlink`         |
| `set` (at end)  | `l`                      | `l ++ r`                 | `Hangs.set_end`        |
| `moveToFront`   | `l ++ c :: n :: r`       | `n :: l ++ c :: r`       | `Hangs.moveToFront`    |
-/

namespace Links

/-- Where a pointer stands. -/
inductive Place (α : Type)
  | head
  | link (a : α)
  deriving DecidableEq

/-- The head and the links of the cells. -/
structure Chain (α : Type) where
  head : Option α
  nxt : α → Option α

section

variable {α : Type}

def Chain.get (m : Chain α) : Place α → Option α
  | .head => m.head
  | .link a => m.nxt a

/-- The place behind the cells of `l`, which hang on `q`. -/
def Place.behind (q : Place α) (l : List α) : Place α := (l.getLast?.map Place.link).getD q

@[simp] theorem behind_nil (q : Place α) : q.behind [] = q := rfl

@[simp] theorem behind_concat (q : Place α) (l : List α) (a : α) : q.behind (l ++ [a]) = .link a := by
  simp [Place.behind]

theorem behind_cons (q : Place α) (a : α) (l : List α) : q.behind (a :: l) = (Place.link a).behind l := by
  rcases List.eq_nil_or_concat l with rfl | ⟨l, b, rfl⟩
  · rfl
  · rw [List.concat_eq_append, ← List.cons_append, behind_concat, behind_concat]

/-! ## Lists that hang on a place -/

/-- From `q` the links run through `l`. -/
def Passes (m : Chain α) : Place α → List α → Prop
  | _, [] => True
  | q, a :: l => m.get q = some a ∧ Passes m (.link a) l

/-- From `q` the links run through `l` and end. -/
def Hangs (m : Chain α) (q : Place α) (l : List α) : Prop := Passes m q l ∧ m.get (q.behind l) = none

@[simp] theorem hangs_nil {m : Chain α} {q : Place α} : Hangs m q [] ↔ m.get q = none := by
  simp [Hangs, Passes]

@[simp] theorem hangs_cons {m : Chain α} {q : Place α} {a : α} {l : List α} :
    Hangs m q (a :: l) ↔ m.get q = some a ∧ Hangs m (.link a) l := by
  rw [Hangs, Hangs, Passes, behind_cons, and_assoc]

theorem hangs_append {m : Chain α} {q : Place α} {l r : List α} :
    Hangs m q (l ++ r) ↔ Passes m q l ∧ Hangs m (q.behind l) r := by
  induction l generalizing q with
  | nil => simp [Passes]
  | cons a l ih => rw [List.cons_append, hangs_cons, ih, Passes, behind_cons, and_assoc]

/-- The links from a place run through one list only. -/
theorem Hangs.unique {m : Chain α} {q : Place α} {l r : List α} (hl : Hangs m q l) (hr : Hangs m q r) : l = r := by
  induction l generalizing q r with
  | nil =>
    cases r with
    | nil => rfl
    | cons b r =>
      rw [hangs_nil] at hl
      rw [hangs_cons, hl] at hr
      cases hr.1
  | cons a l ih =>
    rw [hangs_cons] at hl
    cases r with
    | nil =>
      rw [hangs_nil, hl.1] at hr
      cases hr
    | cons b r =>
      rw [hangs_cons, hl.1] at hr
      cases hr.1
      rw [ih hl.2 hr.2]

/-- The places of a list: the one it hangs on and the links of its cells, but for the last. -/
theorem Passes.congr {m m' : Chain α} {q : Place α} {l : List α} (h : Passes m q l)
    (hget : ∀ l₁ a l₂, l = l₁ ++ a :: l₂ → m'.get (q.behind l₁) = m.get (q.behind l₁)) : Passes m' q l := by
  induction l generalizing q with
  | nil => trivial
  | cons a l ih =>
    refine ⟨(hget [] a l rfl).trans h.1, ih h.2 fun l₁ b l₂ hl => ?_⟩
    rw [← behind_cons q]
    exact hget (a :: l₁) b l₂ (by rw [hl, List.cons_append])

/-- The cells from a place on, with a bound on their number. -/
def Chain.cells (m : Chain α) : ℕ → Place α → Option (List α)
  | 0, _ => none
  | fuel + 1, q =>
    match m.get q with
    | none => some []
    | some a => (m.cells fuel (.link a)).map (a :: ·)

theorem Hangs.cells {m : Chain α} {q : Place α} {l : List α} (h : Hangs m q l) {fuel : ℕ} (hfuel : l.length < fuel) :
    m.cells fuel q = some l := by
  induction l generalizing q fuel with
  | nil =>
    obtain ⟨fuel, rfl⟩ := Nat.exists_eq_succ_of_ne_zero (Nat.ne_of_gt hfuel)
    simp [Chain.cells, hangs_nil.1 h]
  | cons a l ih =>
    obtain ⟨fuel, rfl⟩ := Nat.exists_eq_succ_of_ne_zero (Nat.ne_of_gt (Nat.zero_lt_of_lt hfuel))
    obtain ⟨hget, h⟩ := hangs_cons.1 h
    simp [Chain.cells, hget, ih h (Nat.lt_of_succ_lt_succ hfuel)]

/-! ## Writing through a place -/

variable [DecidableEq α]

def Chain.set (m : Chain α) (q : Place α) (v : Option α) : Chain α :=
  match q with
  | .head => { m with head := v }
  | .link a => { m with nxt := Function.update m.nxt a v }

@[simp] theorem get_set_self (m : Chain α) (q : Place α) (v : Option α) : (m.set q v).get q = v := by
  cases q with
  | head => rfl
  | link a => exact Function.update_self a v m.nxt

theorem get_set_of_ne (m : Chain α) {q p : Place α} (h : p ≠ q) (v : Option α) : (m.set q v).get p = m.get p := by
  cases q with
  | head =>
    cases p with
    | head => exact absurd rfl h
    | link b => rfl
  | link a =>
    cases p with
    | head => rfl
    | link b =>
      have hne : b ≠ a := fun heq => h (congrArg Place.link heq)
      exact Function.update_of_ne hne v m.nxt

/-- Two different places are written in either order. -/
theorem set_comm (m : Chain α) {q p : Place α} (h : q ≠ p) (v w : Option α) :
    (m.set q v).set p w = (m.set p w).set q v := by
  cases q with
  | head =>
    cases p with
    | head => exact absurd rfl h
    | link b => rfl
  | link a =>
    cases p with
    | head => rfl
    | link b =>
      have hne : b ≠ a := fun heq => h (congrArg Place.link heq.symm)
      simp only [Chain.set]
      rw [Function.update_comm hne]

omit [DecidableEq α] in
theorem behind_ne {q p : Place α} {l : List α} (hq : p ≠ q) (hl : ∀ a ∈ l, p ≠ .link a) : p ≠ q.behind l := by
  rcases List.eq_nil_or_concat l with rfl | ⟨l, a, rfl⟩
  · exact hq
  · rw [List.concat_eq_append, behind_concat]
    exact hl a (by simp)

/-- A place that is not one of the list is written without changing the list. -/
theorem Passes.set {m : Chain α} {q p : Place α} {l : List α} (h : Passes m q l) (v : Option α) (hq : p ≠ q)
    (hl : ∀ a ∈ l.dropLast, p ≠ .link a) : Passes (m.set p v) q l := by
  refine h.congr fun l₁ a l₂ heq => get_set_of_ne _ (behind_ne hq fun b hb => hl b ?_).symm v
  rw [heq, List.dropLast_append_of_ne_nil (List.cons_ne_nil a l₂)]
  exact List.mem_append_left _ hb

theorem Hangs.set {m : Chain α} {q p : Place α} {l : List α} (h : Hangs m q l) (v : Option α) (hq : p ≠ q)
    (hl : ∀ a ∈ l, p ≠ .link a) : Hangs (m.set p v) q l :=
  ⟨h.1.set v hq fun a ha => hl a (List.dropLast_subset l ha),
    (get_set_of_ne _ (behind_ne hq hl).symm v).trans h.2⟩

/-- What stands at the end of a list may change. -/
theorem Passes.set_behind {m : Chain α} {q : Place α} {l : List α} (h : Passes m q l) (v : Option α) (hnodup : l.Nodup)
    (hq : ∀ a ∈ l, q ≠ .link a) : Passes (m.set (q.behind l) v) q l := by
  rcases List.eq_nil_or_concat l with rfl | ⟨l, a, rfl⟩
  · trivial
  · rw [List.concat_eq_append] at *
    rw [behind_concat]
    refine h.set v (hq a (by simp)).symm fun b hb heq => ?_
    rw [List.dropLast_concat] at hb
    cases heq
    exact (List.nodup_append.1 hnodup).2.2 _ hb _ (by simp) rfl

/-- The end of a list is made to point to another one. -/
theorem Hangs.set_end {m : Chain α} {q : Place α} {l r : List α} {v : Option α} (h : Hangs m q l)
    (hnodup : l.Nodup) (hq : ∀ a ∈ l, q ≠ .link a) (hr : Hangs (m.set (q.behind l) v) (q.behind l) r) :
    Hangs (m.set (q.behind l) v) q (l ++ r) :=
  hangs_append.2 ⟨h.1.set_behind v hnodup hq, hr⟩

/-! ## Moving cells -/

/-- The first cell behind a place is taken out. -/
def Chain.unlink (m : Chain α) (q : Place α) (a : α) : Chain α := m.set q (m.nxt a)

theorem Hangs.unlink {m : Chain α} {q : Place α} {l : List α} {a : α} {r : List α} (h : Hangs m q (l ++ a :: r))
    (hnodup : (l ++ a :: r).Nodup) (hq : ∀ b ∈ l ++ a :: r, q ≠ .link b) :
    Hangs (m.unlink (q.behind l) a) q (l ++ r) := by
  obtain ⟨hl, hr⟩ := hangs_append.1 h
  obtain ⟨-, hr⟩ := hangs_cons.1 hr
  have hapart : ∀ b ∈ a :: r, q.behind l ≠ .link b := by
    intro b hb
    refine (behind_ne (hq b (List.mem_append_right l hb)).symm ?_).symm
    intro c hc heq
    cases heq
    exact (List.nodup_append.1 hnodup).2.2 b hc b hb rfl
  refine hangs_append.2 ⟨hl.set_behind _ (List.nodup_append.1 hnodup).1 fun b hb => hq b (by simp [hb]), ?_⟩
  unfold Chain.unlink
  cases r with
  | nil =>
    rw [hangs_nil, get_set_self]
    exact hangs_nil.1 hr
  | cons b r =>
    obtain ⟨hget, hr⟩ := hangs_cons.1 hr
    refine hangs_cons.2 ⟨(get_set_self _ _ _).trans hget, hr.set _ (hapart b (by simp)) fun c hc => hapart c (by simp [hc])⟩

/-- A cell becomes the first one behind a place. -/
def Chain.push (m : Chain α) (q : Place α) (a : α) : Chain α := (m.set (.link a) (m.get q)).set q (some a)

theorem Hangs.push {m : Chain α} {q : Place α} {a : α} {l : List α} (h : Hangs m q l) (ha : a ∉ l)
    (hq : ∀ b ∈ a :: l, q ≠ .link b) : Hangs (m.push q a) q (a :: l) := by
  have hne : q ≠ .link a := hq a (by simp)
  refine hangs_cons.2 ⟨get_set_self _ _ _, ?_⟩
  unfold Chain.push
  cases l with
  | nil =>
    rw [hangs_nil, get_set_of_ne _ hne.symm, get_set_self]
    exact hangs_nil.1 h
  | cons b l =>
    obtain ⟨hget, h⟩ := hangs_cons.1 h
    refine hangs_cons.2 ⟨?_, ?_⟩
    · rw [get_set_of_ne _ hne.symm, get_set_self, hget]
    · refine Hangs.set ?_ _ (hq b (by simp)) fun c hc => hq c (by simp [hc])
      refine h.set _ (fun heq => ha ?_) fun c hc heq => ha ?_
      · cases heq
        exact List.mem_cons_self
      · cases heq
        exact List.mem_cons_of_mem b hc

/-- The cell `n` behind the cell `c` becomes the first of the list. -/
def Chain.moveToFront (m : Chain α) (c n : α) : Chain α :=
  let cnf := m.head
  let m := m.set .head (some n)
  let m := m.set (.link c) (m.nxt n)
  m.set (.link n) cnf

theorem Hangs.moveToFront {m : Chain α} {l : List α} {c n : α} {r : List α} (h : Hangs m .head (l ++ c :: n :: r))
    (hnodup : (l ++ c :: n :: r).Nodup) : Hangs (m.moveToFront c n) .head (n :: (l ++ c :: r)) := by
  have hn : n ∉ l ++ c :: r := by
    have hperm : (l ++ c :: n :: r).Perm (n :: (l ++ c :: r)) := by
      have hmiddle : ((l ++ [c]) ++ n :: r).Perm (n :: ((l ++ [c]) ++ r)) := List.perm_middle
      simpa using hmiddle
    exact (List.nodup_cons.1 (hperm.nodup_iff.1 hnodup)).1
  have hhead : ∀ b : α, Place.head ≠ Place.link b := fun b h => by cases h
  have hplace : Place.head.behind (l ++ [c]) = Place.link c := behind_concat _ _ _
  have hsame : m.moveToFront c n = (m.unlink (.link c) n).push .head n := by
    unfold Chain.unlink Chain.push
    rw [get_set_of_ne _ (hhead c)]
    show (((m.set .head (some n)).set (.link c) (m.nxt n)).set (.link n) m.head) = _
    rw [set_comm _ (hhead c), set_comm _ (hhead n)]
    rfl
  rw [hsame]
  refine Hangs.push ?_ hn fun b _ => hhead b
  have hcut := Hangs.unlink (m := m) (q := .head) (l := l ++ [c]) (a := n) (r := r) (by simpa using h) (by simpa using hnodup)
    fun b _ => hhead b
  rw [hplace] at hcut
  simpa using hcut

end

end Links
