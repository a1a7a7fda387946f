import Mathlib.Data.List.Chain
import Mathlib.Data.List.Nodup

/-!
# Circular doubly linked lists

Cells in a heap hold data and the links `prev` and `nxt`.  `IsRing m l` says that
the links run through the cells of `l` in that order and back to the first.  A
ring may be entered anywhere (`IsRing.rotate`), so that what is said of its
first cell holds of every cell.

| operation      | ring before  | ring after        |                           |
|----------------|--------------|-------------------|---------------------------|
| `unlink x`     | `x :: l`     | `l`               | `IsRing.unlink`           |
| `linkBefore`   | `h :: l`     | `x :: h :: l`     | `IsRing.linkBefore`       |
| `traverse`     | `h :: l`     | unchanged         | `IsRing.traverse`         |
-/

namespace Ring

structure Cell (α δ : Type) where
  data : δ
  prev : α
  nxt : α

abbrev Heap (α δ : Type) := α → Cell α δ

section

variable {α δ β : Type}

/-! ## Rings -/

def Link (m : Heap α δ) (a b : α) : Prop := (m a).nxt = b ∧ (m b).prev = a

structure IsRing (m : Heap α δ) (l : List α) : Prop where
  nodup : l.Nodup
  links : (l ++ l.take 1).IsChain (Link m)

theorem isRing_nil (m : Heap α δ) : IsRing m [] := ⟨List.nodup_nil, List.isChain_nil⟩

theorem isRing_cons {m : Heap α δ} {h : α} {t : List α} :
    IsRing m (h :: t) ↔ (h :: t).Nodup ∧ (h :: t ++ [h]).IsChain (Link m) :=
  ⟨fun hr => ⟨hr.nodup, hr.links⟩, fun hr => ⟨hr.1, hr.2⟩⟩

/-- A cell linked to itself. -/
theorem isRing_singleton {m : Heap α δ} {x : α} (hnxt : (m x).nxt = x) (hprev : (m x).prev = x) : IsRing m [x] :=
  isRing_cons.2 ⟨List.nodup_singleton x, List.isChain_pair.2 ⟨hnxt, hprev⟩⟩

/-- The last cell of a ring comes before the first. -/
theorem IsRing.last {m : Heap α δ} {h : α} {t : List α} (hr : IsRing m (h :: t)) :
    Link m ((h :: t).getLast (List.cons_ne_nil h t)) h :=
  List.IsChain.rel_getLast_head_of_append (isRing_cons.1 hr).2 (List.cons_ne_nil h t) (List.cons_ne_nil h [])

theorem IsRing.path {m : Heap α δ} {h : α} {t : List α} (hr : IsRing m (h :: t)) :
    (h :: t).IsChain (Link m) := (isRing_cons.1 hr).2.left_of_append

/-- A path uses `nxt` of all its cells but the last and `prev` of all but the first. -/
theorem path_congr {m m' : Heap α δ} {l : List α}
    (hnxt : ∀ a ∈ l.dropLast, (m' a).nxt = (m a).nxt) (hprev : ∀ b ∈ l.tail, (m' b).prev = (m b).prev)
    (h : l.IsChain (Link m)) : l.IsChain (Link m') := by
  induction l with
  | nil => exact List.isChain_nil
  | cons a l ih =>
    cases l with
    | nil => exact List.isChain_singleton a
    | cons b l =>
      rw [List.isChain_cons_cons] at h ⊢
      have ha := hnxt a (by simp)
      have hb := hprev b (by simp)
      refine ⟨⟨ha.trans h.1.1, hb.trans h.1.2⟩, ih (fun c hc => ?_) (fun c hc => ?_) h.2⟩
      · exact hnxt c (by rw [List.dropLast_cons_cons]; exact List.mem_cons_of_mem a hc)
      · exact hprev c (List.mem_cons_of_mem b hc)

/-- A path becomes a ring when its ends are linked. -/
theorem isRing_of_path {m m' : Heap α δ} {h : α} {t : List α} (hnodup : (h :: t).Nodup)
    (hpath : (h :: t).IsChain (Link m))
    (hnxt : ∀ a ∈ h :: t, a ≠ (h :: t).getLast (List.cons_ne_nil h t) → (m' a).nxt = (m a).nxt)
    (hprev : ∀ b ∈ t, (m' b).prev = (m b).prev)
    (hlast : Link m' ((h :: t).getLast (List.cons_ne_nil h t)) h) : IsRing m' (h :: t) := by
  refine isRing_cons.2 ⟨hnodup, List.isChain_append.2 ⟨?_, List.isChain_singleton h, ?_⟩⟩
  · refine path_congr (fun a ha => hnxt a (List.dropLast_subset _ ha) ?_) hprev hpath
    have hsplit := List.dropLast_append_getLast (List.cons_ne_nil h t)
    rw [← hsplit] at hnodup
    exact fun he => (List.nodup_append.1 hnodup).2.2 a ha _ (List.mem_singleton_self _) he
  · intro a ha b hb
    rw [List.getLast?_eq_some_getLast (List.cons_ne_nil h t), Option.mem_some_iff] at ha
    rw [List.head?_cons, Option.mem_some_iff] at hb
    rw [← ha, ← hb]
    exact hlast

theorem IsRing.congr {m m' : Heap α δ} {l : List α} (hr : IsRing m l)
    (h : ∀ a ∈ l, (m' a).nxt = (m a).nxt ∧ (m' a).prev = (m a).prev) : IsRing m' l := by
  refine ⟨hr.nodup, path_congr (fun a ha => (h a ?_).1) (fun b hb => (h b ?_).2) hr.links⟩
  · exact (List.mem_append.1 (List.dropLast_subset _ ha)).elim id List.mem_of_mem_take
  · exact (List.mem_append.1 (List.mem_of_mem_tail hb)).elim id List.mem_of_mem_take

/-- A ring may be entered at any of its cells. -/
theorem IsRing.rotate {m : Heap α δ} {l₁ l₂ : List α} (hr : IsRing m (l₁ ++ l₂)) : IsRing m (l₂ ++ l₁) := by
  cases l₁ with
  | nil => rwa [List.nil_append, ← List.append_nil l₂] at hr
  | cons a s =>
    cases l₂ with
    | nil => rwa [List.append_nil] at hr
    | cons b u =>
      obtain ⟨hnodup, hlinks⟩ := hr
      refine ⟨(List.perm_append_comm.nodup_iff).1 hnodup, ?_⟩
      have hlinks' : ((a :: s) ++ b :: (u ++ [a])).IsChain (Link m) := by simpa using hlinks
      have hgoal : ((b :: u) ++ a :: (s ++ [b])).IsChain (Link m) := by
        rw [List.isChain_split] at hlinks' ⊢
        exact ⟨hlinks'.2, hlinks'.1⟩
      simpa using hgoal

section

variable [DecidableEq α]

/-! ## Writing one field -/

def setPrev (m : Heap α δ) (a p : α) : Heap α δ := fun x => if x = a then { m x with prev := p } else m x

def setNxt (m : Heap α δ) (a n : α) : Heap α δ := fun x => if x = a then { m x with nxt := n } else m x

def setData (m : Heap α δ) (a : α) (d : δ) : Heap α δ := fun x => if x = a then { m x with data := d } else m x

section Fields

variable (m : Heap α δ) (a p x : α) (d : δ)

@[simp] theorem prev_setPrev : (setPrev m a p x).prev = if x = a then p else (m x).prev := by
  unfold setPrev
  split
  · rfl
  · rfl

@[simp] theorem nxt_setPrev : (setPrev m a p x).nxt = (m x).nxt := by
  unfold setPrev
  split
  · rfl
  · rfl

@[simp] theorem data_setPrev : (setPrev m a p x).data = (m x).data := by
  unfold setPrev
  split
  · rfl
  · rfl

@[simp] theorem nxt_setNxt : (setNxt m a p x).nxt = if x = a then p else (m x).nxt := by
  unfold setNxt
  split
  · rfl
  · rfl

@[simp] theorem prev_setNxt : (setNxt m a p x).prev = (m x).prev := by
  unfold setNxt
  split
  · rfl
  · rfl

@[simp] theorem data_setNxt : (setNxt m a p x).data = (m x).data := by
  unfold setNxt
  split
  · rfl
  · rfl

@[simp] theorem data_setData : (setData m a d x).data = if x = a then d else (m x).data := by
  unfold setData
  split
  · rfl
  · rfl

@[simp] theorem prev_setData : (setData m a d x).prev = (m x).prev := by
  unfold setData
  split
  · rfl
  · rfl

@[simp] theorem nxt_setData : (setData m a d x).nxt = (m x).nxt := by
  unfold setData
  split
  · rfl
  · rfl

end Fields

/-! ## Taking a cell out -/

/-- The neighbours of `x` are linked to each other. -/
def unlink (m : Heap α δ) (x : α) : Heap α δ :=
  let m := setPrev m (m x).nxt (m x).prev
  setNxt m (m x).prev (m x).nxt

@[simp] theorem data_unlink (m : Heap α δ) (x a : α) : (unlink m x a).data = (m a).data := by
  simp only [unlink, data_setNxt, data_setPrev]

/-- The same, with the cell after `x` asked where to. -/
theorem setNxt_setPrev (m : Heap α δ) (x : α) :
    setNxt (setPrev m (m x).nxt (m x).prev) (setPrev m (m x).nxt (m x).prev (m x).nxt).prev (m x).nxt =
      unlink m x := by
  simp only [Ring.unlink, prev_setPrev, nxt_setPrev, if_true, ite_self]

/-- A ring of one cell stays as it is. -/
theorem IsRing.unlink_self {m : Heap α δ} {x : α} (hr : IsRing m [x]) : IsRing (Ring.unlink m x) [x] := by
  have hlink : Link m x x := hr.last
  refine isRing_singleton ?_ ?_
  · simp only [Ring.unlink, nxt_setNxt, nxt_setPrev, prev_setPrev, hlink.1, hlink.2, if_true]
  · simp only [Ring.unlink, prev_setNxt, prev_setPrev, hlink.1, hlink.2, if_true]

theorem IsRing.unlink {m : Heap α δ} {x : α} {l : List α} (hr : IsRing m (x :: l)) :
    IsRing (unlink m x) l := by
  cases l with
  | nil => exact isRing_nil _
  | cons h s =>
    have hnodup := hr.nodup
    have hlast := hr.last
    have hpath := hr.path
    rw [List.getLast_cons (List.cons_ne_nil h s)] at hlast
    rw [List.isChain_cons_cons] at hpath
    obtain ⟨hxh, hpath⟩ := hpath
    have hx : x ∉ h :: s := (List.nodup_cons.1 hnodup).1
    have hh : h ∉ s := (List.nodup_cons.1 (List.nodup_cons.1 hnodup).2).1
    have hne : x ≠ h := fun he => hx (he ▸ List.mem_cons_self)
    have hprevx : (m x).prev = (h :: s).getLast (List.cons_ne_nil h s) := hlast.2
    refine isRing_of_path (List.nodup_cons.1 hnodup).2 hpath (fun a _ hne => ?_) (fun b hb => ?_) ⟨?_, ?_⟩
    · simp only [Ring.unlink, nxt_setNxt, nxt_setPrev, prev_setPrev, hxh.1, if_neg ‹x ≠ h›, hprevx, if_neg hne]
    · have hbh : b ≠ h := fun he => hh (he ▸ hb)
      simp only [Ring.unlink, prev_setNxt, prev_setPrev, hxh.1, if_neg hbh]
    · simp only [Ring.unlink, nxt_setNxt, nxt_setPrev, prev_setPrev, hxh.1, if_neg hne, hprevx, if_true]
    · simp only [Ring.unlink, prev_setNxt, prev_setPrev, hxh.1, if_true, hprevx]

/-! ## Putting a cell in -/

/-- `x` is put between `h` and the cell before it. -/
def linkBefore (m : Heap α δ) (h x : α) : Heap α δ :=
  let m := setNxt m x h
  let m := setPrev m x (m h).prev
  let m := setNxt m (m h).prev x
  setPrev m h x

@[simp] theorem data_linkBefore (m : Heap α δ) (h x a : α) : (linkBefore m h x a).data = (m a).data := by
  simp only [linkBefore, data_setNxt, data_setPrev]

theorem IsRing.linkBefore {m : Heap α δ} {h x : α} {t : List α} (hr : IsRing m (h :: t)) (hx : x ∉ h :: t) :
    IsRing (linkBefore m h x) (x :: h :: t) := by
  have hlast := hr.last
  generalize hz : (h :: t).getLast (List.cons_ne_nil h t) = z at hlast
  have hh : h ∉ t := (List.nodup_cons.1 hr.nodup).1
  have hzmem : z ∈ h :: t := hz ▸ List.getLast_mem _
  have hxh : h ≠ x := fun he => hx (he ▸ List.mem_cons_self)
  have hxz : x ≠ z := fun he => hx (he ▸ hzmem)
  have hnxt : ∀ a, (Ring.linkBefore m h x a).nxt = if a = z then x else if a = x then h else (m a).nxt := by
    intro a
    simp only [Ring.linkBefore, nxt_setPrev, nxt_setNxt, prev_setPrev, prev_setNxt, if_neg hxh, hlast.2]
  have hprev : ∀ a, (Ring.linkBefore m h x a).prev = if a = h then x else if a = x then z else (m a).prev := by
    intro a
    simp only [Ring.linkBefore, prev_setPrev, prev_setNxt, hlast.2]
  have hpath : (x :: h :: t).IsChain (Link (Ring.linkBefore m h x)) := by
    refine List.isChain_cons_cons.2 ⟨⟨?_, ?_⟩, path_congr (fun a ha => ?_) (fun b hb => ?_) hr.path⟩
    · rw [hnxt, if_neg hxz, if_pos rfl]
    · rw [hprev, if_pos rfl]
    · have hsplit := List.dropLast_append_getLast (List.cons_ne_nil h t)
      have hnodup := hr.nodup
      rw [← hsplit] at hnodup
      have haz : a ≠ z := fun he =>
        (List.nodup_append.1 hnodup).2.2 a ha _ (List.mem_singleton_self _) (he.trans hz.symm)
      have hax : a ≠ x := fun he => hx (he ▸ List.dropLast_subset _ ha)
      rw [hnxt, if_neg haz, if_neg hax]
    · have hbh : b ≠ h := fun he => hh (he ▸ hb)
      have hbx : b ≠ x := fun he => hx (he ▸ List.mem_cons_of_mem h hb)
      rw [hprev, if_neg hbh, if_neg hbx]
  have hz' : (x :: h :: t).getLast (List.cons_ne_nil x (h :: t)) = z := by
    rw [List.getLast_cons (List.cons_ne_nil h t), hz]
  refine isRing_of_path (List.nodup_cons.2 ⟨hx, hr.nodup⟩) hpath (fun _ _ _ => rfl) (fun _ _ => rfl) ?_
  rw [hz']
  exact ⟨by rw [hnxt, if_pos rfl], by rw [hprev, if_neg hxh.symm, if_pos rfl]⟩

/-- A ring of one cell, put in again before itself. -/
theorem linkBefore_self (m : Heap α δ) (x : α) (hr : IsRing m [x]) : IsRing (linkBefore m x x) [x] := by
  have hlast : (m x).prev = x := hr.last.2
  refine isRing_cons.2 ⟨List.nodup_singleton x, List.isChain_pair.2 ⟨?_, ?_⟩⟩
  · simp only [Ring.linkBefore, nxt_setPrev, nxt_setNxt, prev_setPrev, prev_setNxt, if_true, hlast]
  · simp only [Ring.linkBefore, prev_setPrev, if_true]

/-! ## Going round -/

/-- From `p` along `nxt` until `head` comes next, at most `fuel` cells. -/
def traverse (m : Heap α δ) (head : α) (f : β → α → β) : Nat → α → β → β
  | 0, _, acc => acc
  | fuel + 1, p, acc =>
    if (m p).nxt = head then f acc p else traverse m head f fuel (m p).nxt (f acc p)

theorem traverse_path {m : Heap α δ} {h : α} (f : β → α → β) {t : List α} {p : α} {fuel : Nat} {acc : β}
    (hpath : (p :: t ++ [h]).IsChain (Link m)) (hh : h ∉ t) (hfuel : t.length < fuel) :
    traverse m h f fuel p acc = (p :: t).foldl f acc := by
  induction t generalizing p fuel acc with
  | nil =>
    cases fuel with
    | zero => omega
    | succ fuel =>
      have hnxt : (m p).nxt = h := (List.isChain_pair.1 hpath).1
      rw [traverse, if_pos hnxt]
      rfl
  | cons a t ih =>
    cases fuel with
    | zero => omega
    | succ fuel =>
      rw [List.cons_append, List.cons_append, List.isChain_cons_cons] at hpath
      have hnxt : (m p).nxt = a := hpath.1.1
      have hne : (m p).nxt ≠ h := fun he => hh (he ▸ hnxt ▸ List.mem_cons_self)
      rw [traverse, if_neg hne, hnxt, ih hpath.2 (fun hm => hh (List.mem_cons_of_mem a hm))
        (Nat.lt_of_succ_lt_succ hfuel)]
      rfl

theorem IsRing.traverse {m : Heap α δ} {h : α} {t : List α} (hr : IsRing m (h :: t)) (f : β → α → β)
    {fuel : Nat} (hfuel : t.length < fuel) (acc : β) :
    traverse m h f fuel h acc = (h :: t).foldl f acc :=
  traverse_path f (isRing_cons.1 hr).2 (List.nodup_cons.1 hr.nodup).1 hfuel

end

end

end Ring
