import RdfStore.Dbms.Config
import Mathlib.Data.List.Permutation

/-!
# The order of the sections (`parse_config` of `conf.c`)

The loops over the links are functions on the list of the sections
(`reorder_hangs`): the first pulls baseline sections to the front but does not look
behind the one it has just pulled, the second takes one fall through section out
and stops there.

    the links in memory follow the functions        (reorder_hangs)
    what becomes of the sections that were read     (orderSections_eq)
-/

namespace RdfStore.Dbms

open ByteMem Links

/-! ## The loops on lists -/

section

variable {α : Type} (baseline fallThrough : α → Bool)

/-- The baseline sections that are pulled to the front, and those that stay: behind one that is pulled, the next
section is not looked at. -/
def pull : List α → List α × List α
  | [] => ([], [])
  | [n] => if baseline n then ([n], []) else ([], [n])
  | n :: c :: rest =>
    if baseline n then (n :: (pull rest).1, c :: (pull rest).2)
    else ((pull (c :: rest)).1, n :: (pull (c :: rest)).2)

/-- The first loop. -/
def baselinesFirst : List α → List α
  | [] => []
  | c :: rest => (pull baseline rest).1.reverse ++ c :: (pull baseline rest).2

/-- The two other loops. -/
def fallThroughLast (l : List α) : List α := l.eraseP fallThrough ++ (l.find? fallThrough).toList

/-- The three loops. -/
def ordered (l : List α) : List α := fallThroughLast fallThrough (baselinesFirst baseline l)

theorem pull_perm (l : List α) : ((pull baseline l).1 ++ (pull baseline l).2).Perm l := by
  induction l using pull.induct baseline with
  | case1 => simp [pull]
  | case2 n hn => simp [pull, hn]
  | case3 n hn => simp [pull, hn]
  | case4 n c rest hn ih =>
    rw [pull, if_pos hn]
    exact (List.perm_middle.trans (ih.cons c)).cons n
  | case5 n c rest hn ih =>
    rw [pull, if_neg hn]
    exact List.perm_middle.trans (ih.cons n)

theorem baselinesFirst_perm (l : List α) : (baselinesFirst baseline l).Perm l := by
  cases l with
  | nil => exact List.Perm.refl []
  | cons c rest =>
    refine List.perm_middle.trans (List.Perm.cons c ?_)
    exact ((List.reverse_perm _).append_right _).trans (pull_perm baseline rest)

theorem fallThroughLast_perm (l : List α) : (fallThroughLast fallThrough l).Perm l := by
  unfold fallThroughLast
  induction l with
  | nil => simp
  | cons a l ih =>
    by_cases ha : fallThrough a = true
    · rw [List.eraseP_cons_of_pos ha, List.find?_cons_of_pos ha]
      exact List.perm_append_singleton a l
    · rw [List.eraseP_cons_of_neg ha, List.find?_cons_of_neg ha]
      exact ih.cons a

theorem ordered_perm (l : List α) : (ordered baseline fallThrough l).Perm l :=
  (fallThroughLast_perm fallThrough _).trans (baselinesFirst_perm baseline l)

variable {β : Type} (f : β → α)

theorem pull_map (l : List β) :
    pull baseline (l.map f) = ((pull (baseline ∘ f) l).1.map f, (pull (baseline ∘ f) l).2.map f) := by
  induction l using pull.induct (baseline ∘ f) with
  | case1 => rfl
  | case2 n hn =>
    rw [Function.comp_apply] at hn
    simp [pull, hn]
  | case3 n hn =>
    rw [Function.comp_apply] at hn
    simp [pull, hn]
  | case4 n c rest hn ih =>
    rw [Function.comp_apply] at hn
    simp [pull, hn, ih]
  | case5 n c rest hn ih =>
    rw [Function.comp_apply] at hn
    rw [List.map_cons] at ih
    simp [pull, hn, ih]

theorem baselinesFirst_map (l : List β) :
    baselinesFirst baseline (l.map f) = (baselinesFirst (baseline ∘ f) l).map f := by
  cases l with
  | nil => rfl
  | cons c rest => simp [baselinesFirst, pull_map]

theorem fallThroughLast_map (l : List β) :
    fallThroughLast fallThrough (l.map f) = (fallThroughLast (fallThrough ∘ f) l).map f := by
  unfold fallThroughLast
  rw [List.eraseP_map, List.find?_map, List.map_append]
  cases l.find? (fallThrough ∘ f) <;> rfl

theorem ordered_map (l : List β) :
    ordered baseline fallThrough (l.map f) = (ordered (baseline ∘ f) (fallThrough ∘ f) l).map f := by
  rw [ordered, baselinesFirst_map, fallThroughLast_map, ordered]

end

/-! ## The loops on links -/

/-- What hangs on a cell of the list. -/
theorem nxt_of_hangs {m : Chain ℕ} {q : Place ℕ} {l : List ℕ} {c : ℕ} {r : List ℕ} (h : Hangs m q (l ++ c :: r)) :
    m.nxt c = r.head? ∧ Hangs m (.link c) r := by
  obtain ⟨-, h⟩ := hangs_append.1 h
  obtain ⟨-, h⟩ := hangs_cons.1 h
  refine ⟨?_, h⟩
  cases r with
  | nil => exact hangs_nil.1 h
  | cons b r => exact (hangs_cons.1 h).1

theorem layOut_hangs (n : ℕ) : Hangs (layOut n) .head (List.range n).reverse := by
  induction n with
  | zero => exact hangs_nil.2 rfl
  | succ n ih =>
    rw [List.range_succ, List.reverse_append]
    exact ih.push (by simp) fun b _ h => by cases h

variable (dbase : ℕ → Bytes)

theorem baselineLoop_hangs {rest : List ℕ} (pre : List ℕ) (m : Chain ℕ) (c fuel : ℕ) (h : Hangs m .head (pre ++ c :: rest))
    (hnodup : (pre ++ c :: rest).Nodup) (hfuel : rest.length < fuel) :
    ∃ m', baselineLoop dbase (fuel + 1) m (some c) = some m' ∧
      Hangs m' .head ((pull (fun k => dbase k = ascii "_") rest).1.reverse ++
        (pre ++ c :: (pull (fun k => dbase k = ascii "_") rest).2)) := by
  induction rest using pull.induct (fun k => dbase k = ascii "_") generalizing pre c m fuel with
  | case1 =>
    refine ⟨m, ?_, by simpa [pull] using h⟩
    rw [baselineLoop, (nxt_of_hangs h).1]
    rfl
  | case2 n hn =>
    have hn' := of_decide_eq_true hn
    have hmoved := h.moveToFront hnodup
    refine ⟨m.moveToFront c n, ?_, by simpa [pull, hn'] using hmoved⟩
    obtain ⟨fuel, rfl⟩ := Nat.exists_eq_succ_of_ne_zero (Nat.ne_of_gt (Nat.zero_lt_of_lt hfuel))
    have hnxt : (m.moveToFront c n).nxt c = none := (nxt_of_hangs (l := n :: pre) hmoved).1
    simp [baselineLoop, (nxt_of_hangs h).1, hn', hnxt]
  | case3 n hn =>
    have hn' := of_decide_eq_false (eq_false_of_ne_true hn)
    refine ⟨m, ?_, by simpa [pull, hn'] using h⟩
    obtain ⟨fuel, rfl⟩ := Nat.exists_eq_succ_of_ne_zero (Nat.ne_of_gt (Nat.zero_lt_of_lt hfuel))
    have hnxt : m.nxt n = none := (nxt_of_hangs (l := pre ++ [c]) (r := []) (by simpa using h)).1
    simp [baselineLoop, (nxt_of_hangs h).1, hn', hnxt]
  | case4 n d rest hn ih =>
    have hn' := of_decide_eq_true hn
    have hmoved := h.moveToFront hnodup
    obtain ⟨fuel, rfl⟩ := Nat.exists_eq_succ_of_ne_zero (Nat.ne_of_gt (Nat.zero_lt_of_lt hfuel))
    have hnxt : (m.moveToFront c n).nxt c = some d := (nxt_of_hangs (l := n :: pre) hmoved).1
    have hperm : (pre ++ c :: n :: d :: rest).Perm (n :: (pre ++ c :: d :: rest)) := by
      have hmiddle : ((pre ++ [c]) ++ n :: d :: rest).Perm (n :: ((pre ++ [c]) ++ d :: rest)) := List.perm_middle
      simpa using hmiddle
    obtain ⟨m', hloop, hend⟩ := ih (n :: (pre ++ [c])) (m.moveToFront c n) d fuel
      (by simpa using hmoved) (by simpa using hperm.nodup_iff.1 hnodup)
      (by simp only [List.length_cons] at hfuel; omega)
    refine ⟨m', ?_, by simpa [pull, hn'] using hend⟩
    rw [baselineLoop, (nxt_of_hangs h).1]
    simpa [hn', hnxt] using hloop
  | case5 n d rest hn ih =>
    have hn' := of_decide_eq_false (eq_false_of_ne_true hn)
    obtain ⟨fuel, rfl⟩ := Nat.exists_eq_succ_of_ne_zero (Nat.ne_of_gt (Nat.zero_lt_of_lt hfuel))
    obtain ⟨m', hloop, hend⟩ := ih (pre ++ [c]) m n fuel
      (by simpa using h) (by simpa using hnodup) (by simp only [List.length_cons] at hfuel ⊢; omega)
    refine ⟨m', ?_, by simpa [pull, hn'] using hend⟩
    rw [baselineLoop, (nxt_of_hangs h).1]
    simpa [hn', (nxt_of_hangs h).1] using hloop

theorem baselineLoop_head {l : List ℕ} {m : Chain ℕ} {n : ℕ} (h : Hangs m .head l) (hnodup : l.Nodup) (hn : l.length ≤ n) :
    ∃ m', baselineLoop dbase (n + 1) m m.head = some m' ∧
      Hangs m' .head (baselinesFirst (fun k => dbase k = ascii "_") l) := by
  cases l with
  | nil =>
    have hhead : m.head = none := hangs_nil.1 h
    rw [hhead]
    exact ⟨m, rfl, h⟩
  | cons c rest =>
    have hhead : m.head = some c := (hangs_cons.1 h).1
    rw [hhead]
    exact baselineLoop_hangs dbase [] m c n h hnodup hn

/-- After the first section that is taken out, the loop stands on a link to nothing. -/
theorem fallThroughLoop_hangs {rest : List ℕ} {m : Chain ℕ} (pre : List ℕ) (fuel : ℕ) (h : Hangs m .head (pre ++ rest))
    (hnodup : (pre ++ rest).Nodup) (hfuel : rest.length < fuel) :
    ∃ m', fallThroughLoop dbase fuel m (Place.head.behind pre) none =
        some (m', rest.find? fun k => dbase k = ascii "*") ∧
      Hangs m' .head (pre ++ rest.eraseP fun k => dbase k = ascii "*") ∧
      ∀ k ∈ rest.find? (fun k => dbase k = ascii "*"), m'.nxt k = none := by
  induction rest generalizing pre fuel with
  | nil =>
    obtain ⟨fuel, rfl⟩ := Nat.exists_eq_succ_of_ne_zero (Nat.ne_of_gt hfuel)
    refine ⟨m, ?_, by simpa using h, by simp⟩
    rw [fallThroughLoop, hangs_nil.1 (hangs_append.1 h).2]
    rfl
  | cons a rest ih =>
    obtain ⟨fuel, rfl⟩ := Nat.exists_eq_succ_of_ne_zero (Nat.ne_of_gt (Nat.zero_lt_of_lt hfuel))
    have hget : m.get (Place.head.behind pre) = some a := (hangs_cons.1 (hangs_append.1 h).2).1
    by_cases ha : dbase a = ascii "*"
    · have hout : a ∉ pre ++ rest := by
        have hperm : (pre ++ a :: rest).Perm (a :: (pre ++ rest)) := List.perm_middle
        exact (List.nodup_cons.1 (hperm.nodup_iff.1 hnodup)).1
      have hcut := h.unlink hnodup fun b _ hb => by cases hb
      have hfree := hcut.set (p := .link a) none (fun hb => by cases hb) fun b hb heq => by
        cases heq
        exact hout hb
      have hpos : fuel ≠ 0 := by
        simp only [List.length_cons] at hfuel
        omega
      obtain ⟨fuel, rfl⟩ := Nat.exists_eq_succ_of_ne_zero hpos
      have hend : ((m.unlink (Place.head.behind pre) a).set (.link a) none).nxt a = none := get_set_self _ (.link a) none
      refine ⟨_, ?_, by simpa [ha] using hfree, by simpa [ha] using hend⟩
      rw [fallThroughLoop, hget]
      simp [ha, fallThroughLoop, get_set_self]
    · have hpre : Place.head.behind (pre ++ [a]) = .link a := behind_concat _ _ _
      obtain ⟨m', hloop, hend, hfree⟩ := ih (pre ++ [a]) fuel (by simpa using h) (by simpa using hnodup)
        (by simp only [List.length_cons] at hfuel; omega)
      refine ⟨m', ?_, by simpa [ha] using hend, by simpa [ha] using hfree⟩
      rw [fallThroughLoop, hget]
      rw [hpre] at hloop
      simpa [ha] using hloop

theorem endLoop_hangs {l : List ℕ} {m : Chain ℕ} {q : Place ℕ} {fuel : ℕ} (h : Hangs m q l) (hfuel : l.length < fuel) :
    endLoop fuel m q = some (q.behind l) := by
  induction l generalizing q fuel with
  | nil =>
    obtain ⟨fuel, rfl⟩ := Nat.exists_eq_succ_of_ne_zero (Nat.ne_of_gt hfuel)
    rw [endLoop, hangs_nil.1 h]
    rfl
  | cons a l ih =>
    obtain ⟨fuel, rfl⟩ := Nat.exists_eq_succ_of_ne_zero (Nat.ne_of_gt (Nat.zero_lt_of_lt hfuel))
    obtain ⟨hget, h⟩ := hangs_cons.1 h
    rw [endLoop, hget, behind_cons]
    exact ih h (Nat.lt_of_succ_lt_succ hfuel)

/-- The three loops end, with the list in the order that the functions on lists give. -/
theorem reorder_hangs (n : ℕ) :
    ∃ m, reorder dbase n = some m ∧ Hangs m .head
      (ordered (fun k => dbase k = ascii "_") (fun k => dbase k = ascii "*") (List.range n).reverse) := by
  have hlen : (List.range n).reverse.length = n := by rw [List.length_reverse, List.length_range]
  have hnodup : (List.range n).reverse.Nodup := List.nodup_reverse.2 List.nodup_range
  obtain ⟨m₁, hfirst, h₁⟩ := baselineLoop_head dbase (layOut_hangs n) hnodup hlen.le
  have hperm := baselinesFirst_perm (fun k => decide (dbase k = ascii "_")) (List.range n).reverse
  unfold ordered
  generalize baselinesFirst (fun k => decide (dbase k = ascii "_")) (List.range n).reverse = l at *
  have hl : l.length = n := hperm.length_eq.trans hlen
  have hlnodup := hperm.nodup_iff.2 hnodup
  obtain ⟨m₂, hsecond, h₂, hfree⟩ := fallThroughLoop_hangs dbase [] (n + 1) h₁ hlnodup (by omega)
  rw [List.nil_append] at h₂
  rw [behind_nil] at hsecond
  have herase : (l.eraseP fun k => decide (dbase k = ascii "*")).length < n + 1 := by
    have := (List.eraseP_sublist (p := fun k => decide (dbase k = ascii "*")) (l := l)).length_le
    omega
  have hend := endLoop_hangs h₂ herase
  refine ⟨m₂.set (Place.head.behind (l.eraseP fun k => decide (dbase k = ascii "*")))
    (l.find? fun k => decide (dbase k = ascii "*")),
    by simp only [reorder, hfirst, hsecond, hend, Option.bind_eq_bind, Option.bind_some], ?_⟩
  refine h₂.set_end (hlnodup.sublist List.eraseP_sublist) (fun b _ h => by cases h) ?_
  cases hfind : l.find? fun k => decide (dbase k = ascii "*") with
  | none => simp
  | some a =>
    have hlast := (fallThroughLast_perm (fun k => decide (dbase k = ascii "*")) l).nodup_iff.2 hlnodup
    rw [fallThroughLast, hfind] at hlast
    have hout := (List.nodup_append.1 hlast).2.2
    refine hangs_cons.2 ⟨get_set_self _ _ _, hangs_nil.2 ?_⟩
    refine (get_set_of_ne _ (behind_ne (fun h => by cases h) fun b hb heq => ?_) _).trans (hfree a hfind)
    cases heq
    exact hout _ hb _ (by simp) rfl

theorem range_map_getElem {α : Type} (l : List α) : (List.range l.length).map (fun k => l[k]?) = l.map some := by
  refine List.ext_getElem (by simp) fun k hk _ => ?_
  simp only [List.length_map, List.length_range] at hk
  simp [hk]

def isBaseline (s : Xsctrl) : Bool := s.dbase = ascii "_"

def isFallThrough (s : Xsctrl) : Bool := s.dbase = ascii "*"

/-- What `parse_config` makes of the sections it has read. -/
theorem orderSections_eq (sections : List Xsctrl) :
    orderSections sections = some (ordered isBaseline isFallThrough sections.reverse) := by
  let base : Option Xsctrl → Bool := fun o => decide ((o.map Xsctrl.dbase).getD [] = ascii "_")
  let fall : Option Xsctrl → Bool := fun o => decide ((o.map Xsctrl.dbase).getD [] = ascii "*")
  let name : ℕ → Option Xsctrl := fun k => sections[k]?
  have hlist : (List.range sections.length).reverse.map name = sections.reverse.map some := by
    rw [List.map_reverse, range_map_getElem, ← List.map_reverse]
  obtain ⟨m, hm, h⟩ := reorder_hangs (fun k => ((name k).map Xsctrl.dbase).getD []) sections.length
  have hlen := (ordered_perm (base ∘ name) (fall ∘ name) (List.range sections.length).reverse).length_eq
  rw [List.length_reverse, List.length_range] at hlen
  have hcells := Hangs.cells h (Nat.lt_succ_of_le hlen.le)
  have hsections : (ordered (base ∘ name) (fall ∘ name) (List.range sections.length).reverse).map name =
      (ordered (base ∘ some) (fall ∘ some) sections.reverse).map some := by
    rw [← ordered_map, ← ordered_map, hlist]
  have hfilter := congrArg (List.filterMap id) hsections
  rw [List.filterMap_map, List.filterMap_map] at hfilter
  simp only [orderSections]
  rw [show reorder (fun k => (sections[k]?.map Xsctrl.dbase).getD []) sections.length = some m from hm]
  simp only [Option.bind_eq_bind, Option.bind_some]
  rw [hcells]
  exact congrArg some (hfilter.trans List.filterMap_some)

end RdfStore.Dbms
