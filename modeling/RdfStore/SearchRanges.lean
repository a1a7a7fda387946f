import RdfStore.Lib.OrderedTable
import RdfStore.SearchMeaning

/-!
# The range component of a search (`tp->ranges`)

A range is one bound or two on the keys of a table of numbers (or dates), which
is walked in key order.  The entries of the keys in range are joined by OR; with
two bounds a first walk finds the ids above the lower bound, a second one those
below the upper, and the two are joined by AND.

    contributed ids = ⋃ ids under the keys in range                   (rangeSearch_exact)

for the operators 1 to 6 on every table, for 7 to 10 on tables that have no id
under two keys and no entry without ids.
-/

namespace RdfStore

open ByteMem OrderedTable

/-- A table of values, as its cursor shows it: the bitmaps under the keys. -/
abbrev RangeTable (κ : Type) [LinearOrder κ] := Table κ Bytes

section

variable (ext : Externals) {κ : Type} [LinearOrder κ]

/-! ## The walks -/

/-- The walk of `x < a` and `x <= a` from a key on. -/
def rangeTo (t : RangeTable κ) (bound : κ) (inclusive : Bool) : Nat → κ → Join → Join
  | 0, _, j => j
  | fuel + 1, key, j =>
    if (key = bound ∧ inclusive = false) ∨ bound < key then j
    else
      match t.fetch key with
      | none => j
      | some data =>
        let j := joinEntry ext 0 j (some data)
        -- the bound itself is the last one
        if key = bound then j
        else
          match t.next key with
          | some key => rangeTo t bound inclusive fuel key j
          | none => j

/-- The walk of the other operators from a key on; `skip` passes over the bound. -/
def rangeOn (t : RangeTable κ) (bound : κ) (skip : Bool) : Nat → κ → Join → Join
  | 0, _, j => j
  | fuel + 1, key, j =>
    match if key = bound ∧ skip = true then some j else (t.fetch key).map fun data => joinEntry ext 0 j (some data) with
    | none => j
    | some j =>
      match t.next key with
      | some key => rangeOn t bound skip fuel key j
      | none => j

/-- A walk that starts with what the cursor answers, if it answers a key. -/
def startWalk (walk : κ → Join → Join) (key : Option κ) (j : Join) : Join :=
  match key with
  | some key => walk key j
  | none => j

/-- `x < a` or `x <= a` -/
def rangeBelow (t : RangeTable κ) (a : κ) (inclusive : Bool) : Join → Join :=
  startWalk (rangeTo ext t a inclusive t.entries.length) t.first

/-- `x != a` -/
def rangeNot (t : RangeTable κ) (a : κ) : Join → Join :=
  startWalk (rangeOn ext t a true t.entries.length) t.first

/-- `x >= a`, or `x > a` if the bound is passed over. -/
def rangeAbove (t : RangeTable κ) (a : κ) (skip : Bool) : Join → Join :=
  startWalk (rangeOn ext t a skip t.entries.length) (t.fromKey a)

/-! ## The component -/

/-- A walk, into `bits2`. -/
def walkComponent (walk : Join → Join) (s : Search) : Search :=
  let j := walk ⟨0, s.bits2, s.bits1, s.me.bitsDecode⟩
  { s with
    me := { s.me with bitsDecode := j.bitsDecode }, bits2 := j.bits, bits1 := j.bits1, outsize3 := j.outsize }

/-- What was found is joined to the components before. -/
def joinBefore (s : Search) : Except Search Search :=
  if s.outsize3 = 0 then .error s
  else if 0 < s.outsize1 then andBefore s
  else
    let (outsize1, bits1) := rdfstoreBitsOr s.outsize3 s.bits s.outsize3 s.bits2 s.bits1
    .ok { s with outsize1, bits1, bits := copyBytes s.outsize3 bits1 s.bits }

/-- The range component, over bounds that were read.  `none` is the way out with NULL; any other
error is the way out with an empty iterator. -/
def searchRanges (t : RangeTable κ) (operator : Nat) (bounds : List κ) (s : Search) :
    Except (Option Search) Search :=
  match bounds with
  | [] => .ok s
  | a :: rest =>
    if 6 < operator ∧ operator < 11 then
      match rest with
      | [] => .error none
      | c :: _ => do
        let s ← (joinBefore (walkComponent (rangeAbove ext t a (operator = 7 ∨ operator = 10)) s)).mapError some
        (joinBefore (walkComponent (rangeBelow ext t c (operator = 9 ∨ operator = 10)) s)).mapError some
    else if operator = 1 ∨ operator = 2 then
      (joinBefore (walkComponent (rangeBelow ext t a (operator = 2)) s)).mapError some
    else if operator = 3 then
      match t.fetch a with
      | none => .error none
      | some data => (joinBefore (walkComponent (joinEntry ext 0 · (some data)) s)).mapError some
    else if operator = 4 then (joinBefore (walkComponent (rangeNot ext t a) s)).mapError some
    else if operator = 5 ∨ operator = 6 then
      (joinBefore (walkComponent (rangeAbove ext t a (operator = 6)) s)).mapError some
    else (joinBefore { s with outsize3 := 0 }).mapError some

/-- The components before the ranges. -/
def searchBeforeRanges (s : Search) : Except Search Search := do
  let s ← searchWords ext s
  let s ← searchSubjects ext s
  let s ← searchPredicates ext s
  let s ← searchObjects ext s
  let s ← searchLangs ext s
  searchDts ext s

/-- `rdfstore_search` for a pattern with ranges. -/
def rdfstoreSearchRanges (t : RangeTable κ) (me : Store) (tp : TriplePattern) (operator : Nat) (bounds : List κ) :
    SearchResult :=
  if !tp.check || (!bounds.isEmpty && 10 < operator) then .null
  else if me.freetext && !tp.words.isNull && !tp.objects.isNull then .null
  else if tp.isEmpty && bounds.isEmpty then .elements
  else
    match (do
      let s ← (searchBeforeRanges ext ⟨me, tp, fun _ => 0, fun _ => 0, fun _ => 0, 0, 0⟩).mapError some
      let s ← searchRanges ext t operator bounds s
      (searchContexts ext s).mapError some : Except (Option Search) Search) with
    | .error none => .null
    | .error (some s) => .found Iterator.empty s.me s.tp
    | .ok s => .found ⟨copyBytes s.outsize1 s.bits fun _ => 0, s.outsize1, countBits s.outsize1 s.bits⟩ s.me s.tp

end

/-! ## What the walks join -/

section

variable {ext : Externals} {κ : Type}

/-- The entries of a list joined one after the other. -/
def joinAll (ext : Externals) (es : List (κ × Bytes)) (j : Join) : Join :=
  es.foldl (fun j e => joinEntry ext 0 j (some e.2)) j

theorem joinAll_cons (e : κ × Bytes) (es : List (κ × Bytes)) (j : Join) :
    joinAll ext (e :: es) j = joinAll ext es (joinEntry ext 0 j (some e.2)) := rfl

theorem mem_joinAll (es : List (κ × Bytes)) (j : Join) (i : Nat) :
    i ∈ (joinAll ext es j).ids ↔ i ∈ j.ids ∨ ∃ e ∈ es, i ∈ onesOf (ext.funcDecode e.2) := by
  induction es generalizing j with
  | nil => simp [joinAll]
  | cons e es ih =>
    rw [joinAll_cons, ih, joinEntry_or_ids, Finset.mem_union]
    simp only [List.mem_cons, exists_eq_or_imp, or_assoc, entryIds]

variable [LinearOrder κ] {t : RangeTable κ} {a : κ}

/-- The next key is where the rest of the table begins. -/
theorem next_walk {l r : List (κ × Bytes)} {e : κ × Bytes} (h : t.entries = l ++ e :: r)
    {walk : κ → Join → Join} {j j' : Join} (hnil : r = [] → j' = j)
    (hcons : ∀ e' r', r = e' :: r' → walk e'.1 j = j') :
    (match t.next e.1 with
      | some key => walk key j
      | none => j) = j' := by
  rw [Table.next_of_split h]
  cases r with
  | nil => exact (hnil rfl).symm
  | cons e' r' => exact hcons e' r' rfl

theorem rangeTo_eq {inclusive : Bool} {fuel : Nat} {l r : List (κ × Bytes)} {e : κ × Bytes}
    (h : t.entries = l ++ e :: r) (hfuel : r.length < fuel) (j : Join) :
    rangeTo ext t a inclusive fuel e.1 j =
      joinAll ext ((e :: r).filter fun x => x.1 < a ∨ (x.1 = a ∧ inclusive = true)) j := by
  induction fuel generalizing l r e j with
  | zero => omega
  | succ fuel ih =>
    have hhigh := (Table.split h).2
    -- from the bound on nothing is in range
    have hstop : a ≤ e.1 → r.filter (fun x => x.1 < a ∨ (x.1 = a ∧ inclusive = true)) = [] := by
      intro hle
      refine List.filter_eq_nil_iff.2 fun x hx => ?_
      have hlt := hle.trans_lt (hhigh x hx)
      simp [hlt.le, hlt.ne']
    unfold rangeTo
    by_cases hbreak : (e.1 = a ∧ inclusive = false) ∨ a < e.1
    · have hle : a ≤ e.1 := hbreak.elim (fun hb => hb.1.ge) le_of_lt
      have hout : ¬ (e.1 < a ∨ (e.1 = a ∧ inclusive = true)) := by
        rintro (hlt | ⟨heq, hin⟩)
        · exact absurd hlt (not_lt.2 hle)
        · rcases hbreak with ⟨-, hb⟩ | hb
          · rw [hin] at hb
            cases hb
          · exact hb.ne' heq
      rw [if_pos hbreak, List.filter_cons_of_neg (by simpa using hout), hstop hle]
      rfl
    · have hin : e.1 < a ∨ (e.1 = a ∧ inclusive = true) := by
        rcases lt_trichotomy e.1 a with hlt | heq | hgt
        · exact Or.inl hlt
        · refine Or.inr ⟨heq, ?_⟩
          cases inclusive with
          | true => rfl
          | false => exact absurd (Or.inl ⟨heq, rfl⟩) hbreak
        · exact absurd (Or.inr hgt) hbreak
      rw [if_neg hbreak, Table.fetch_of_split h, List.filter_cons_of_pos (by simpa using hin), joinAll_cons]
      simp only
      split
      · next heq =>
        rw [hstop heq.ge]
        rfl
      · refine next_walk h (fun hnil => by rw [hnil]; rfl) fun e' r' hr => ?_
        subst hr
        exact ih (show t.entries = (l ++ [e]) ++ e' :: r' by rw [h, List.append_assoc]; rfl)
          (Nat.lt_of_succ_lt_succ hfuel) _

theorem rangeOn_eq {skip : Bool} {fuel : Nat} {l r : List (κ × Bytes)} {e : κ × Bytes}
    (h : t.entries = l ++ e :: r) (hfuel : r.length < fuel) (j : Join) :
    rangeOn ext t a skip fuel e.1 j = joinAll ext ((e :: r).filter fun x => ¬ (x.1 = a ∧ skip = true)) j := by
  induction fuel generalizing l r e j with
  | zero => omega
  | succ fuel ih =>
    have hnext : ∀ j, (match t.next e.1 with
        | some key => rangeOn ext t a skip fuel key j
        | none => j) = joinAll ext (r.filter fun x => ¬ (x.1 = a ∧ skip = true)) j := by
      intro j
      refine next_walk h (fun hnil => by rw [hnil]; rfl) fun e' r' hr => ?_
      subst hr
      exact ih (show t.entries = (l ++ [e]) ++ e' :: r' by rw [h, List.append_assoc]; rfl)
        (Nat.lt_of_succ_lt_succ hfuel) _
    unfold rangeOn
    rw [Table.fetch_of_split h]
    by_cases hskip : e.1 = a ∧ skip = true
    · rw [if_pos hskip, List.filter_cons_of_neg (by simpa using hskip)]
      exact hnext j
    · have hkeep : decide (¬ (e.1 = a ∧ skip = true)) = true := decide_eq_true hskip
      rw [if_neg hskip, List.filter_cons, if_pos hkeep, joinAll_cons]
      exact hnext _

/-- A walk from where a part of the table begins. -/
theorem startWalk_eq {es : List (κ × Bytes)} {l : List (κ × Bytes)} (h : t.entries = l ++ es) {walk : κ → Join → Join}
    {p : κ × Bytes → Bool} (hwalk : ∀ e r, es = e :: r → ∀ j, walk e.1 j = joinAll ext ((e :: r).filter p) j) (j : Join) :
    startWalk walk (es.head?.map Prod.fst) j = joinAll ext (es.filter p) j := by
  cases es with
  | nil => rfl
  | cons e r => exact hwalk e r rfl j

theorem rangeBelow_eq (t : RangeTable κ) (a : κ) (inclusive : Bool) (j : Join) :
    rangeBelow ext t a inclusive j =
      joinAll ext (t.entries.filter fun x => x.1 < a ∨ (x.1 = a ∧ inclusive = true)) j := by
  refine startWalk_eq (List.nil_append _).symm (fun e r he j => ?_) j
  refine rangeTo_eq (l := []) he ?_ j
  rw [he]
  exact Nat.lt_succ_self _

theorem rangeNot_eq (t : RangeTable κ) (a : κ) (j : Join) :
    rangeNot ext t a j = joinAll ext (t.entries.filter fun x => ¬ (x.1 = a ∧ true = true)) j := by
  refine startWalk_eq (List.nil_append _).symm (fun e r he j => ?_) j
  refine rangeOn_eq (l := []) he ?_ j
  rw [he]
  exact Nat.lt_succ_self _

theorem rangeAbove_eq (t : RangeTable κ) (a : κ) (skip : Bool) (j : Join) :
    rangeAbove ext t a skip j = joinAll ext ((t.above a).filter fun x => ¬ (x.1 = a ∧ skip = true)) j := by
  have hsplit := (t.below_append_above a).symm
  unfold rangeAbove
  rw [t.fromKey_eq]
  refine startWalk_eq hsplit (fun e r he j => ?_) j
  rw [he] at hsplit
  refine rangeOn_eq hsplit ?_ j
  rw [hsplit, List.length_append, List.length_cons]
  omega

end

/-! ## Joining to what was there -/

section

variable {ext : Externals}

/-- The ids that a step leaves; NULL and an empty iterator are no id. -/
def leftIds {ε : Type} : Except ε Search → Finset Nat
  | .ok s => ones s.outsize1 s.bits
  | .error _ => ∅

/-- Nothing joined yet means a bitmap of zeroes. -/
def Search.Fresh (s : Search) : Prop := s.outsize1 = 0 → s.bits = fun _ => 0

theorem mem_leftIds_mapError {r : Except Search Search} {i : Nat} :
    i ∈ leftIds (r.mapError some) ↔ i ∈ leftIds r := by
  cases r with
  | ok s => exact Iff.rfl
  | error s => exact Iff.rfl

/-- The ids of a step joined to the ids before. -/
theorem mem_joinBefore {s : Search} (hs : s.Fresh) (i : Nat) : i ∈ leftIds (joinBefore s) ↔
    (0 < s.outsize1 → i ∈ ones s.outsize1 s.bits) ∧ i ∈ ones s.outsize3 s.bits2 := by
  unfold joinBefore
  split
  · next hz =>
    rw [hz]
    exact iff_of_false (Finset.notMem_empty i) fun h => by simp at h
  · split
    · next hpos =>
      have hand := ones_rdfstoreBitsAnd s.outsize1 s.bits s.outsize3 s.bits2 s.bits1
      rw [show (0 < s.outsize1 → i ∈ ones s.outsize1 s.bits) ↔ i ∈ ones s.outsize1 s.bits from
        ⟨fun h => h hpos, fun h _ => h⟩, ← Finset.mem_inter, ← hand]
      unfold andBefore
      simp only
      split
      · next hz =>
        rw [rdfstoreBitsShorten_eq_zero_iff] at hz
        rw [hz]
        exact Iff.rfl
      · show i ∈ ones _ (copyBytes _ _ _) ↔ _
        rw [ones_copyBytes, ones_rdfstoreBitsShorten]
    · next hnone =>
      have hout : s.outsize1 = 0 := Nat.eq_zero_of_not_pos hnone
      have hor := ones_rdfstoreBitsOr s.outsize3 s.bits s.outsize3 s.bits2 s.bits1
      have hzero : ones s.outsize3 s.bits = ∅ := by
        rw [hs hout]
        exact ones_eq_empty_iff.2 fun _ _ => rfl
      rw [hzero, Finset.empty_union] at hor
      rw [show (0 < s.outsize1 → i ∈ ones s.outsize1 s.bits) ↔ True from
        iff_true_intro fun h => absurd h hnone, true_and, ← hor]
      have hle : (rdfstoreBitsOr s.outsize3 s.bits s.outsize3 s.bits2 s.bits1).1 ≤ s.outsize3 := by
        have := bitsLoop_len_le (fun i => byteAt s.outsize3 s.bits i ||| byteAt s.outsize3 s.bits2 i)
          (max s.outsize3 s.outsize3) s.bits1
        simpa [rdfstoreBitsOr] using this
      have hsame : ones (rdfstoreBitsOr s.outsize3 s.bits s.outsize3 s.bits2 s.bits1).1
          (copyBytes s.outsize3 (rdfstoreBitsOr s.outsize3 s.bits s.outsize3 s.bits2 s.bits1).2 s.bits) = _ :=
        ones_congr fun k hk => if_pos (lt_of_lt_of_le hk hle)
      exact iff_of_eq (congrArg (i ∈ ·) hsame)

/-- If there was something to join, there is a length afterwards. -/
theorem joinBefore_pos {s s' : Search}
    (h : 0 < s.outsize1 ∨ (s.outsize3 ≠ 0 → (ones s.outsize3 s.bits2).Nonempty)) (hr : joinBefore s = .ok s') :
    0 < s'.outsize1 := by
  have hne : (0 < s.outsize1 ∨ (ones s.outsize3 s.bits2).Nonempty) := by
    refine h.imp id fun h => h ?_
    intro hz
    unfold joinBefore at hr
    rw [if_pos hz] at hr
    cases hr
  unfold joinBefore at hr
  split at hr
  · cases hr
  · split at hr
    · unfold andBefore at hr
      simp only at hr
      split at hr
      · cases hr
      · next hz =>
        cases hr
        exact Nat.pos_of_ne_zero hz
    · next hnone =>
      obtain ⟨i, hi⟩ := hne.resolve_left hnone
      cases hr
      refine Nat.pos_of_ne_zero fun hz => ?_
      have hempty := (rdfstoreBitsOr_len_eq_zero_iff _ _ _ _ _).1 hz
      exact Finset.notMem_empty i (hempty ▸ Finset.mem_union_right _ hi)

/-- The ids under the keys of some entries. -/
def IdIn (ext : Externals) {κ : Type} (es : List (κ × Bytes)) (i : Nat) : Prop :=
  ∃ e ∈ es, i ∈ onesOf (ext.funcDecode e.2)

section

variable {κ : Type} {walk : Join → Join} {es : List (κ × Bytes)} {s s' : Search}

theorem mem_walkComponent (h : ∀ j, walk j = joinAll ext es j) (s : Search) (i : Nat) :
    i ∈ ones (walkComponent walk s).outsize3 (walkComponent walk s).bits2 ↔ IdIn ext es i := by
  have hids := @mem_joinAll ext κ es ⟨0, s.bits2, s.bits1, s.me.bitsDecode⟩ i
  rw [← h] at hids
  refine hids.trans (or_iff_right ?_)
  show i ∉ ones 0 s.bits2
  simp

theorem walkComponent_nonempty (h : ∀ j, walk j = joinAll ext es j)
    (hproper : ∀ e ∈ es, ext.funcDecode e.2 = [] ∨ (onesOf (ext.funcDecode e.2)).Nonempty) (s : Search)
    (hne : (walkComponent walk s).outsize3 ≠ 0) :
    (ones (walkComponent walk s).outsize3 (walkComponent walk s).bits2).Nonempty := by
  have hall : ∀ (es : List (κ × Bytes)) (j : Join),
      (∀ e ∈ es, ext.funcDecode e.2 = [] ∨ (onesOf (ext.funcDecode e.2)).Nonempty) →
      (j.outsize ≠ 0 → j.ids.Nonempty) → (joinAll ext es j).outsize ≠ 0 → (joinAll ext es j).ids.Nonempty := by
    intro es
    induction es with
    | nil => exact fun j _ hj => hj
    | cons e es ih =>
      intro j hes hj
      refine ih _ (fun e' he' => hes e' (List.mem_cons_of_mem e he')) fun hz => joinEntry_or_nonempty hj ?_ hz
      rintro data hdata
      cases hdata
      exact hes e List.mem_cons_self
  have hwalk := h ⟨0, s.bits2, s.bits1, s.me.bitsDecode⟩
  have hlen : (walkComponent walk s).outsize3 = (walk ⟨0, s.bits2, s.bits1, s.me.bitsDecode⟩).outsize := rfl
  rw [hlen, hwalk] at hne
  have hsome := hall es _ hproper (fun h0 => absurd rfl h0) hne
  rw [← hwalk] at hsome
  exact hsome

/-- One walk, joined to the ids before. -/
theorem mem_walk_joinBefore (h : ∀ j, walk j = joinAll ext es j) (hs : s.Fresh) (i : Nat) :
    i ∈ leftIds ((joinBefore (walkComponent walk s)).mapError some) ↔
      (0 < s.outsize1 → i ∈ ones s.outsize1 s.bits) ∧ IdIn ext es i := by
  have hfresh : (walkComponent walk s).Fresh := hs
  rw [mem_leftIds_mapError, mem_joinBefore hfresh, mem_walkComponent h]
  exact Iff.rfl

/-- Two walks. -/
theorem mem_walk_walk {walk' : Join → Join} {es' : List (κ × Bytes)} (h : ∀ j, walk j = joinAll ext es j)
    (h' : ∀ j, walk' j = joinAll ext es' j)
    (hproper : ∀ e ∈ es, ext.funcDecode e.2 = [] ∨ (onesOf (ext.funcDecode e.2)).Nonempty) (hs : s.Fresh) (i : Nat) :
    i ∈ leftIds (do
        let s ← (joinBefore (walkComponent walk s)).mapError some
        (joinBefore (walkComponent walk' s)).mapError some : Except (Option Search) Search) ↔
      (0 < s.outsize1 → i ∈ ones s.outsize1 s.bits) ∧ IdIn ext es i ∧ IdIn ext es' i := by
  have hfresh : (walkComponent walk s).Fresh := hs
  have hfirst := mem_walk_joinBefore h hs i
  cases hr : joinBefore (walkComponent walk s) with
  | error s' =>
    rw [hr] at hfirst
    refine iff_of_false (Finset.notMem_empty i) fun hc => ?_
    exact Finset.notMem_empty i (hfirst.2 ⟨hc.1, hc.2.1⟩)
  | ok s' =>
    rw [hr] at hfirst
    have hpos : 0 < s'.outsize1 := joinBefore_pos (Or.inr (walkComponent_nonempty h hproper s)) hr
    have hsecond := mem_walk_joinBefore h' (show s'.Fresh from fun hz => absurd hz hpos.ne') i
    have hleft : i ∈ ones s'.outsize1 s'.bits ↔ (0 < s.outsize1 → i ∈ ones s.outsize1 s.bits) ∧ IdIn ext es i := hfirst
    refine hsecond.trans ?_
    rw [show (0 < s'.outsize1 → i ∈ ones s'.outsize1 s'.bits) ↔ i ∈ ones s'.outsize1 s'.bits from
      ⟨fun h => h hpos, fun h _ => h⟩, hleft, and_assoc]

end

end

/-! ## Ranges -/

/-- What the operators ask for, in the words of the pattern. -/
def InRange {κ : Type} [LinearOrder κ] (operator : Nat) (a c x : κ) : Prop :=
  match operator with
  | 1 => x < a
  | 2 => x ≤ a
  | 3 => x = a
  | 4 => x ≠ a
  | 5 => a ≤ x
  | 6 => a < x
  | 7 => a < x ∧ x < c
  | 8 => a ≤ x ∧ x < c
  | 9 => a ≤ x ∧ x ≤ c
  | 10 => a < x ∧ x ≤ c
  | _ => False

section

variable {ext : Externals} {κ : Type} [LinearOrder κ] {t : RangeTable κ} {a c : κ} {s : Search}

/-- The ids under the keys in range. -/
def RangeId (ext : Externals) (t : RangeTable κ) (operator : Nat) (a c : κ) (i : Nat) : Prop :=
  ∃ x data, t.fetch x = some data ∧ InRange operator a c x ∧ i ∈ onesOf (ext.funcDecode data)

/-- Every entry has an id, unless it decodes to nothing. -/
def NoZeroEntry (ext : Externals) (t : RangeTable κ) : Prop :=
  ∀ x data, t.fetch x = some data → ext.funcDecode data = [] ∨ (onesOf (ext.funcDecode data)).Nonempty

/-- No id is under two keys. -/
def OneKey (ext : Externals) (t : RangeTable κ) : Prop :=
  ∀ x y data data' i, t.fetch x = some data → t.fetch y = some data' → i ∈ onesOf (ext.funcDecode data) →
    i ∈ onesOf (ext.funcDecode data') → x = y

theorem idIn_filter_iff {p : κ → Prop} [DecidablePred p] {operator : Nat} (h : ∀ x, p x ↔ InRange operator a c x)
    (i : Nat) : IdIn ext (t.entries.filter fun e => p e.1) i ↔ RangeId ext t operator a c i := by
  unfold IdIn RangeId
  constructor
  · rintro ⟨e, he, hi⟩
    obtain ⟨hmem, hp⟩ := List.mem_filter.1 he
    exact ⟨e.1, e.2, Table.fetch_of_mem hmem, (h e.1).1 (by simpa using hp), hi⟩
  · rintro ⟨x, data, hfetch, hx, hi⟩
    exact ⟨(x, data), List.mem_filter.2 ⟨Table.fetch_eq_some_iff.1 hfetch, by simpa using (h x).2 hx⟩, hi⟩

theorem rangeAbove_filter (t : RangeTable κ) (a : κ) (skip : Bool) (j : Join) : rangeAbove ext t a skip j =
    joinAll ext (t.entries.filter fun e => a ≤ e.1 ∧ ¬ (e.1 = a ∧ skip = true)) j := by
  rw [rangeAbove_eq, Table.above, List.filter_filter]
  congr 2
  funext e
  simp [Bool.and_comm]

/-- Above one bound and below the other, under one key. -/
theorem idIn_and_idIn_iff (hone : OneKey ext t) {p q : κ → Prop} [DecidablePred p] [DecidablePred q] {operator : Nat}
    (h : ∀ x, p x ∧ q x ↔ InRange operator a c x) (i : Nat) :
    (IdIn ext (t.entries.filter fun e => p e.1) i ∧ IdIn ext (t.entries.filter fun e => q e.1) i) ↔
      RangeId ext t operator a c i := by
  unfold IdIn RangeId
  constructor
  · rintro ⟨⟨e, he, hi⟩, e', he', hi'⟩
    obtain ⟨hmem, hp⟩ := List.mem_filter.1 he
    obtain ⟨hmem', hq⟩ := List.mem_filter.1 he'
    have hkey := hone e.1 e'.1 e.2 e'.2 i (Table.fetch_of_mem hmem) (Table.fetch_of_mem hmem') hi hi'
    refine ⟨e.1, e.2, Table.fetch_of_mem hmem, (h e.1).1 ⟨by simpa using hp, ?_⟩, hi⟩
    rw [hkey]
    simpa using hq
  · rintro ⟨x, data, hfetch, hx, hi⟩
    obtain ⟨hp, hq⟩ := (h x).2 hx
    have hmem := Table.fetch_eq_some_iff.1 hfetch
    exact ⟨⟨(x, data), List.mem_filter.2 ⟨hmem, by simpa using hp⟩, hi⟩,
      (x, data), List.mem_filter.2 ⟨hmem, by simpa using hq⟩, hi⟩

/-- The range component leaves, of the ids before, those under the keys in range. -/
theorem mem_searchRanges (hs : s.Fresh) {operator : Nat} (hlow : 1 ≤ operator) (hhigh : operator ≤ 10) {rest : List κ}
    (hc : 6 < operator → rest.head? = some c) (htwo : 6 < operator → NoZeroEntry ext t ∧ OneKey ext t) (i : Nat) :
    i ∈ leftIds (searchRanges ext t operator (a :: rest) s) ↔
      (0 < s.outsize1 → i ∈ ones s.outsize1 s.bits) ∧ RangeId ext t operator a c i := by
  by_cases hsix : 6 < operator
  · obtain ⟨hzero, hone⟩ := htwo hsix
    obtain ⟨rest, rfl⟩ : ∃ rest', rest = c :: rest' := by
      cases rest with
      | nil => cases hc hsix
      | cons c' rest => cases hc hsix; exact ⟨rest, rfl⟩
    have hproper : ∀ skip, ∀ e ∈ t.entries.filter (fun e => a ≤ e.1 ∧ ¬ (e.1 = a ∧ skip = true)),
        ext.funcDecode e.2 = [] ∨ (onesOf (ext.funcDecode e.2)).Nonempty := fun skip e he =>
      hzero e.1 e.2 (Table.fetch_of_mem (List.mem_filter.1 he).1)
    unfold searchRanges
    simp only [if_pos (show 6 < operator ∧ operator < 11 by omega)]
    refine (mem_walk_walk (rangeAbove_filter t a _) (rangeBelow_eq t c _) (hproper _) hs i).trans ?_
    refine and_congr_right fun _ => idIn_and_idIn_iff
      (p := fun x => a ≤ x ∧ ¬ (x = a ∧ decide (operator = 7 ∨ operator = 10) = true))
      (q := fun x => x < c ∨ (x = c ∧ decide (operator = 9 ∨ operator = 10) = true)) hone (fun x => ?_) i
    have hlt : a < x ↔ a ≤ x ∧ ¬ x = a := by rw [lt_iff_le_and_ne, ne_comm]
    have hle : x ≤ c ↔ x < c ∨ x = c := le_iff_lt_or_eq
    have hcases : operator = 7 ∨ operator = 8 ∨ operator = 9 ∨ operator = 10 := by omega
    rcases hcases with rfl | rfl | rfl | rfl
    · simp [InRange, hlt]
    · simp [InRange]
    · simp [InRange, hle]
    · simp [InRange, hlt, hle]
  · have hrun : ∀ {walk : Join → Join} {p : κ → Prop} [DecidablePred p],
        (∀ j, walk j = joinAll ext (t.entries.filter fun e => p e.1) j) → (∀ x, p x ↔ InRange operator a c x) →
        (i ∈ leftIds ((joinBefore (walkComponent walk s)).mapError some) ↔
          (0 < s.outsize1 → i ∈ ones s.outsize1 s.bits) ∧ RangeId ext t operator a c i) := by
      intro walk p _ hwalk hp
      rw [mem_walk_joinBefore hwalk hs, idIn_filter_iff hp]
    have hlt : ∀ x, a < x ↔ a ≤ x ∧ ¬ x = a := fun x => by rw [lt_iff_le_and_ne, ne_comm]
    have hcases : operator = 1 ∨ operator = 2 ∨ operator = 3 ∨ operator = 4 ∨ operator = 5 ∨ operator = 6 := by omega
    rcases hcases with rfl | rfl | rfl | rfl | rfl | rfl
    · exact hrun (p := fun x => x < a ∨ (x = a ∧ decide (1 = 2) = true)) (rangeBelow_eq t a _) fun x => by
        simp [InRange]
    · exact hrun (p := fun x => x < a ∨ (x = a ∧ decide (2 = 2) = true)) (rangeBelow_eq t a _) fun x => by
        simp [InRange, le_iff_lt_or_eq]
    · -- a simple fetch
      show i ∈ leftIds (match t.fetch a with
        | none => .error none
        | some data => (joinBefore (walkComponent (joinEntry ext 0 · (some data)) s)).mapError some) ↔ _
      cases hfetch : t.fetch a with
      | none =>
        refine iff_of_false (Finset.notMem_empty i) ?_
        rintro ⟨-, x, data, hx, hin, -⟩
        have hx' : x = a := hin
        subst hx'
        rw [hfetch] at hx
        cases hx
      | some data =>
        have hwalk : ∀ j, joinEntry ext 0 j (some data) = joinAll ext [(a, data)] j := fun j => rfl
        refine (mem_walk_joinBefore hwalk hs i).trans (and_congr_right fun _ => ?_)
        constructor
        · rintro ⟨e, he, hi⟩
          cases List.mem_singleton.1 he
          exact ⟨a, data, hfetch, rfl, hi⟩
        · rintro ⟨x, data', hx, hin, hi⟩
          have hx' : x = a := hin
          subst hx'
          rw [hfetch] at hx
          cases hx
          exact ⟨_, List.mem_singleton_self _, hi⟩
    · exact hrun (p := fun x => ¬ (x = a ∧ true = true)) (rangeNot_eq t a) fun x => by simp [InRange]
    · exact hrun (p := fun x => a ≤ x ∧ ¬ (x = a ∧ decide (5 = 6) = true)) (rangeAbove_filter t a _) fun x => by
        simp [InRange]
    · exact hrun (p := fun x => a ≤ x ∧ ¬ (x = a ∧ decide (6 = 6) = true)) (rangeAbove_filter t a _) fun x => by
        simp [InRange, hlt]

theorem joinBefore_tp {s s' : Search} (h : joinBefore s = .ok s') : s'.tp = s.tp := by
  unfold joinBefore at h
  split at h
  · cases h
  · split at h
    · unfold andBefore at h
      simp only at h
      split at h
      · cases h
      · cases h
        rfl
    · cases h
      rfl

theorem walk_tp {walk : Join → Join} {s s' : Search}
    (h : (joinBefore (walkComponent walk s)).mapError some = .ok s') : s'.tp = s.tp := by
  cases hr : joinBefore (walkComponent walk s) with
  | error e => rw [hr] at h; cases h
  | ok s₁ =>
    rw [hr] at h
    cases h
    have htp := joinBefore_tp hr
    exact htp

theorem searchRanges_tp {operator : Nat} {bounds : List κ} {s s' : Search}
    (h : searchRanges ext t operator bounds s = .ok s') : s'.tp = s.tp := by
  unfold searchRanges at h
  split at h
  · cases h
    rfl
  · split at h
    · split at h
      · cases h
      · next c _ =>
        cases hr : (joinBefore (walkComponent (rangeAbove ext t _ (operator = 7 ∨ operator = 10)) s)).mapError some with
        | error e => rw [hr] at h; cases h
        | ok s₁ =>
          rw [hr] at h
          exact (walk_tp h).trans (walk_tp hr)
    · split at h
      · exact walk_tp h
      · split at h
        · split at h
          · cases h
          · exact walk_tp h
        · split at h
          · exact walk_tp h
          · split at h
            · exact walk_tp h
            · cases h

/-- With nothing else in the pattern the ids are what the ranges leave. -/
theorem ids_rdfstoreSearchRanges {operator : Nat} (hhigh : operator ≤ 10) {a : κ} {rest : List κ} {me : Store}
    {tp : TriplePattern} (htp : tp.isEmpty = true) : (rdfstoreSearchRanges ext t me tp operator (a :: rest)).ids =
      leftIds (searchRanges ext t operator (a :: rest) (Search.start me tp)) := by
  simp only [TriplePattern.isEmpty, Bool.and_eq_true] at htp
  obtain ⟨⟨⟨⟨⟨⟨hsubjects, hpredicates⟩, hobjects⟩, hcontexts⟩, hlangs⟩, hdts⟩, hwords⟩ := htp
  have hcheck : tp.check = true := by
    simp [TriplePattern.check, PartList.check, hsubjects, hpredicates, hobjects, hcontexts, hlangs, hdts, hwords]
  have hbefore : searchBeforeRanges ext (Search.start me tp) = .ok (Search.start me tp) := by
    simp [searchBeforeRanges, RdfStore.searchWords, RdfStore.searchSubjects, RdfStore.searchPredicates,
      RdfStore.searchObjects, RdfStore.searchLangs, RdfStore.searchDts, Search.start, hsubjects, hpredicates, hobjects,
      hlangs, hdts, hwords, bind, Except.bind]
  have hrun : rdfstoreSearchRanges ext t me tp operator (a :: rest) =
      match (do
        let s ← (searchBeforeRanges ext (Search.start me tp)).mapError some
        let s ← searchRanges ext t operator (a :: rest) s
        (searchContexts ext s).mapError some : Except (Option Search) Search) with
      | .error none => .null
      | .error (some s) => .found Iterator.empty s.me s.tp
      | .ok s => .found ⟨copyBytes s.outsize1 s.bits fun _ => 0, s.outsize1, countBits s.outsize1 s.bits⟩ s.me s.tp := by
    unfold rdfstoreSearchRanges
    rw [if_neg (by simp [hcheck, hhigh]), if_neg (by simp [hwords]), if_neg (by simp)]
    rfl
  rw [hrun, hbefore]
  show SearchResult.ids (match ((searchRanges ext t operator (a :: rest) (Search.start me tp)).bind _ :
    Except (Option Search) Search) with
      | .error none => .null
      | .error (some s) => _
      | .ok s => _) = _
  cases hr : searchRanges ext t operator (a :: rest) (Search.start me tp) with
  | error e =>
    cases e with
    | none => rfl
    | some s => exact ones_zero _
  | ok s =>
    have hs : s.tp = tp := searchRanges_tp hr
    have hlast : searchContexts ext s = .ok s := by
      unfold RdfStore.searchContexts
      rw [hs, if_pos hcontexts]
    show SearchResult.ids (match (searchContexts ext s).mapError some with
      | .error none => .null
      | .error (some s) => _
      | .ok s => _) = _
    rw [hlast]
    exact ones_copyBytes _ _ _

end

/-- The range component of a search over integers contributes the ids under the keys in range, to what
was joined before it and alone; for two bounds, on tables with no id under two keys and no entry of zeroes. -/
theorem rangeSearch_exact {ext : Externals} {t : RangeTable Int} {operator : Nat} (hlow : 1 ≤ operator)
    (hhigh : operator ≤ 10) {a c : Int} {rest : List Int} (hc : 6 < operator → rest.head? = some c)
    (htwo : 6 < operator → NoZeroEntry ext t ∧ OneKey ext t) :
    (∀ s : Search, s.Fresh → ∀ i, i ∈ leftIds (searchRanges ext t operator (a :: rest) s) ↔
      (0 < s.outsize1 → i ∈ ones s.outsize1 s.bits) ∧ RangeId ext t operator a c i) ∧
    ∀ (me : Store) (tp : TriplePattern), tp.isEmpty = true →
      ∀ i, i ∈ (rdfstoreSearchRanges ext t me tp operator (a :: rest)).ids ↔ RangeId ext t operator a c i := by
  refine ⟨fun s hs i => mem_searchRanges hs hlow hhigh hc htwo i, fun me tp htp i => ?_⟩
  rw [ids_rdfstoreSearchRanges hhigh htp, mem_searchRanges (fun _ => rfl) hlow hhigh hc htwo]
  exact and_iff_right fun h => absurd h (Nat.lt_irrefl 0)

/-! ## An id under two keys -/

/-- The pattern without a component. -/
def noPattern : TriplePattern where
  subjects := ⟨[], 0⟩
  predicates := ⟨[], 0⟩
  objects := ⟨[], 0⟩
  contexts := ⟨[], 0⟩
  langs := ⟨[], 0⟩
  dts := ⟨[], 0⟩
  words := ⟨[], 0⟩

/-- One entry under 1 and one under 10. -/
def twoKeyTable (data data' : Bytes) : RangeTable Int :=
  ⟨[(1, data), (10, data')], List.pairwise_pair.2 (Int.NonNeg.mk 8)⟩

/-- The id 0 under 1 and under 10 is found between 3 and 7, and under 1 alone it is found between 3 and 20
if the entry under 10 is a zero byte. -/
theorem rangeSearch_two_keys :
    ((rdfstoreSearchRanges asciiExternals (twoKeyTable [1] [1]) (rdfstoreConnect false false []) noPattern 7
        [3, 7]).ids = {0} ∧
      (twoKeyTable [1] [1]).entries.all (fun e => !decide (3 < e.1 ∧ e.1 < 7)) = true) ∧
    (rdfstoreSearchRanges asciiExternals (twoKeyTable [1] [0]) (rdfstoreConnect false false []) noPattern 7
        [3, 20]).ids = {0} ∧
      (twoKeyTable [1] [0]).entries.all (fun e => !decide (3 < e.1 ∧ e.1 < 20) || onesOf e.2 = ∅) = true := by
  decide

theorem fetch_twoKeyTable {data data' v : Bytes} {x : Int} (h : (twoKeyTable data data').fetch x = some v) :
    (x = 1 ∧ v = data) ∨ (x = 10 ∧ v = data') := by
  have hmem : (x, v) ∈ [((1 : Int), data), (10, data')] := Table.fetch_eq_some_iff.1 h
  rcases List.mem_cons.1 hmem with heq | hmem
  · cases heq
    exact Or.inl ⟨rfl, rfl⟩
  · cases List.mem_singleton.1 hmem
    exact Or.inr ⟨rfl, rfl⟩

/-- Different ids under the two keys. -/
theorem rangeSearch_exact_two_ids :
    {i | i ∈ (rdfstoreSearchRanges asciiExternals (twoKeyTable [1] [2]) (rdfstoreConnect false false [])
      noPattern 7 [0, 7]).ids} = {i | RangeId asciiExternals (twoKeyTable [1] [2]) 7 0 7 i} := by
  have hlow : onesOf (asciiExternals.funcDecode [1]) = {0} := by decide
  have hhigh : onesOf (asciiExternals.funcDecode [2]) = {1} := by decide
  refine Set.ext ((@rangeSearch_exact asciiExternals (twoKeyTable [1] [2]) 7 (by decide) (by decide)
    0 7 [7] (fun _ => rfl) fun _ => ⟨?_, ?_⟩).2 (rdfstoreConnect false false []) noPattern rfl)
  · intro x data hx
    rcases fetch_twoKeyTable hx with ⟨-, rfl⟩ | ⟨-, rfl⟩
    · exact Or.inr (hlow ▸ Finset.singleton_nonempty 0)
    · exact Or.inr (hhigh ▸ Finset.singleton_nonempty 1)
  · intro x y data data' i hx hy hi hi'
    rcases fetch_twoKeyTable hx with ⟨rfl, rfl⟩ | ⟨rfl, rfl⟩ <;>
      rcases fetch_twoKeyTable hy with ⟨rfl, rfl⟩ | ⟨rfl, rfl⟩
    · rfl
    · rw [hlow, Finset.mem_singleton] at hi
      rw [hhigh, Finset.mem_singleton, hi] at hi'
      cases hi'
    · rw [hhigh, Finset.mem_singleton] at hi
      rw [hlow, Finset.mem_singleton, hi] at hi'
      cases hi'
    · rfl

end RdfStore
