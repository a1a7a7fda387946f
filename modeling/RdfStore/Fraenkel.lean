import RdfStore.Lib.ByteMem
import Mathlib.Data.List.GetD
import Mathlib.Logic.Function.Iterate
import Mathlib.Tactic.Ring

/-!
# The codec by trees of masks (`fraenkel_compress.c`)

`compress_fraenkel` goes over the bytes pass by pass.  A pass keeps the non-zero
bytes and makes a mask for each group of eight; the masks are the bytes of the next
pass, until one mask is left.  `expand_fraenkel` reads the result from its end and
builds the passes up again from the last one, each eight times as long as the one
before, in an array of 1024*256 bytes.  More than 8^5 bytes take six passes, for which
the array is too small.

    the bytes are read back, up to zeros   ↔  at most 32768 of them, or all of them are zero   (fraenkelRoundTrip_iff)
    everything ends and stays inside       ↔  the same, and there is a byte                    (fraenkelBounded_iff)
-/

namespace RdfStore

open ByteMem

/-! ## `compress_fraenkel` -/

/-- A pass over the bytes from index `i` on, with the mask `r` so far: the bytes that are kept, and the
masks.  They are written over bytes that have been read. -/
def fraenkelPass : Nat → UInt8 → Bytes → Bytes × Bytes
  | i, r, [] => ([], if i % 8 ≠ 0 then [r] else [])
  | i, r, b :: rest =>
    let r := if b ≠ 0 then r ||| (1 : UInt8) <<< (i &&& 7).toUInt8 else r
    let p :=
      if i % 8 = 7 then
        let p := fraenkelPass (i + 1) 0 rest
        (p.1, r :: p.2)
      else fraenkelPass (i + 1) r rest
    (if b ≠ 0 then b :: p.1 else p.1, p.2)

/-- `do { … } while (len != 1);`, with what is in `dst`; without a result when it takes more passes. -/
def compressFraenkelLoop : Nat → Bytes → Bytes → Option Bytes
  | 0, _, _ => none
  | fuel + 1, msrc, dst =>
    let p := fraenkelPass 0 0 msrc
    if p.2.length ≠ 1 then compressFraenkelLoop fuel p.2 (dst ++ p.1)
    else some (dst ++ p.1 ++ p.2)

/-- `1024*256` -/
def fraenkelSize : Nat := 1024 * 256

/-- `compress_fraenkel`, in a number of passes. -/
def compressFraenkel (passes : Nat) (src : Bytes) : Option Bytes :=
  if src.length < fraenkelSize then compressFraenkelLoop passes src [] else none

/-! ## `expand_fraenkel` -/

inductive ExpandFault
  /-- an element of `dst` at an index from 1024*256 on is written -/
  | pastArray
  /-- `src` is read in front of its start -/
  | beforeSource
  /-- there are more passes -/
  | unfinished
  deriving DecidableEq

/-- `src[ --s ]` -/
def sourceByte : Bytes → Except ExpandFault (UInt8 × Bytes)
  | [] => .error .beforeSource
  | b :: src => .ok (b, src)

/-- The bytes of a mask, from bit 7 down; `src` is what is left of the source, from its end. -/
def expandMask (m : UInt8) : List Nat → Bytes → Except ExpandFault (Bytes × Bytes)
  | [], src => .ok ([], src)
  | bit :: bits, src =>
    match if m &&& (1 : UInt8) <<< bit.toUInt8 ≠ 0 then sourceByte src else .ok (0, src) with
    | .error fault => .error fault
    | .ok (b, src) => (expandMask m bits src).map fun p => (b :: p.1, p.2)

/-- The bytes of the masks of a run. -/
def expandRun : Bytes → Bytes → Except ExpandFault (Bytes × Bytes)
  | [], src => .ok ([], src)
  | m :: run, src =>
    match expandMask m [7, 6, 5, 4, 3, 2, 1, 0] src with
    | .error fault => .error fault
    | .ok p => (expandRun run p.2).map fun q => (p.1 ++ q.1, q.2)

/-- `do { … } while (s > 0);` behind `i` elements of the array, of which `run` are the last: the last run.
A pass adds eight elements for each of `run`. -/
def expandFraenkelLoop : Nat → Nat → Bytes → Bytes → Except ExpandFault Bytes
  | 0, _, _, _ => .error .unfinished
  | fuel + 1, i, run, src =>
    if fraenkelSize < i + 8 * run.length then .error .pastArray
    else
      match expandRun run src with
      | .error fault => .error fault
      | .ok (run', src') =>
        if 0 < src'.length then expandFraenkelLoop fuel (i + 8 * run.length) run' src' else .ok run'

/-- `expand_fraenkel`: the last run, turned round. -/
def expandFraenkel (src : Bytes) : Except ExpandFault Bytes :=
  match src.reverse with
  | [] => .error .beforeSource
  | m :: src => (expandFraenkelLoop fraenkelSize 1 [m] src).map List.reverse

/-! ## Bytes that go on as zeros -/

/-- The first `n` bytes, zeros behind the end. -/
def padTo (n : Nat) (l : Bytes) : Bytes := (List.range n).map fun i => l.getD i 0

theorem padTo_succ (n : Nat) (l : Bytes) : padTo (n + 1) l = padTo n l ++ [l.getD n 0] := by
  rw [padTo, List.range_succ, List.map_append]
  rfl

@[simp] theorem length_padTo (n : Nat) (l : Bytes) : (padTo n l).length = n := by
  rw [padTo, List.length_map, List.length_range]

theorem padTo_eq {n : Nat} {l : Bytes} (h : l.length ≤ n) :
    padTo n l = l ++ List.replicate (n - l.length) 0 := by
  refine List.ext_getElem (by simp; omega) fun i hi hi' => ?_
  simp only [padTo, List.getElem_map, List.getElem_range, List.getElem_append, List.getElem_replicate]
  split
  · next hlt => rw [List.getD_eq_getElem _ _ hlt]
  · next hge => rw [List.getD_eq_default _ _ (not_lt.1 hge)]

theorem getD_padTo {n : Nat} {l : Bytes} (h : l.length ≤ n) (i : Nat) : (padTo n l).getD i 0 = l.getD i 0 := by
  rw [padTo_eq h]
  rcases Nat.lt_or_ge i l.length with hlt | hge
  · rw [List.getD_append _ _ _ _ hlt]
  · rw [List.getD_append_right _ _ _ _ hge, List.getD_eq_default l _ hge]
    simp [List.getD_eq_getElem?_getD, List.getElem?_replicate]
    split <;> rfl

theorem padTo_eight (n : Nat) (l : Bytes) :
    padTo (8 * (n + 1)) l = padTo (8 * n) l ++ [0, 1, 2, 3, 4, 5, 6, 7].map fun b => l.getD (8 * n + b) 0 := by
  rw [show 8 * (n + 1) = 8 * n + 7 + 1 from rfl]
  simp only [padTo_succ, List.map_cons, List.map_nil, List.append_assoc, List.cons_append, List.nil_append,
    Nat.add_zero]

/-- The bytes that are not zero. -/
def nonzero (l : Bytes) : Bytes := l.filter fun a => a ≠ 0

theorem nonzero_append (l r : Bytes) : nonzero (l ++ r) = nonzero l ++ nonzero r := List.filter_append _ _

theorem nonzero_reverse (l : Bytes) : nonzero l.reverse = (nonzero l).reverse := List.filter_reverse

theorem nonzero_padTo {n : Nat} {l : Bytes} (h : l.length ≤ n) : nonzero (padTo n l) = nonzero l := by
  rw [padTo_eq h, nonzero_append]
  simp [nonzero]

theorem nonzero_eq_nil_iff {l : Bytes} : nonzero l = [] ↔ ∀ a ∈ l, a = 0 := by
  simp [nonzero]

/-! ## What a pass makes -/

theorem byteBit_one_shift : ∀ b < 8, ∀ j < 8, byteBit ((1 : UInt8) <<< b.toUInt8) j = decide (j = b) := by
  decide

/-- A mask has a bit. -/
theorem mask_ne_zero_iff (m : UInt8) {b : Nat} (hb : b < 8) :
    m &&& (1 : UInt8) <<< b.toUInt8 ≠ 0 ↔ byteBit m b = true := by
  rw [Ne, byte_eq_zero_iff]
  constructor
  · intro h
    by_contra hno
    refine h fun j hj => ?_
    rw [byteBit_and, byteBit_one_shift b hb j hj]
    rcases eq_or_ne j b with rfl | hne
    · rw [Bool.eq_false_of_not_eq_true hno, Bool.false_and]
    · rw [decide_eq_false hne, Bool.and_false]
  · intro h hno
    have hbit := hno b hb
    rw [byteBit_and, byteBit_one_shift b hb b hb, h, decide_eq_true rfl] at hbit
    cases hbit

theorem fraenkelPass_kept (i : Nat) (r : UInt8) (l : Bytes) : (fraenkelPass i r l).1 = nonzero l := by
  induction l generalizing i r with
  | nil => rfl
  | cons b l ih =>
    have hrest : (fraenkelPass i r (b :: l)).1 = if b ≠ 0 then b :: nonzero l else nonzero l := by
      rw [fraenkelPass]
      split <;> split <;> simp only [ih]
    rw [hrest]
    by_cases hb : b = 0 <;> simp [nonzero, hb]

theorem fraenkelPass_masks_cons (i : Nat) (r b : UInt8) (l : Bytes) :
    (fraenkelPass i r (b :: l)).2 =
      if i % 8 = 7 then (if b ≠ 0 then r ||| (1 : UInt8) <<< (i % 8).toUInt8 else r) :: (fraenkelPass (i + 1) 0 l).2
      else (fraenkelPass (i + 1) (if b ≠ 0 then r ||| (1 : UInt8) <<< (i % 8).toUInt8 else r) l).2 := by
  have hand : i &&& 7 = i % 8 := Nat.and_two_pow_sub_one_eq_mod i 3
  rw [fraenkelPass, hand]
  by_cases h : i % 8 = 7
  · simp only [if_pos h]
  · simp only [if_neg h]

theorem length_fraenkelPass (i : Nat) (r : UInt8) (l : Bytes) :
    (fraenkelPass i r l).2.length = (i % 8 + l.length + 7) / 8 := by
  induction l generalizing i r with
  | nil =>
    rw [fraenkelPass]
    by_cases h : i % 8 ≠ 0
    · rw [if_pos h]
      simp only [List.length_cons, List.length_nil]
      omega
    · rw [if_neg h]
      simp only [List.length_nil]
      omega
  | cons b l ih =>
    rw [fraenkelPass_masks_cons]
    split
    · rw [List.length_cons, ih, List.length_cons]
      omega
    · rw [ih, List.length_cons]
      omega

/-- The bits of a mask in hand: the byte that is read sets one. -/
theorem byteBit_set (r b : UInt8) {k : Nat} (hk : k < 8) {j : Nat} (hj : j < 8) :
    byteBit (if b ≠ 0 then r ||| (1 : UInt8) <<< k.toUInt8 else r) j = true ↔ byteBit r j = true ∨ j = k ∧ b ≠ 0 := by
  by_cases hb : b ≠ 0
  · rw [if_pos hb, byteBit_or, byteBit_one_shift k hk j hj, Bool.or_eq_true, decide_eq_true_eq]
    simp [hb]
  · rw [if_neg hb]
    simp [hb]

/-- A mask behind index `i` has the bits of `r`, if it is the first, and those of the bytes of its group. -/
theorem byteBit_fraenkelPass (l : Bytes) (i : Nat) (r : UInt8) (hr : ∀ b < 8, byteBit r b = true → b < i % 8)
    (g : Nat) {b : Nat} (hb : b < 8) :
    byteBit ((fraenkelPass i r l).2.getD g 0) b = true ↔
      g = 0 ∧ byteBit r b = true ∨ ∃ j, i + j = 8 * (i / 8 + g) + b ∧ l.getD j 0 ≠ 0 := by
  induction l generalizing i r g with
  | nil =>
    have hnone : ¬ ∃ j, i + j = 8 * (i / 8 + g) + b ∧ ([] : Bytes).getD j 0 ≠ 0 := by
      rintro ⟨j, -, hj⟩
      exact hj rfl
    rw [fraenkelPass]
    by_cases h : i % 8 ≠ 0
    · rw [if_pos h]
      cases g with
      | zero => simp
      | succ g => simp
    · have hzero : byteBit r b = false := by
        refine Bool.eq_false_of_not_eq_true fun hbit => ?_
        have := hr b hb hbit
        omega
      rw [if_neg h]
      simp [hzero]
  | cons a l ih =>
    have hk : i % 8 < 8 := Nat.mod_lt _ (by decide)
    have hshift : ∀ i' g', (∃ j, i + j = 8 * (i' + g') + b ∧ (a :: l).getD j 0 ≠ 0) ↔
        (i = 8 * (i' + g') + b ∧ a ≠ 0) ∨ ∃ j, i + 1 + j = 8 * (i' + g') + b ∧ l.getD j 0 ≠ 0 := by
      intro i' g'
      constructor
      · rintro ⟨j, hj, hne⟩
        cases j with
        | zero => exact Or.inl ⟨hj, hne⟩
        | succ j => exact Or.inr ⟨j, by omega, hne⟩
      · rintro (⟨hj, hne⟩ | ⟨j, hj, hne⟩)
        · exact ⟨0, hj, hne⟩
        · exact ⟨j + 1, by omega, hne⟩
    rw [fraenkelPass_masks_cons, hshift]
    split
    · next hlast =>
      -- the group is full
      cases g with
      | zero =>
        rw [List.getD_cons_zero, byteBit_set r a hk hb]
        have hfar : ¬ ∃ j, i + 1 + j = 8 * (i / 8 + 0) + b ∧ l.getD j 0 ≠ 0 := by
          rintro ⟨j, hj, -⟩
          omega
        have hhere : i = 8 * (i / 8 + 0) + b ↔ b = i % 8 := by omega
        simp only [true_and, hhere, hfar, or_false]
      | succ g =>
        have hnext : (i + 1) / 8 + g = i / 8 + (g + 1) := by omega
        have hne : ¬ i = 8 * (i / 8 + (g + 1)) + b := by omega
        rw [List.getD_cons_succ, ih (i + 1) 0 (fun b _ h => by simp at h), hnext]
        simp [hne]
    · next hmore =>
      have hsame : (i + 1) / 8 = i / 8 := by omega
      have hr' : ∀ j < 8, byteBit (if a ≠ 0 then r ||| (1 : UInt8) <<< (i % 8).toUInt8 else r) j = true →
          j < (i + 1) % 8 := by
        intro j hj hbit
        rcases (byteBit_set r a hk hj).1 hbit with hbit | ⟨rfl, -⟩
        · have := hr j hj hbit
          omega
        · omega
      rw [ih (i + 1) _ hr', byteBit_set r a hk hb, hsame]
      have hhere : i = 8 * (i / 8 + g) + b ↔ g = 0 ∧ b = i % 8 := by omega
      rw [hhere]
      constructor
      · rintro (⟨hg, hbit | hset⟩ | hex)
        · exact Or.inl ⟨hg, hbit⟩
        · exact Or.inr (Or.inl ⟨⟨hg, hset.1⟩, hset.2⟩)
        · exact Or.inr (Or.inr hex)
      · rintro (⟨hg, hbit⟩ | ⟨⟨hg, hset⟩, hne⟩ | hex)
        · exact Or.inl ⟨hg, Or.inl hbit⟩
        · exact Or.inl ⟨hg, Or.inr ⟨hset, hne⟩⟩
        · exact Or.inr hex

/-- The masks of a pass. -/
def fraenkelMasks (l : Bytes) : Bytes := (fraenkelPass 0 0 l).2

theorem length_fraenkelMasks (l : Bytes) : (fraenkelMasks l).length = (l.length + 7) / 8 := by
  rw [fraenkelMasks, length_fraenkelPass, Nat.zero_mod, Nat.zero_add]

theorem fraenkelMasks_bit (l : Bytes) (g : Nat) {b : Nat} (hb : b < 8) :
    (fraenkelMasks l).getD g 0 &&& (1 : UInt8) <<< b.toUInt8 ≠ 0 ↔ l.getD (8 * g + b) 0 ≠ 0 := by
  rw [mask_ne_zero_iff _ hb, fraenkelMasks, byteBit_fraenkelPass l 0 0 (fun b _ h => by simp at h) g hb]
  simp

/-! ## What the masks of a run make -/

theorem expandMask_eq {m : UInt8} {f : Nat → UInt8} {bits : List Nat}
    (hm : ∀ b ∈ bits, m &&& (1 : UInt8) <<< b.toUInt8 ≠ 0 ↔ f b ≠ 0) (src : Bytes) :
    expandMask m bits (nonzero (bits.map f) ++ src) = .ok (bits.map f, src) := by
  induction bits with
  | nil => rfl
  | cons b bits ih =>
    obtain ⟨hb, hbits⟩ := List.forall_mem_cons.1 hm
    rw [List.map_cons, expandMask]
    by_cases hf : f b = 0
    · have hkeep : nonzero (f b :: bits.map f) = nonzero (bits.map f) := by simp [nonzero, hf]
      rw [if_neg fun h => hb.1 h hf, hkeep]
      simp only [ih hbits, hf]
      rfl
    · have hkeep : nonzero (f b :: bits.map f) = f b :: nonzero (bits.map f) := by simp [nonzero, hf]
      rw [if_pos (hb.2 hf), hkeep, List.cons_append, sourceByte]
      simp only [ih hbits]
      rfl

/-- From the masks of a list, from the last one on, and its bytes that are not zero. -/
theorem expandRun_padTo {masks l : Bytes}
    (hmask : ∀ g, ∀ b < 8, masks.getD g 0 &&& (1 : UInt8) <<< b.toUInt8 ≠ 0 ↔ l.getD (8 * g + b) 0 ≠ 0) (n : Nat)
    (src : Bytes) :
    expandRun (padTo n masks).reverse ((nonzero (padTo (8 * n) l)).reverse ++ src) =
      .ok ((padTo (8 * n) l).reverse, src) := by
  induction n with
  | zero => rfl
  | succ n ih =>
    have hgroup : ([0, 1, 2, 3, 4, 5, 6, 7].map fun b => l.getD (8 * n + b) 0).reverse =
        [7, 6, 5, 4, 3, 2, 1, 0].map fun b => l.getD (8 * n + b) 0 := rfl
    have hbits : ∀ b ∈ [7, 6, 5, 4, 3, 2, 1, 0],
        masks.getD n 0 &&& (1 : UInt8) <<< b.toUInt8 ≠ 0 ↔ l.getD (8 * n + b) 0 ≠ 0 := by
      intro b hb
      refine hmask n b ?_
      simp only [List.mem_cons, List.not_mem_nil, or_false] at hb
      omega
    rw [padTo_succ, padTo_eight, List.reverse_append, List.reverse_append, nonzero_append, List.reverse_append,
      ← nonzero_reverse, hgroup, List.append_assoc, List.reverse_singleton, List.singleton_append, expandRun,
      expandMask_eq hbits]
    simp only [ih]
    rfl

/-- A pass back. -/
theorem expandRun_fraenkelMasks {l : Bytes} {n : Nat} (h : l.length ≤ 8 * n) (src : Bytes) :
    expandRun (padTo n (fraenkelMasks l)).reverse ((nonzero l).reverse ++ src) =
      .ok ((padTo (8 * n) l).reverse, src) := by
  rw [← nonzero_padTo h]
  exact expandRun_padTo (fun g b hb => fraenkelMasks_bit l g hb) n src

/-! ## All passes -/

/-- What `k` passes keep, in order. -/
def keptAfter : Nat → Bytes → Bytes
  | 0, _ => []
  | k + 1, l => nonzero l ++ keptAfter k (fraenkelMasks l)

/-- The masks after `k` passes. -/
def masksAfter : Nat → Bytes → Bytes
  | 0, l => l
  | k + 1, l => masksAfter k (fraenkelMasks l)

theorem masksAfter_succ (k : Nat) (l : Bytes) : masksAfter (k + 1) l = fraenkelMasks (masksAfter k l) := by
  induction k generalizing l with
  | zero => rfl
  | succ k ih => exact ih (fraenkelMasks l)

theorem keptAfter_succ (k : Nat) (l : Bytes) : keptAfter (k + 1) l = keptAfter k l ++ nonzero (masksAfter k l) := by
  induction k generalizing l with
  | zero => exact List.append_nil _
  | succ k ih =>
    rw [keptAfter, ih, keptAfter, masksAfter, List.append_assoc]

theorem length_masksAfter (k : Nat) (l : Bytes) : (masksAfter k l).length = (l.length + (8 ^ k - 1)) / 8 ^ k := by
  induction k with
  | zero => simp [masksAfter]
  | succ k ih =>
    have hpos : 0 < 8 ^ k := Nat.pow_pos (by decide)
    rw [masksAfter_succ, length_fraenkelMasks, ih, ← Nat.add_mul_div_right _ _ hpos, Nat.div_div_eq_div_mul,
      Nat.pow_succ]
    congr 1
    omega

/-- The masks shrink to one in the number of passes that the length asks for. -/
theorem length_masksAfter_eq_one {k : Nat} {l : Bytes} :
    (masksAfter k l).length = 1 ↔ 0 < l.length ∧ l.length ≤ 8 ^ k := by
  have hpos : 0 < 8 ^ k := Nat.pow_pos (by decide)
  rw [length_masksAfter]
  constructor
  · intro h
    obtain ⟨h1, h2⟩ := (Nat.div_eq_iff hpos).1 h
    omega
  · rintro ⟨h1, h2⟩
    refine (Nat.div_eq_iff hpos).2 ⟨by omega, by omega⟩

theorem length_masksAfter_le (k : Nat) (l : Bytes) : (masksAfter k l).length ≤ l.length := by
  induction k generalizing l with
  | zero => exact le_rfl
  | succ k ih =>
    refine (ih (fraenkelMasks l)).trans ?_
    rw [length_fraenkelMasks]
    omega

theorem compressFraenkelLoop_succ (fuel : Nat) (l dst : Bytes) :
    compressFraenkelLoop (fuel + 1) l dst =
      if (fraenkelMasks l).length ≠ 1 then compressFraenkelLoop fuel (fraenkelMasks l) (dst ++ nonzero l)
      else some (dst ++ nonzero l ++ fraenkelMasks l) := by
  rw [compressFraenkelLoop, fraenkelPass_kept]
  rfl

theorem compressFraenkelLoop_eq {k fuel : Nat} {l : Bytes} (hfuel : k < fuel) (hk : (masksAfter (k + 1) l).length = 1)
    (hfirst : ∀ j < k, (masksAfter (j + 1) l).length ≠ 1) (dst : Bytes) :
    compressFraenkelLoop fuel l dst = some (dst ++ keptAfter (k + 1) l ++ masksAfter (k + 1) l) := by
  induction k generalizing fuel l dst with
  | zero =>
    obtain ⟨fuel, rfl⟩ := Nat.exists_eq_succ_of_ne_zero (by omega : fuel ≠ 0)
    have hone : (fraenkelMasks l).length = 1 := hk
    rw [compressFraenkelLoop_succ, if_neg (not_not.2 hone), keptAfter, keptAfter, List.append_nil]
    rfl
  | succ k ih =>
    obtain ⟨fuel, rfl⟩ := Nat.exists_eq_succ_of_ne_zero (by omega : fuel ≠ 0)
    have hmore : (fraenkelMasks l).length ≠ 1 := hfirst 0 (Nat.succ_pos k)
    have hkept : keptAfter (k + 1 + 1) l = nonzero l ++ keptAfter (k + 1) (fraenkelMasks l) := rfl
    rw [compressFraenkelLoop_succ, if_pos hmore,
      ih (Nat.lt_of_succ_lt_succ hfuel) hk (fun j hj => hfirst (j + 1) (Nat.succ_lt_succ hj)), hkept]
    simp only [List.append_assoc]
    rfl

/-- The number of passes behind the first. -/
theorem exists_passes {l : Bytes} (hpos : 0 < l.length) :
    ∃ k, 0 < l.length ∧ l.length ≤ 8 ^ (k + 1) ∧ (k = 0 ∨ 8 ^ k < l.length) := by
  have hex : ∃ k, l.length ≤ 8 ^ (k + 1) := ⟨l.length, by
    have h1 : l.length < 8 ^ l.length := Nat.lt_pow_self (by decide)
    have h2 : 8 ^ l.length ≤ 8 ^ (l.length + 1) := Nat.pow_le_pow_right (by decide) (Nat.le_succ _)
    omega⟩
  refine ⟨Nat.find hex, hpos, Nat.find_spec hex, ?_⟩
  cases hk : Nat.find hex with
  | zero => exact Or.inl rfl
  | succ k => exact Or.inr (not_le.1 (Nat.find_min hex (by omega)))

theorem compressFraenkel_eq {k : Nat} {l : Bytes} (hsize : l.length < fraenkelSize) (hpos : 0 < l.length)
    (hle : l.length ≤ 8 ^ (k + 1)) (hfirst : k = 0 ∨ 8 ^ k < l.length) {passes : Nat} (hp : k < passes) :
    compressFraenkel passes l = some (keptAfter (k + 1) l ++ masksAfter (k + 1) l) := by
  rw [compressFraenkel, if_pos hsize, compressFraenkelLoop_eq hp (length_masksAfter_eq_one.2 ⟨hpos, hle⟩)]
  · rfl
  · intro j hj h
    have h1 := (length_masksAfter_eq_one.1 h).2
    have h2 : 8 ^ (j + 1) ≤ 8 ^ k := Nat.pow_le_pow_right (by decide) hj
    omega

/-- In fewer passes there is no result. -/
theorem compressFraenkelLoop_isSome {fuel : Nat} {l dst out : Bytes} (h : compressFraenkelLoop fuel l dst = some out) :
    0 < l.length := by
  induction fuel generalizing l dst with
  | zero => cases h
  | succ fuel ih =>
    rw [compressFraenkelLoop_succ] at h
    split at h
    · have hpos := ih h
      rw [length_fraenkelMasks] at hpos
      omega
    · next hone =>
      have hlen := not_not.1 hone
      rw [length_fraenkelMasks] at hlen
      omega

/-! ## All passes back -/

/-- How many elements `k` passes add behind a run of `n`. -/
def runsSize : Nat → Nat → Nat
  | 0, _ => 0
  | k + 1, n => 8 * n + runsSize k (8 * n)

theorem keptAfter_ne_nil {l : Bytes} (h : nonzero l ≠ []) (k : Nat) : keptAfter (k + 1) l ≠ [] := by
  rw [keptAfter]
  exact fun hnil => h (List.append_eq_nil_iff.1 hnil).1

/-- The passes back, as long as there is room in the array. -/
theorem expandFraenkelLoop_eq {l : Bytes} (hl : nonzero l ≠ []) {k fuel n i : Nat} (hfuel : k < fuel)
    (hn : (masksAfter (k + 1) l).length ≤ n) :
    expandFraenkelLoop fuel i (padTo n (masksAfter (k + 1) l)).reverse (keptAfter (k + 1) l).reverse =
      if i + runsSize (k + 1) n ≤ fraenkelSize then .ok (padTo (8 ^ (k + 1) * n) l).reverse
      else .error .pastArray := by
  induction k generalizing fuel n i with
  | zero =>
    obtain ⟨fuel, rfl⟩ := Nat.exists_eq_succ_of_ne_zero (by omega : fuel ≠ 0)
    have hlen : l.length ≤ 8 * n := by
      have hmasks : (fraenkelMasks l).length ≤ n := hn
      rw [length_fraenkelMasks] at hmasks
      omega
    have hback := expandRun_fraenkelMasks hlen []
    rw [List.append_nil] at hback
    rw [expandFraenkelLoop, List.length_reverse, length_padTo, keptAfter, keptAfter, List.append_nil]
    by_cases hroom : i + runsSize (0 + 1) n ≤ fraenkelSize
    · have hroom' : ¬ fraenkelSize < i + 8 * n := not_lt.2 hroom
      rw [if_pos hroom, if_neg hroom']
      simp only [masksAfter, hback, List.length_nil, lt_irrefl, if_false]
      rfl
    · have hroom' : fraenkelSize < i + 8 * n := not_le.1 hroom
      rw [if_neg hroom, if_pos hroom']
  | succ k ih =>
    obtain ⟨fuel, rfl⟩ := Nat.exists_eq_succ_of_ne_zero (by omega : fuel ≠ 0)
    have hlen : (masksAfter (k + 1) l).length ≤ 8 * n := by
      rw [masksAfter_succ, length_fraenkelMasks] at hn
      omega
    have hback := expandRun_fraenkelMasks hlen (keptAfter (k + 1) l).reverse
    have hmore : 0 < (keptAfter (k + 1) l).reverse.length := by
      rw [List.length_reverse]
      exact List.length_pos_iff.2 (keptAfter_ne_nil hl k)
    have hsize : runsSize (k + 1 + 1) n = 8 * n + runsSize (k + 1) (8 * n) := rfl
    have hpow : 8 ^ (k + 1 + 1) * n = 8 ^ (k + 1) * (8 * n) := by
      rw [Nat.pow_succ 8 (k + 1), Nat.mul_assoc]
    rw [expandFraenkelLoop, List.length_reverse, length_padTo, keptAfter_succ, List.reverse_append, masksAfter_succ]
    by_cases hroom : fraenkelSize < i + 8 * n
    · rw [if_pos hroom, if_neg (by omega)]
    · rw [if_neg hroom]
      simp only [hback, if_pos hmore]
      rw [ih (Nat.lt_of_succ_lt_succ hfuel) hlen, hsize, ← Nat.add_assoc, hpow]

theorem fraenkelMasks_zero {l : Bytes} (h : ∀ b ∈ l, b = 0) : ∀ m ∈ fraenkelMasks l, m = 0 := by
  intro m hm
  obtain ⟨g, hg, rfl⟩ := List.getElem_of_mem hm
  have hzero : ∀ i, l.getD i 0 = 0 := by
    intro i
    rcases Nat.lt_or_ge i l.length with hi | hi
    · rw [List.getD_eq_getElem _ _ hi]
      exact h _ (List.getElem_mem hi)
    · exact List.getD_eq_default _ _ hi
  refine (byte_eq_zero_iff _).2 fun b hb => Bool.eq_false_of_not_eq_true fun hbit => ?_
  rw [← List.getD_eq_getElem (fraenkelMasks l) 0 hg, ← mask_ne_zero_iff _ hb, fraenkelMasks_bit l g hb] at hbit
  exact hbit (hzero _)

theorem masksAfter_zero {l : Bytes} (h : ∀ b ∈ l, b = 0) (k : Nat) :
    keptAfter k l = [] ∧ ∀ m ∈ masksAfter k l, m = 0 := by
  induction k generalizing l with
  | zero => exact ⟨rfl, h⟩
  | succ k ih =>
    obtain ⟨hkept, hmasks⟩ := ih (fraenkelMasks_zero h)
    rw [keptAfter, hkept, nonzero_eq_nil_iff.2 h]
    exact ⟨rfl, hmasks⟩

/-- What is read back from the result of `k + 1` passes. -/
theorem expandFraenkel_kept {k : Nat} {l : Bytes} (hpos : 0 < l.length) (hle : l.length ≤ 8 ^ (k + 1))
    (hk : k < fraenkelSize) :
    expandFraenkel (keptAfter (k + 1) l ++ masksAfter (k + 1) l) =
      if nonzero l = [] then .ok (List.replicate 8 0)
      else if 1 + runsSize (k + 1) 1 ≤ fraenkelSize then .ok (padTo (8 ^ (k + 1)) l)
      else .error .pastArray := by
  have hone := length_masksAfter_eq_one.2 ⟨hpos, hle⟩
  obtain ⟨m, hm⟩ := List.length_eq_one_iff.1 hone
  by_cases hzero : nonzero l = []
  · obtain ⟨hkept, hmasks⟩ := masksAfter_zero (nonzero_eq_nil_iff.1 hzero) (k + 1)
    have hm0 : m = 0 := hmasks m (by rw [hm]; exact List.mem_singleton_self m)
    rw [if_pos hzero, hkept, hm, hm0]
    decide
  · have hrun : (padTo 1 (masksAfter (k + 1) l)).reverse = [m] := by
      rw [padTo_eq (le_of_eq hone), hm]
      rfl
    have hloop := @expandFraenkelLoop_eq l hzero k fraenkelSize 1 1 hk (le_of_eq hone)
    rw [hrun, Nat.mul_one] at hloop
    rw [if_neg hzero, expandFraenkel, List.reverse_append, hm, List.reverse_singleton, List.singleton_append]
    simp only [hloop]
    split
    · simp only [Except.map, List.reverse_reverse]
    · rfl

theorem compressFraenkelLoop_mono {fuel fuel' : Nat} (hle : fuel ≤ fuel') {l dst out : Bytes}
    (h : compressFraenkelLoop fuel l dst = some out) : compressFraenkelLoop fuel' l dst = some out := by
  induction fuel generalizing fuel' l dst with
  | zero => cases h
  | succ fuel ih =>
    obtain ⟨fuel', rfl⟩ := Nat.exists_eq_succ_of_ne_zero (by omega : fuel' ≠ 0)
    rw [compressFraenkelLoop_succ] at h ⊢
    split at h
    · next hmore =>
      rw [if_pos hmore]
      exact ih (Nat.le_of_succ_le_succ hle) h
    · next hone =>
      rw [if_neg hone]
      exact h

/-! ## Reading back -/

/-- What has been compressed, and what is read back. -/
structure FraenkelResult (x out : Bytes) : Prop where
  compressed : ∃ passes, compressFraenkel passes x = some out
  unique : ∀ passes out', compressFraenkel passes x = some out' → out' = out
  zeros : nonzero x = [] → expandFraenkel out = .ok (List.replicate 8 0)
  short : nonzero x ≠ [] → x.length ≤ 32768 → ∃ n, x.length ≤ n ∧ expandFraenkel out = .ok (padTo n x)
  long : nonzero x ≠ [] → 32768 < x.length → expandFraenkel out = .error .pastArray

theorem exists_fraenkelResult {x : Bytes} (hpos : 0 < x.length) (hsize : x.length < fraenkelSize) :
    ∃ out, FraenkelResult x out := by
  obtain ⟨k, -, hle, hfirst⟩ := exists_passes hpos
  have hk : k ≤ 5 := by
    by_contra hno
    have hpow : 8 ^ 6 ≤ 8 ^ k := Nat.pow_le_pow_right (by decide) (by omega)
    have hsmall : fraenkelSize = 8 ^ 6 := by decide
    omega
  have hback := expandFraenkel_kept hpos hle (hk.trans_lt (by decide))
  refine ⟨keptAfter (k + 1) x ++ masksAfter (k + 1) x,
    ⟨k + 1, compressFraenkel_eq hsize hpos hle hfirst (Nat.lt_succ_self k)⟩, fun passes out' h => ?_,
    fun hzero => ?_, fun hzero hshort => ?_, fun hzero hlong => ?_⟩
  · have hmore := compressFraenkel_eq hsize hpos hle hfirst (Nat.lt_succ_of_le (Nat.le_add_left k passes))
    rw [compressFraenkel, if_pos hsize] at h hmore
    have hsame := compressFraenkelLoop_mono (Nat.le_succ_of_le (Nat.le_add_right passes k)) h
    rw [hmore] at hsame
    exact (Option.some_inj.1 hsame).symm
  · rw [hback, if_pos hzero]
  · have hroom : 1 + runsSize (k + 1) 1 ≤ fraenkelSize := by
      have hk4 : k ≤ 4 := by
        by_contra hno
        have hpow : 8 ^ 5 ≤ 8 ^ k := Nat.pow_le_pow_right (by decide) (by omega)
        omega
      have hall : ∀ k ≤ 4, 1 + runsSize (k + 1) 1 ≤ fraenkelSize := by decide
      exact hall k hk4
    exact ⟨8 ^ (k + 1), hle, by rw [hback, if_neg hzero, if_pos hroom]⟩
  · have hk5 : k = 5 := by
      by_contra hno
      have hpow : 8 ^ (k + 1) ≤ 8 ^ 5 := Nat.pow_le_pow_right (by decide) (by omega)
      omega
    rw [hback, if_neg hzero, hk5]
    exact if_neg (by decide)

/-- The bytes that are read back are those that were compressed, up to zeros at the end. -/
def FraenkelRoundTrip (x : Bytes) : Prop :=
  ∃ passes out y, compressFraenkel passes x = some out ∧ expandFraenkel out = .ok y ∧ ∀ i, x.getD i 0 = y.getD i 0

theorem fraenkelRoundTrip_iff {x : Bytes} (h1 : 1 ≤ x.length) (h2 : x.length < 262144) :
    FraenkelRoundTrip x ↔ x.length ≤ 32768 ∨ ∀ b ∈ x, b = 0 := by
  obtain ⟨out, hout⟩ := exists_fraenkelResult h1 h2
  rw [← nonzero_eq_nil_iff]
  constructor
  · rintro ⟨passes, out', y, hcompress, hexpand, -⟩
    rw [hout.unique passes out' hcompress] at hexpand
    by_contra hno
    rw [not_or] at hno
    rw [hout.long hno.2 (not_le.1 hno.1)] at hexpand
    cases hexpand
  · intro h
    obtain ⟨passes, hcompress⟩ := hout.compressed
    by_cases hzero : nonzero x = []
    · refine ⟨passes, out, _, hcompress, hout.zeros hzero, fun i => ?_⟩
      have hx : ∀ i, x.getD i 0 = 0 := by
        intro i
        rcases Nat.lt_or_ge i x.length with hi | hi
        · rw [List.getD_eq_getElem _ _ hi]
          exact nonzero_eq_nil_iff.1 hzero _ (List.getElem_mem hi)
        · exact List.getD_eq_default _ _ hi
      rw [hx i]
      rcases Nat.lt_or_ge i 8 with hi | hi
      · rw [List.getD_eq_getElem _ _ (by simpa using hi), List.getElem_replicate]
      · rw [List.getD_eq_default _ _ (by simpa using hi)]
    · obtain ⟨n, hn, hexpand⟩ := hout.short hzero (h.resolve_right hzero)
      exact ⟨passes, out, _, hcompress, hexpand, fun i => (getD_padTo hn i).symm⟩

/-- One byte is read back with seven zeros behind it. -/
theorem fraenkelRoundTrip_five : FraenkelRoundTrip [5] :=
  (@fraenkelRoundTrip_iff [5] (by decide) (by decide)).2 (Or.inl (by decide))

/-- One byte more than the passes back have room for. -/
theorem expandFraenkel_ones {passes : Nat} {out : Bytes}
    (h : compressFraenkel passes (List.replicate 32769 1) = some out) : expandFraenkel out = .error .pastArray := by
  have hlen : (List.replicate 32769 (1 : UInt8)).length = 32769 := List.length_replicate
  obtain ⟨out', hout⟩ := @exists_fraenkelResult (List.replicate 32769 1) (by omega) (by rw [hlen]; decide)
  have hzero : nonzero (List.replicate 32769 (1 : UInt8)) ≠ [] := by
    rw [Ne, nonzero_eq_nil_iff]
    intro h
    exact absurd (h 1 (List.mem_replicate.2 ⟨by decide, rfl⟩)) (by decide)
  rw [hout.unique passes out h, hout.long hzero (by omega)]

theorem not_fraenkelRoundTrip : ¬ FraenkelRoundTrip (List.replicate 32769 1) := by
  rintro ⟨passes, out, y, hcompress, hexpand, -⟩
  rw [expandFraenkel_ones hcompress] at hexpand
  cases hexpand

/-! ## The arrays -/

/-- Compressing ends, no pass writes more masks than the bytes it was given, and reading back writes
nothing behind the array. -/
def FraenkelBounded (x : Bytes) : Prop :=
  (∃ passes out, compressFraenkel passes x = some out) ∧ (∀ k, (masksAfter (k + 1) x).length ≤ x.length) ∧
    ∀ passes out, compressFraenkel passes x = some out → expandFraenkel out ≠ .error .pastArray

/-- Without a byte there is never one mask. -/
theorem compressFraenkel_nil (passes : Nat) : compressFraenkel passes [] = none := by
  cases h : compressFraenkel passes [] with
  | none => rfl
  | some out =>
    rw [compressFraenkel, if_pos (by decide)] at h
    exact absurd (compressFraenkelLoop_isSome h) (by decide)

theorem fraenkelBounded_iff {x : Bytes} (h : x.length < 262144) :
    FraenkelBounded x ↔ x ≠ [] ∧ (x.length ≤ 32768 ∨ ∀ b ∈ x, b = 0) := by
  rw [← nonzero_eq_nil_iff]
  constructor
  · rintro ⟨⟨passes, out, hcompress⟩, -, hroom⟩
    have hne : x ≠ [] := by
      rintro rfl
      rw [compressFraenkel_nil] at hcompress
      cases hcompress
    refine ⟨hne, ?_⟩
    obtain ⟨out', hout⟩ := exists_fraenkelResult (List.length_pos_iff.2 hne) h
    by_contra hno
    rw [not_or] at hno
    refine hroom passes out hcompress ?_
    rw [hout.unique passes out hcompress, hout.long hno.2 (not_le.1 hno.1)]
  · rintro ⟨hne, hshort⟩
    obtain ⟨out, hout⟩ := exists_fraenkelResult (List.length_pos_iff.2 hne) h
    obtain ⟨passes, hcompress⟩ := hout.compressed
    refine ⟨⟨passes, out, hcompress⟩, fun k => length_masksAfter_le (k + 1) x, fun passes' out' hcompress' => ?_⟩
    rw [hout.unique passes' out' hcompress']
    by_cases hzero : nonzero x = []
    · rw [hout.zeros hzero]
      exact fun h => by cases h
    · obtain ⟨n, -, hexpand⟩ := hout.short hzero (hshort.resolve_right hzero)
      rw [hexpand]
      exact fun h => by cases h

theorem fraenkelBounded_five : FraenkelBounded [5] :=
  (@fraenkelBounded_iff [5] (by decide)).2 ⟨by decide, Or.inl (by decide)⟩

/-- The empty input is never done, and 32769 bytes are read back behind the array. -/
theorem not_fraenkelBounded :
    (∀ passes, compressFraenkel passes [] = none) ∧ ¬ FraenkelBounded [] ∧
      ¬ FraenkelBounded (List.replicate 32769 1) := by
  refine ⟨compressFraenkel_nil, ?_, ?_⟩
  · rintro ⟨⟨passes, out, hcompress⟩, -⟩
    rw [compressFraenkel_nil] at hcompress
    cases hcompress
  · rintro ⟨⟨passes, out, hcompress⟩, -, hroom⟩
    exact hroom passes out hcompress (expandFraenkel_ones hcompress)

end RdfStore
