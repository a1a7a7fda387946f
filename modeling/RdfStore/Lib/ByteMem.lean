import Mathlib.Data.Finset.Card
import Mathlib.Data.Finset.Range
import Mathlib.Data.Fintype.Basic
import Mathlib.Order.Interval.Finset.Nat
import Mathlib.Tactic.Common

/-!
# Byte memory read as a set of numbers

A buffer is the memory seen from a pointer on: a byte for every offset, the
bytes behind the logical length included.  `ones n b` is the set of numbers the
first `n` bytes denote (bit `i % 8` of byte `i / 8` stands for `i`), so an
operation may be specified by the sets it reads and writes while the stale
bytes stay in the model.

    i ∈ ones n b ↔ i < 8 * n ∧ bit b i                          (mem_ones)
    ones n b = ∅ ↔ ∀ k < n, b k = 0                             (ones_eq_empty_iff)
    ones l.length (overlay l b) = onesOf l                      (ones_overlay)
-/

namespace ByteMem

abbrev Bytes := List UInt8

/-- Memory from a pointer on. -/
abbrev Buf := Nat → UInt8

/-! ## Bits of a byte -/

theorem toNat_toUInt8 (n : Nat) : n.toUInt8.toNat = n % 256 := UInt8.toNat_ofNat'

theorem toNat_toUInt8_of_lt {n : Nat} (h : n < 256) : n.toUInt8.toNat = n :=
  (toNat_toUInt8 n).trans (Nat.mod_eq_of_lt h)

/-- What holds of the bytes with a number holds of all. -/
theorem forall_byte {p : UInt8 → Prop} (h : ∀ n < 256, p n.toUInt8) (a : UInt8) : p a := by
  have ha := h a.toNat a.toNat_lt
  rwa [Nat.toUInt8_eq, UInt8.ofNat_toNat] at ha

/-- The bytes of a list are checked one by one, not among all 256. -/
theorem forall_mem_of_all {s : Bytes} {p : UInt8 → Prop} [DecidablePred p] (h : s.all (fun a => p a) = true) :
    ∀ a ∈ s, p a := by
  intro a ha
  exact of_decide_eq_true (List.all_eq_true.1 h a ha)

def byteBit (c : UInt8) (k : Nat) : Bool := c.toNat.testBit k

@[simp] theorem byteBit_zero (k : Nat) : byteBit 0 k = false := by simp [byteBit]

@[simp] theorem byteBit_or (a b : UInt8) (k : Nat) :
    byteBit (a ||| b) k = (byteBit a k || byteBit b k) := by
  simp [byteBit, Nat.testBit_or]

@[simp] theorem byteBit_and (a b : UInt8) (k : Nat) :
    byteBit (a &&& b) k = (byteBit a k && byteBit b k) := by
  simp [byteBit, Nat.testBit_and]

@[simp] theorem byteBit_xor (a b : UInt8) (k : Nat) :
    byteBit (a ^^^ b) k = (byteBit a k ^^ byteBit b k) := by
  simp [byteBit, Nat.testBit_xor]

theorem byteBit_of_ge (c : UInt8) {k : Nat} (h : 8 ≤ k) : byteBit c k = false := by
  apply Nat.testBit_lt_two_pow
  calc c.toNat < 2 ^ 8 := c.toNat_lt
    _ ≤ 2 ^ k := Nat.pow_le_pow_right (by decide) h

/-- A byte is determined by its eight bits. -/
theorem byte_ext {a b : UInt8} (h : ∀ k < 8, byteBit a k = byteBit b k) : a = b := by
  apply UInt8.toNat_inj.mp
  apply Nat.eq_of_testBit_eq
  intro k
  by_cases hk : k < 8
  · exact h k hk
  · exact (byteBit_of_ge a (by omega)).trans (byteBit_of_ge b (by omega)).symm

theorem byte_eq_zero_iff (c : UInt8) : c = 0 ↔ ∀ k < 8, byteBit c k = false := by
  constructor
  · rintro rfl k _
    exact byteBit_zero k
  · intro h
    exact byte_ext fun k hk => by rw [h k hk, byteBit_zero]

/-! ## Bits of a buffer -/

/-- Bit `i` of a buffer: bit `i % 8` of byte `i / 8`. -/
def bit (b : Buf) (i : Nat) : Bool := byteBit (b (i / 8)) (i % 8)

theorem bit_byte (b : Buf) (n k : Nat) (hk : k < 8) : bit b (8 * n + k) = byteBit (b n) k := by
  unfold bit
  rw [show (8 * n + k) / 8 = n by omega, show (8 * n + k) % 8 = k by omega]

/-- The numbers denoted by the first `n` bytes. -/
def ones (n : Nat) (b : Buf) : Finset Nat := (Finset.range (8 * n)).filter fun i => bit b i

@[simp] theorem mem_ones {n : Nat} {b : Buf} {i : Nat} :
    i ∈ ones n b ↔ i < 8 * n ∧ bit b i = true := by
  simp [ones]

@[simp] theorem ones_zero (b : Buf) : ones 0 b = ∅ := by simp [ones]

/-- Only the first `n` bytes matter. -/
theorem ones_congr {n : Nat} {b c : Buf} (h : ∀ k < n, b k = c k) : ones n b = ones n c := by
  ext i
  simp only [mem_ones, bit]
  constructor
  · rintro ⟨hi, hb⟩
    exact ⟨hi, by rw [← h (i / 8) (by omega)]; exact hb⟩
  · rintro ⟨hi, hb⟩
    exact ⟨hi, by rw [h (i / 8) (by omega)]; exact hb⟩

theorem ones_eq_empty_iff {n : Nat} {b : Buf} : ones n b = ∅ ↔ ∀ k < n, b k = 0 := by
  constructor
  · intro h k hk
    rw [byte_eq_zero_iff]
    intro j hj
    by_contra hbit
    have hmem : 8 * k + j ∈ ones n b := by
      rw [mem_ones, bit_byte b k j hj]
      exact ⟨by omega, by simpa using hbit⟩
    rw [h] at hmem
    exact absurd hmem (Finset.notMem_empty _)
  · intro h
    rw [ones_congr (c := fun _ => 0) h]
    ext i
    simp [bit]

/-- Trailing zero bytes denote nothing. -/
theorem ones_eq_of_zero_tail {m n : Nat} {b : Buf} (hmn : m ≤ n)
    (hz : ∀ k, m ≤ k → k < n → b k = 0) : ones n b = ones m b := by
  ext i
  simp only [mem_ones, bit]
  constructor
  · rintro ⟨hi, hb⟩
    by_cases hm : i / 8 < m
    · exact ⟨by omega, hb⟩
    · rw [hz (i / 8) (by omega) (by omega)] at hb
      simp at hb
  · rintro ⟨hi, hb⟩
    exact ⟨by omega, hb⟩

theorem ones_nonempty_of_byte {n k : Nat} {b : Buf} (hk : k < n) (h : b k ≠ 0) :
    (ones n b).Nonempty := by
  rw [Finset.nonempty_iff_ne_empty]
  intro he
  exact h (ones_eq_empty_iff.1 he k hk)

/-! ## Byte strings in a buffer -/

/-- `l` copied to the start of a buffer. -/
def overlay (l : Bytes) (b : Buf) : Buf := fun k => l.getD k (b k)

/-- The first `n` bytes of a buffer. -/
def takeBytes (n : Nat) (b : Buf) : Bytes := (List.range n).map b

/-- The numbers a byte string denotes. -/
def onesOf (l : Bytes) : Finset Nat := ones l.length (overlay l fun _ => 0)

def zeros (n : Nat) : Bytes := List.replicate n 0

@[simp] theorem length_zeros (n : Nat) : (zeros n).length = n := List.length_replicate

@[simp] theorem length_takeBytes (n : Nat) (b : Buf) : (takeBytes n b).length = n := by
  simp [takeBytes]

theorem overlay_of_lt {l : Bytes} {b : Buf} {k : Nat} (h : k < l.length) :
    overlay l b k = l[k] := by
  simp [overlay, List.getD, h]

theorem ones_overlay (l : Bytes) (b : Buf) : ones l.length (overlay l b) = onesOf l :=
  ones_congr fun k hk => by rw [overlay_of_lt hk, overlay_of_lt hk]

theorem onesOf_takeBytes (n : Nat) (b : Buf) : onesOf (takeBytes n b) = ones n b := by
  unfold onesOf
  rw [length_takeBytes]
  refine ones_congr fun k hk => ?_
  rw [overlay_of_lt (by simpa using hk)]
  simp [takeBytes]

@[simp] theorem onesOf_nil : onesOf [] = ∅ := by simp [onesOf]

theorem takeBytes_overlay (l : Bytes) (b : Buf) : takeBytes l.length (overlay l b) = l := by
  apply List.ext_getElem (by simp)
  intro k hk hk'
  simp only [takeBytes, List.getElem_map, List.getElem_range]
  exact overlay_of_lt hk'

/-! ## Writing one byte -/

/-- Store through the pointer. -/
def poke (b : Buf) (k : Nat) (c : UInt8) : Buf := fun j => if j = k then c else b j

@[simp] theorem poke_same (b : Buf) (k : Nat) (c : UInt8) : poke b k c k = c := by simp [poke]

theorem poke_of_ne {b : Buf} {k j : Nat} {c : UInt8} (h : j ≠ k) : poke b k c j = b j := by
  simp [poke, h]

/-- Clearing bytes `from … to - 1`, as `bzero` does. -/
def zeroRange (b : Buf) (lo hi : Nat) : Buf := fun k => if lo ≤ k ∧ k < hi then 0 else b k

theorem ones_zeroRange {b : Buf} {lo hi : Nat} (h : lo ≤ hi) :
    ones hi (zeroRange b lo hi) = ones lo b := by
  have hz : ∀ k, lo ≤ k → k < hi → zeroRange b lo hi k = 0 := fun k h1 h2 => if_pos ⟨h1, h2⟩
  rw [ones_eq_of_zero_tail h hz]
  exact ones_congr fun k hk => if_neg (by omega)

/-- Copying the first `n` bytes, as `bcopy` does. -/
def copyBytes (n : Nat) (src dst : Buf) : Buf := fun k => if k < n then src k else dst k

/-! ## Writing at an offset -/

/-- `l` copied to offset `lo`. -/
def writeAt (b : Buf) (lo : Nat) (l : Bytes) : Buf := fun k => if k < lo then b k else l.getD (k - lo) (b k)

/-- The memory from an offset on. -/
def seek (lo : Nat) (b : Buf) : Buf := fun k => b (lo + k)

theorem takeBytes_add (m n : Nat) (b : Buf) :
    takeBytes (m + n) b = takeBytes m b ++ takeBytes n (seek m b) := by
  unfold takeBytes seek
  rw [List.range_add, List.map_append, List.map_map]
  rfl

theorem drop_takeBytes (k n : Nat) (b : Buf) : (takeBytes n b).drop k = takeBytes (n - k) (seek k b) := by
  obtain hk | hk := le_total k n
  · obtain ⟨m, rfl⟩ := Nat.exists_eq_add_of_le hk
    rw [takeBytes_add, List.drop_left' (length_takeBytes k b), Nat.add_sub_cancel_left]
  · rw [List.drop_eq_nil_of_le (by simpa using hk), Nat.sub_eq_zero_of_le hk]
    rfl

theorem seek_seek (m n : Nat) (b : Buf) : seek n (seek m b) = seek (m + n) b := by
  funext k
  simp only [seek, Nat.add_assoc]

@[simp] theorem seek_zero (b : Buf) : seek 0 b = b := by
  funext k
  simp [seek]

theorem takeBytes_congr {n : Nat} {b c : Buf} (h : ∀ k < n, b k = c k) : takeBytes n b = takeBytes n c :=
  List.map_congr_left fun k hk => h k (List.mem_range.1 hk)

/-- What has been read so far, and what is read next. -/
theorem takeBytes_writeAt (lo : Nat) (l : Bytes) (b : Buf) :
    takeBytes (lo + l.length) (writeAt b lo l) = takeBytes lo b ++ l := by
  rw [takeBytes_add]
  congr 1
  · exact takeBytes_congr fun k hk => if_pos hk
  · conv_rhs => rw [← takeBytes_overlay l b]
    refine takeBytes_congr fun k hk => ?_
    rw [overlay_of_lt hk]
    simp [seek, writeAt, hk]

@[simp] theorem ones_copyBytes (n : Nat) (src dst : Buf) : ones n (copyBytes n src dst) = ones n src :=
  ones_congr fun _ hk => if_pos hk

end ByteMem
