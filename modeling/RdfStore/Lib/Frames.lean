import Mathlib.Algebra.GroupWithZero.Nat
import Mathlib.Data.List.Basic
import Mathlib.Tactic.Common

/-!
# Frames on a stream

A stream carries one frame after another, and whoever reads or writes it moves
as much as the other side takes at a time.  `Left` is what a reader has before
it when it has handled some frames and seen a part of the next.  A `Pipe` is
what a writer has sent and still has to send.

    what is sent and what is left make up the whole       (Pipe.whole_run)
-/

namespace Frames

variable {α β : Type*}

/-! ## Reading -/

section

variable (wire : α → List β)

/-- What is left of the stream: nothing of the frames that were handled, a part of the first that
is outstanding, and the others whole. -/
def Left : List α → List β → Prop
  | [], stream => stream = []
  | x :: later, stream =>
    ∃ seen rest, rest ≠ [] ∧ wire x = seen ++ rest ∧ stream = rest ++ later.flatMap wire

variable {wire}

/-- Between two frames. -/
theorem Left.of_flatMap (hwire : ∀ x, wire x ≠ []) (todo : List α) : Left wire todo (todo.flatMap wire) := by
  cases todo with
  | nil => rfl
  | cons x later => exact ⟨[], wire x, hwire x, rfl, rfl⟩

/-- A reader that has seen `seen` of a frame and takes no more than is missing. -/
theorem Left.of_append {x : α} {later : List α} {seen stream : List β}
    (hlen : seen.length < (wire x).length) (h : seen ++ stream = wire x ++ later.flatMap wire) :
    Left wire (x :: later) stream := by
  rw [List.append_eq_append_iff] at h
  obtain ⟨rest, hx, hstream⟩ | ⟨later, hseen, -⟩ := h
  · refine ⟨seen, rest, ?_, hx, hstream⟩
    rintro rfl
    rw [hx] at hlen
    simp at hlen
  · rw [hseen, List.length_append] at hlen
    omega

end

/-! ## Writing -/

structure Pipe (β : Type*) where
  sent : List β
  left : List β

/-- `n` elements go out, or all that are left. -/
def Pipe.move (p : Pipe β) (n : Nat) : Pipe β := ⟨p.sent ++ p.left.take n, p.left.drop n⟩

/-- One move after another. -/
def Pipe.run (p : Pipe β) (ns : List Nat) : Pipe β := ns.foldl Pipe.move p

def Pipe.whole (p : Pipe β) : List β := p.sent ++ p.left

/-- No more goes out than is left. -/
theorem Pipe.move_min (p : Pipe β) (n : Nat) : p.move (min n p.left.length) = p.move n := by
  obtain hle | hle := Nat.le_total n p.left.length
  · rw [Nat.min_eq_left hle]
  · unfold Pipe.move
    rw [Nat.min_eq_right hle, List.take_of_length_le hle, List.drop_eq_nil_of_le hle, List.take_length,
      List.drop_length]

@[simp] theorem Pipe.whole_move (p : Pipe β) (n : Nat) : (p.move n).whole = p.whole := by
  simp [Pipe.move, Pipe.whole]

@[simp] theorem Pipe.whole_run (p : Pipe β) (ns : List Nat) : (p.run ns).whole = p.whole := by
  induction ns generalizing p with
  | nil => rfl
  | cons n ns ih => exact (ih (p.move n)).trans (p.whole_move n)

/-- As many elements go out as the moves have taken, as long as there are any. -/
theorem Pipe.length_left_run (p : Pipe β) (ns : List Nat) :
    (p.run ns).left.length = p.left.length - ns.sum := by
  induction ns generalizing p with
  | nil => rfl
  | cons n ns ih =>
    refine (ih (p.move n)).trans ?_
    simp only [Pipe.move, List.length_drop, List.sum_cons]
    omega

/-- What has gone out after some moves is the beginning of what was left. -/
theorem Pipe.sent_run (p : Pipe β) (ns : List Nat) : (p.run ns).sent = p.sent ++ p.left.take ns.sum := by
  induction ns generalizing p with
  | nil => simp [Pipe.run]
  | cons n ns ih =>
    refine (ih (p.move n)).trans ?_
    simp only [Pipe.move, List.append_assoc, List.sum_cons, List.take_add]

end Frames
