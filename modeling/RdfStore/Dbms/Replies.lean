import RdfStore.Dbms.Wire
import RdfStore.Lib.Frames

/-!
# Sending replies (`deamon.c`)

A reply is written in one go from where its pieces are.  What the socket does
not take is copied to `sendbuff`, which is of a fixed size, and goes out from
there whenever the descriptor is writable.

    what the socket has taken is the beginning of the frame of the reply         (reply_sent)
-/

namespace RdfStore.Dbms

open ByteMem Frames

/-! ## The connection -/

/-- `MAX_SC_PAYLOAD`, the size of `sendbuff` -/
def maxScPayload : Nat := 128 * 1024

/-- The fields of `connection` that have to do with writing, the padding of `cmd` among them, whether
the descriptor is in `allwset`, and what the socket has taken. -/
structure Sender where
  gap : UInt8 × UInt8 × UInt8
  sendbuff : Buf
  send : Nat
  tosend : Nat
  close : Bool
  inWset : Bool
  wire : Bytes

/-- What `write` and `writev` return: some bytes, 0, or -1 with EINTR, EAGAIN or another error. -/
inductive WriteResult
  | took (n : Nat)
  | zero
  | interrupted
  | again
  | failed
  deriving DecidableEq

/-- A short write, an interrupted one or one that would block. -/
def WriteResult.Transient (w : WriteResult) : Prop := w ≠ .zero ∧ w ≠ .failed

/-- The bytes that go out, if there are as many. -/
def WriteResult.moves : WriteResult → Nat
  | .took n => max n 1
  | .zero | .interrupted | .again | .failed => 0

/-- No write is of more bytes than its result can count. -/
def writevResult (total : Nat) (w : WriteResult) : WriteResult := if total < 2 ^ 31 then w else .failed

/-! ## Writing -/

def Sender.failDispatch (r : Sender) : Sender := { r with close := true }

/-- The loop over the three pieces, from the one that begins at `pos` on: what is behind the first
`send` bytes. -/
def remainder (send : Nat) : Nat → List Bytes → Bytes
  | _, [] => []
  | pos, seg :: iov =>
    (if pos > send then seg
      else if pos + seg.length > send then seg.drop (send - pos)
      else []) ++ remainder send (pos + seg.length) iov

/-- The end of `dispatch`, with `s` bytes written. -/
def Sender.written (r : Sender) (iov : List Bytes) (s : Nat) : Sender :=
  let r := { r with wire := r.wire ++ iov.flatten.take s, send := r.send + s }
  if r.send = r.tosend then { r with send := 0, tosend := 0 }
  else if r.tosend - r.send > maxScPayload then r.failDispatch
  else
    { r with
      sendbuff := overlay (remainder r.send 0 iov) r.sendbuff
      tosend := r.tosend - s
      send := 0
      inWset := true }

/-- The bytes of a `DBT`, or of none. -/
def dbtBytes (v : Option Bytes) : Bytes := v.getD []

/-- The header of a reply; the lengths are put in network order. -/
def replyHeader (gap : UInt8 × UInt8 × UInt8) (token : UInt8) (v1 v2 : Option Bytes) : Header :=
  ⟨token, gap, (dbtBytes v1).length.toUInt32, (dbtBytes v2).length.toUInt32⟩

/-- `dispatch` -/
def Sender.dispatch (r : Sender) (token : UInt8) (v1 v2 : Option Bytes) (w : WriteResult) : Sender :=
  if r.tosend ≠ 0 ∧ r.send ≠ 0 then r.failDispatch
  else
    let iov := [(replyHeader r.gap token v1 v2).bytes, dbtBytes v1, dbtBytes v2]
    let r := { r with tosend := headerSize + (dbtBytes v1).length + (dbtBytes v2).length, send := 0 }
    match writevResult r.tosend w with
    | .took n => r.written iov (min (max n 1) r.tosend)
    | .interrupted => r.written iov 0
    | .again => r.written iov 0
    | .zero => r.failDispatch
    | .failed => r.failDispatch

/-- `continue_send` -/
def Sender.continueSend (r : Sender) (w : WriteResult) : Sender :=
  if r.tosend = 0 ∨ r.send ≥ r.tosend then { r with close := true }
  else
    match w with
    | .took n =>
      let left := takeBytes (r.tosend - r.send) (ByteMem.seek r.send r.sendbuff)
      let s := min (max n 1) left.length
      let r := { r with wire := r.wire ++ left.take s, send := r.send + s }
      if r.send < r.tosend then r else { r with send := 0, tosend := 0, inWset := false }
    | .interrupted => r
    | .again => r
    | .zero => { r with close := true }
    | .failed => { r with close := true }

/-- The descriptor is writable, in `select_loop`. -/
def Sender.writable (r : Sender) (w : WriteResult) : Sender :=
  if r.close then r else if r.inWset then r.continueSend w else r

def Sender.run (r : Sender) (ws : List WriteResult) : Sender := ws.foldl Sender.writable r

/-! ## What a reply is -/

/-- The header with the lengths in network order, and the two payloads. -/
def replyFrame (gap : UInt8 × UInt8 × UInt8) (token : UInt8) (v1 v2 : Option Bytes) : Bytes :=
  (replyHeader gap token v1 v2).bytes ++ dbtBytes v1 ++ dbtBytes v2

/-- Nothing is being sent. -/
structure Sender.Idle (r : Sender) : Prop where
  send : r.send = 0
  tosend : r.tosend = 0
  inWset : r.inWset = false
  opened : r.close = false

/-! ## The pieces -/

/-- The loop copies what the socket has not taken. -/
theorem remainder_eq (send pos : Nat) (iov : List Bytes) :
    remainder send pos iov = iov.flatten.drop (send - pos) := by
  induction iov generalizing pos with
  | nil => rw [List.flatten_nil, List.drop_nil, remainder]
  | cons seg iov ih =>
    rw [remainder, ih, List.flatten_cons, List.drop_append]
    have hrest : send - (pos + seg.length) = send - pos - seg.length := by omega
    rw [hrest]
    congr 1
    split
    · next hbehind =>
      rw [Nat.sub_eq_zero_of_le (by omega)]
      rfl
    · split
      · rfl
      · rw [List.drop_eq_nil_of_le (by omega)]

/-! ## A reply on its way -/

/-- A sender against a pipe: the socket has taken what the pipe has sent, and `sendbuff` holds what
it has left. -/
structure Sender.Sends (base : Bytes) (p : Pipe UInt8) (r : Sender) : Prop where
  wire : r.wire = base ++ p.sent
  opened : r.close = false
  idle : p.left = [] → r.Idle
  busy : p.left ≠ [] → r.inWset = true ∧ r.send < r.tosend ∧
    takeBytes (r.tosend - r.send) (ByteMem.seek r.send r.sendbuff) = p.left

theorem Sender.Sends.writable {base : Bytes} {p : Pipe UInt8} {r : Sender} {w : WriteResult}
    (h : r.Sends base p) (hw : w.Transient) : (r.writable w).Sends base (p.move w.moves) := by
  unfold Sender.writable
  rw [if_neg (by simp [h.opened])]
  by_cases hleft : p.left = []
  · have hmove : p.move w.moves = p := by
      cases p
      subst hleft
      simp [Pipe.move]
    rw [if_neg (by simp [(h.idle hleft).inWset]), hmove]
    exact h
  · obtain ⟨hset, hlt, hbuff⟩ := h.busy hleft
    have hstay : p.move 0 = p := by simp [Pipe.move]
    unfold Sender.continueSend
    rw [if_pos hset, if_neg (by omega)]
    cases w with
    | took n =>
      have hlen : p.left.length = r.tosend - r.send := by
        rw [← hbuff, length_takeBytes]
      have hdrop : p.left.drop (min (max n 1) p.left.length) = p.left.drop (max n 1) :=
        congrArg Pipe.left (p.move_min (max n 1))
      simp only [WriteResult.moves, Pipe.move, hbuff]
      have hwire : r.wire ++ p.left.take (min (max n 1) p.left.length) = base ++ (p.sent ++ p.left.take (max n 1)) := by
        rw [h.wire, ← List.take_eq_take_min, List.append_assoc]
      split
      · next hmore =>
        refine ⟨hwire, h.opened, ?_, ?_⟩
        · intro hnil
          rw [List.drop_eq_nil_iff] at hnil
          omega
        · intro _
          refine ⟨hset, hmore, ?_⟩
          simp only
          rw [← hdrop, ← hbuff, ByteMem.drop_takeBytes, seek_seek, length_takeBytes, Nat.sub_sub]
      · next hall =>
        have hnil : p.left.drop (max n 1) = [] := List.drop_eq_nil_of_le (by omega)
        exact ⟨hwire, h.opened, fun _ => ⟨rfl, rfl, rfl, h.opened⟩, fun hne => absurd hnil hne⟩
    | zero => exact absurd rfl hw.1
    | interrupted =>
      rw [WriteResult.moves, hstay]
      exact h
    | again =>
      rw [WriteResult.moves, hstay]
      exact h
    | failed => exact absurd rfl hw.2

theorem Sender.Sends.run {base : Bytes} {p : Pipe UInt8} {r : Sender} {ws : List WriteResult}
    (h : r.Sends base p) (hws : ∀ w ∈ ws, w.Transient) :
    (r.run ws).Sends base (p.run (ws.map WriteResult.moves)) := by
  induction ws generalizing r p with
  | nil => exact h
  | cons w ws ih =>
    exact ih (h.writable (hws w List.mem_cons_self)) fun v hv => hws v (List.mem_cons_of_mem _ hv)

/-- What is left after the first write fits `sendbuff`. -/
theorem Sender.Idle.written {r : Sender} {iov : List Bytes} {s : Nat} (hidle : r.Idle)
    (hs : s ≤ iov.flatten.length) (hfits : iov.flatten.length - s ≤ maxScPayload) :
    ({ r with tosend := iov.flatten.length, send := 0 }.written iov s).Sends r.wire
      (Pipe.move ⟨[], iov.flatten⟩ s) := by
  unfold Sender.written
  simp only [Nat.zero_add, remainder_eq, Nat.sub_zero]
  split
  · next hall =>
    have hnil : iov.flatten.drop s = [] := List.drop_eq_nil_of_le hall.ge
    exact ⟨rfl, hidle.opened, fun _ => ⟨rfl, rfl, hidle.inWset, hidle.opened⟩, fun hne => absurd hnil hne⟩
  · next hmore =>
    rw [if_neg (by omega)]
    refine ⟨rfl, hidle.opened, ?_, ?_⟩
    · intro hnil
      simp only [Pipe.move, List.drop_eq_nil_iff] at hnil
      omega
    · intro _
      refine ⟨rfl, by simp only; omega, ?_⟩
      have hlen : iov.flatten.length - s = (iov.flatten.drop s).length := by rw [List.length_drop]
      simp only [seek_zero, Nat.sub_zero, Pipe.move]
      rw [hlen, takeBytes_overlay]

/-! ## Dispatch -/

theorem length_replyFrame (gap : UInt8 × UInt8 × UInt8) (token : UInt8) (v1 v2 : Option Bytes) :
    (replyFrame gap token v1 v2).length = headerSize + (dbtBytes v1).length + (dbtBytes v2).length := by
  rw [replyFrame, List.length_append, List.length_append, Header.length_bytes]

theorem flatten_pieces (gap : UInt8 × UInt8 × UInt8) (token : UInt8) (v1 v2 : Option Bytes) :
    [(replyHeader gap token v1 v2).bytes, dbtBytes v1, dbtBytes v2].flatten = replyFrame gap token v1 v2 := by
  simp [replyFrame]

theorem Sender.Idle.dispatch {r : Sender} {token : UInt8} {v1 v2 : Option Bytes} {w : WriteResult}
    (hidle : r.Idle) (hw : w.Transient) (htotal : (replyFrame r.gap token v1 v2).length < 2 ^ 31)
    (hfits : (replyFrame r.gap token v1 v2).length - w.moves ≤ maxScPayload) :
    (r.dispatch token v1 v2 w).Sends r.wire (Pipe.move ⟨[], replyFrame r.gap token v1 v2⟩ w.moves) := by
  have hwritten := @hidle.written _ [(replyHeader r.gap token v1 v2).bytes, dbtBytes v1, dbtBytes v2]
  rw [flatten_pieces] at hwritten
  unfold Sender.dispatch
  rw [if_neg (by simp [hidle.send])]
  simp only [← length_replyFrame r.gap token v1 v2, writevResult, if_pos htotal]
  cases w with
  | took n =>
    have hmove : Pipe.move ⟨[], replyFrame r.gap token v1 v2⟩ (min (max n 1) (replyFrame r.gap token v1 v2).length) =
        Pipe.move ⟨[], replyFrame r.gap token v1 v2⟩ (max n 1) := Pipe.move_min _ _
    rw [WriteResult.moves, ← hmove]
    rw [WriteResult.moves] at hfits
    exact hwritten _ (min_le_right _ _) (by omega)
  | zero => exact absurd rfl hw.1
  | interrupted => exact hwritten 0 (Nat.zero_le _) hfits
  | again => exact hwritten 0 (Nat.zero_le _) hfits
  | failed => exact absurd rfl hw.2

/-- Whatever the writes of a reply take: the socket gets the frame from its beginning on, as far as
they go, and when they have taken all of it nothing is left to send. The first of them has to
leave no more than `sendbuff` holds. -/
theorem reply_sent (r : Sender) (token : UInt8) (v1 v2 : Option Bytes) (w : WriteResult)
    (ws : List WriteResult) (hidle : r.Idle) (hw : w.Transient) (hws : ∀ v ∈ ws, v.Transient)
    (htotal : (replyFrame r.gap token v1 v2).length < 2 ^ 31)
    (hfits : (replyFrame r.gap token v1 v2).length - w.moves ≤ maxScPayload) :
    let sent := (r.dispatch token v1 v2 w).run ws
    let taken := w.moves + (ws.map WriteResult.moves).sum
    sent.close = false ∧
      sent.wire = r.wire ++ (replyFrame r.gap token v1 v2).take taken ∧
      (taken < (replyFrame r.gap token v1 v2).length → sent.inWset = true) ∧
      ((replyFrame r.gap token v1 v2).length ≤ taken → sent.send = 0 ∧ sent.tosend = 0) := by
  intro sent taken
  have hsends : sent.Sends r.wire (Pipe.run ⟨[], replyFrame r.gap token v1 v2⟩ (w.moves :: ws.map WriteResult.moves)) :=
    (hidle.dispatch hw htotal hfits).run hws
  have hlength := Pipe.length_left_run ⟨[], replyFrame r.gap token v1 v2⟩ (w.moves :: ws.map WriteResult.moves)
  rw [List.sum_cons] at hlength
  refine ⟨hsends.opened, ?_, ?_, ?_⟩
  · rw [hsends.wire, Pipe.sent_run, List.sum_cons]
    rfl
  · intro hmore
    refine (hsends.busy ?_).1
    rw [← List.length_pos_iff, hlength]
    exact Nat.sub_pos_of_lt hmore
  · intro hall
    have hnil := hsends.idle (List.length_eq_zero_iff.1 (by rw [hlength]; exact Nat.sub_eq_zero_of_le hall))
    exact ⟨hnil.send, hnil.tosend⟩

def freshSender : Sender := ⟨(0, 0, 0), fun _ => 0, 0, 0, false, false, []⟩

theorem freshSender_idle : freshSender.Idle := ⟨rfl, rfl, rfl, rfl⟩

/-- A value of three bytes, of which the first two arrive late. -/
theorem reply_sent_short :
    ((freshSender.dispatch 97 none (some [1, 2, 3]) (.took 13)).run [.again, .took 1, .interrupted, .took 5]).wire =
      replyFrame (0, 0, 0) 97 none (some [1, 2, 3]) := by
  have h := reply_sent freshSender 97 none (some [1, 2, 3]) (.took 13) [.again, .took 1, .interrupted, .took 5]
    freshSender_idle ⟨by decide, by decide⟩ (by unfold WriteResult.Transient; decide) (by decide) (by decide)
  exact h.2.1

theorem run_of_close {r : Sender} (h : r.close = true) (ws : List WriteResult) : r.run ws = r := by
  induction ws with
  | nil => rfl
  | cons w ws ih =>
    have hstep : r.writable w = r := if_pos h
    unfold Sender.run at ih ⊢
    rw [List.foldl_cons, hstep, ih]

/-- What does not fit `sendbuff` is lost, with the connection. -/
theorem dispatch_again_of_gt {r : Sender} {token : UInt8} {v1 v2 : Option Bytes} (hidle : r.Idle)
    (htotal : (replyFrame r.gap token v1 v2).length < 2 ^ 31)
    (hlarge : maxScPayload < (replyFrame r.gap token v1 v2).length) :
    (r.dispatch token v1 v2 .again).close = true ∧ (r.dispatch token v1 v2 .again).wire = r.wire := by
  unfold Sender.dispatch
  rw [if_neg (by simp [hidle.send])]
  simp only [← length_replyFrame r.gap token v1 v2, writevResult, if_pos htotal, Sender.written]
  rw [if_neg (by omega), if_pos (by omega)]
  exact ⟨rfl, by simp [Sender.failDispatch]⟩

/-- A value as long as `sendbuff`, on a socket that would block and then takes everything. -/
theorem reply_sent_fails :
    (replyFrame (0, 0, 0) 65 (some (zeros maxScPayload)) none).length = 131084 ∧
      ((freshSender.dispatch 65 (some (zeros maxScPayload)) none .again).run [.took 131084]).close = true ∧
      ((freshSender.dispatch 65 (some (zeros maxScPayload)) none .again).run [.took 131084]).wire = [] := by
  have hlen : (replyFrame (0, 0, 0) 65 (some (zeros maxScPayload)) none).length = 131084 := by
    rw [length_replyFrame, dbtBytes, Option.getD_some, length_zeros]
    rfl
  have hlost := @dispatch_again_of_gt freshSender 65 (some (zeros maxScPayload)) none freshSender_idle
    (by rw [freshSender, hlen]; decide) (by rw [freshSender, hlen]; decide)
  rw [run_of_close hlost.1]
  exact ⟨hlen, hlost⟩

end RdfStore.Dbms
