import RdfStore.Dbms.Comms

/-!
# Handing a connection to a child (`children.c`)

`atomic_send` sends a message in one `sendmsg`, and again when that would block
or was interrupted.  Its two tests assign to `errno` instead of comparing it:
the value assigned is not zero, so every outcome without bytes is tried again,
and the tests behind them are never reached.  `handoff_fd` sends the request and
then the descriptor, and lets go of the connection.

    atomic_send does what is asked of it on these outcomes, and handoff_fd on those
      ↔ the first outcome of each message that is not transient accepts it whole   (handoff_iff)
-/

namespace RdfStore.Dbms

open ByteMem

/-! ## Outcomes -/

/-- `errno` after a `sendmsg` that failed. -/
inductive SendErrno
  | eagain
  | eintr
  | other (code : Nat)
  deriving DecidableEq

/-- What a `sendmsg` comes to: a number of bytes, 0 when the other side has closed, or a failure. -/
inductive Sendmsg
  | returned (n : Nat)
  | failed (errno : SendErrno)
  deriving DecidableEq

/-- What `sendmsg` returns. -/
def Sendmsg.n : Sendmsg → Int
  | .returned n => n
  | .failed _ => -1

/-- The sending goes on when the outcomes are used up, or has ended. -/
inductive Sending
  | waiting
  | aborted
  | returned (answer : Int) (rest : List Sendmsg)
  deriving DecidableEq

/-! ## `atomic_send` -/

/-- The loop of `atomic_send`. -/
def retrySnd (tosend : Nat) : List Sendmsg → Sending
  | [] => .waiting
  | o :: rest =>
    -- `errno=EAGAIN` and `errno=EINTR` are assignments
    if o.n < 0 ∧ eagain ≠ 0 then retrySnd tosend rest
    else if o.n ≤ 0 ∧ eintr ≠ 0 then retrySnd tosend rest
    else if o.n < 0 then .returned (-1) rest
    else if o.n = 0 then .returned (-1) rest
    else if o.n ≠ tosend then .aborted
    else .returned 0 rest

/-- `atomic_send` -/
def atomicSend (tosend : Nat) (outcomes : List Sendmsg) : Sending :=
  if tosend = 0 then .aborted else retrySnd tosend outcomes

/-! ## `handoff_fd` -/

/-- The types of connections. -/
inductive ConnectionType
  | unk
  | mum
  | client
  | newClient
  | child
  | legacy
  deriving DecidableEq

/-- A `connection` as far as it is handed over and closed. Its request lies in a buffer. -/
structure Handed where
  /-- the pointer -/
  r : UInt32
  type : ConnectionType
  clientfd : Nat
  v1 : Bytes
  v2 : Bytes
  send : Nat
  tosend : Nat
  gotten : Nat
  toget : Nat
  close : Nat
  fits : headerSize + (v1.length + v2.length) < 2 ^ 31

/-- The first message: `TOKEN_FDPASS | F_INTERNAL`, the lengths and the request; `gap` is what
stands in the padding of the header. -/
def Handed.request (r : Handed) (gap : UInt8 × UInt8 × UInt8) : Bytes :=
  (Header.mk 203 gap r.v1.length.toUInt32 r.v2.length.toUInt32).bytes ++ (r.v1 ++ r.v2)

/-- The second message: the pointer; the descriptor goes with it as control data. -/
def Handed.reference (r : Handed) : Bytes := packInt r.r.toNat

/-- `free_connection` and `close_connection` of a connection of type `C_LEGACY`. -/
def Handed.freed (r : Handed) : Handed :=
  { r with type := .unk, clientfd := 0, send := 0, tosend := 0, gotten := 0, toget := 0, close := 2 }

/-- `zap`, with the pointers of the client list. -/
def zap (clientList : List UInt32) (r : Handed) : List UInt32 × Handed :=
  if r.r ∈ clientList then (clientList.erase r.r, r.freed) else (clientList, r)

/-- How a handoff stands: the answer, the client list, the connection and the outcomes left. -/
inductive Handoff
  | waiting
  | aborted
  | returned (answer : Int) (clientList : List UInt32) (r : Handed) (rest : List Sendmsg)

/-- What `handoff_fd` does when both messages are out. -/
def Handed.letGo (r : Handed) (clientList : List UInt32) (rest : List Sendmsg) : Handoff :=
  let z := zap clientList { r with close := 1, type := .legacy }
  .returned 0 z.1 z.2 rest

/-- `handoff_fd` -/
def handoffFd (clientList : List UInt32) (r : Handed) (gap : UInt8 × UInt8 × UInt8)
    (outcomes : List Sendmsg) : Handoff :=
  match atomicSend (r.request gap).length outcomes with
  | .waiting => .waiting
  | .aborted => .aborted
  | .returned answer rest =>
    if answer < 0 then .returned (-1) clientList r rest
    else
      match atomicSend r.reference.length rest with
      | .waiting => .waiting
      | .aborted => .aborted
      | .returned answer rest =>
        if answer < 0 then .returned (-1) clientList r rest else r.letGo clientList rest

/-! ## What is asked of them -/

/-- The outcomes after which a message is sent again. -/
def Sendmsg.Transient (o : Sendmsg) : Prop := o = .failed .eagain ∨ o = .failed .eintr

instance (o : Sendmsg) : Decidable o.Transient := inferInstanceAs (Decidable (_ ∨ _))

/-- The first outcome that is not transient, and the outcomes behind it. -/
def decisive : List Sendmsg → Option (Sendmsg × List Sendmsg)
  | [] => none
  | o :: rest => if o.Transient then decisive rest else some (o, rest)

/-- The message is sent until an outcome is decisive, with the answer 0 when that accepts it whole
and -1 otherwise. -/
def sendAsked (tosend : Nat) (outcomes : List Sendmsg) : Sending :=
  match decisive outcomes with
  | none => .waiting
  | some (o, rest) => .returned (if o = .returned tosend then 0 else -1) rest

/-- The connection is let go of when both messages are accepted, and stays as it is otherwise. -/
def handoffAsked (clientList : List UInt32) (r : Handed) (gap : UInt8 × UInt8 × UInt8)
    (outcomes : List Sendmsg) : Handoff :=
  match decisive outcomes with
  | none => .waiting
  | some (o, rest) =>
    if o = .returned (r.request gap).length then
      match decisive rest with
      | none => .waiting
      | some (o, rest) =>
        if o = .returned r.reference.length then r.letGo clientList rest
        else .returned (-1) clientList r rest
    else .returned (-1) clientList r rest

/-- The first outcome that is not transient, if there is one, accepts the whole message. -/
def AcceptsWhole (tosend : Nat) (outcomes : List Sendmsg) : Prop :=
  ∀ p ∈ decisive outcomes, p.1 = .returned tosend

/-- So it is for both messages of a handoff. -/
def AcceptsBoth (r : Handed) (gap : UInt8 × UInt8 × UInt8) (outcomes : List Sendmsg) : Prop :=
  AcceptsWhole (r.request gap).length outcomes ∧
    ∀ p ∈ decisive outcomes, AcceptsWhole r.reference.length p.2

/-! ## The loop -/

section

variable {tosend : Nat} {outcomes : List Sendmsg}

theorem retrySnd_failed (e : SendErrno) (rest : List Sendmsg) :
    retrySnd tosend (.failed e :: rest) = retrySnd tosend rest := by
  have h : (Sendmsg.failed e).n < 0 ∧ eagain ≠ 0 := by simp [Sendmsg.n, eagain]
  rw [retrySnd, if_pos h]

theorem retrySnd_closed (rest : List Sendmsg) :
    retrySnd tosend (.returned 0 :: rest) = retrySnd tosend rest := by
  have h : ¬ ((Sendmsg.returned 0).n < 0 ∧ eagain ≠ 0) := by simp [Sendmsg.n]
  have h0 : (Sendmsg.returned 0).n ≤ 0 ∧ eintr ≠ 0 := by simp [Sendmsg.n, eintr]
  rw [retrySnd, if_neg h, if_pos h0]

theorem retrySnd_bytes {n : Nat} (hn : n ≠ 0) (rest : List Sendmsg) :
    retrySnd tosend (.returned n :: rest) = if n ≠ tosend then .aborted else .returned 0 rest := by
  have hneg : ¬ (Sendmsg.returned n).n < 0 := by simp [Sendmsg.n]
  have hle : ¬ (Sendmsg.returned n).n ≤ 0 := by
    simp only [Sendmsg.n]
    omega
  have hzero : ¬ (Sendmsg.returned n).n = 0 := by
    simp only [Sendmsg.n]
    omega
  rw [retrySnd, if_neg fun h => hneg h.1, if_neg fun h => hle h.1, if_neg hneg, if_neg hzero]
  simp only [Sendmsg.n, ne_eq, Int.natCast_inj]

theorem retrySnd_transient {o : Sendmsg} (h : o.Transient) (rest : List Sendmsg) :
    retrySnd tosend (o :: rest) = retrySnd tosend rest := by
  rcases h with rfl | rfl
  · exact retrySnd_failed _ _
  · exact retrySnd_failed _ _

/-- The loop never gives up: whatever it returns is 0. -/
theorem retrySnd_returned {answer : Int} {rest : List Sendmsg}
    (h : retrySnd tosend outcomes = .returned answer rest) : answer = 0 := by
  induction outcomes with
  | nil => cases h
  | cons o later ih =>
    cases o with
    | failed e =>
      rw [retrySnd_failed] at h
      exact ih h
    | returned n =>
      by_cases hn : n = 0
      · subst hn
        rw [retrySnd_closed] at h
        exact ih h
      · rw [retrySnd_bytes hn] at h
        split at h
        · cases h
        · injection h with h0
          exact h0.symm

theorem atomicSend_returned {answer : Int} {rest : List Sendmsg}
    (h : atomicSend tosend outcomes = .returned answer rest) : answer = 0 := by
  unfold atomicSend at h
  split at h
  · cases h
  · exact retrySnd_returned h

/-- With outcomes that accept the message whole the loop is what is asked. -/
theorem retrySnd_eq_sendAsked (hsize : tosend ≠ 0) (h : AcceptsWhole tosend outcomes) :
    retrySnd tosend outcomes = sendAsked tosend outcomes := by
  induction outcomes with
  | nil => rfl
  | cons o rest ih =>
    by_cases ht : o.Transient
    · have hdec : decisive (o :: rest) = decisive rest := if_pos ht
      have hrest : AcceptsWhole tosend rest := by
        unfold AcceptsWhole at h ⊢
        rwa [hdec] at h
      rw [retrySnd_transient ht, ih hrest, sendAsked, sendAsked, hdec]
    · have hdec : decisive (o :: rest) = some (o, rest) := if_neg ht
      have ho : o = .returned tosend := h (o, rest) hdec
      subst ho
      rw [retrySnd_bytes hsize, if_neg (not_not.2 rfl), sendAsked, hdec]
      simp only [if_true]

/-- `atomic_send` does what is asked exactly when the message is not empty and is accepted whole by
the first outcome that is not transient. -/
theorem atomicSend_eq_iff :
    atomicSend tosend outcomes = sendAsked tosend outcomes ↔ tosend ≠ 0 ∧ AcceptsWhole tosend outcomes := by
  constructor
  · intro h
    have hsize : tosend ≠ 0 := by
      rintro rfl
      rw [atomicSend, if_pos rfl, sendAsked] at h
      split at h <;> cases h
    refine ⟨hsize, ?_⟩
    rintro ⟨o, rest⟩ hdec
    have hasked : sendAsked tosend outcomes = .returned (if o = .returned tosend then 0 else -1) rest := by
      rw [sendAsked, hdec]
    have hzero := atomicSend_returned (h.trans hasked)
    by_contra ho
    rw [if_neg ho] at hzero
    cases hzero
  · rintro ⟨hsize, h⟩
    rw [atomicSend, if_neg hsize, retrySnd_eq_sendAsked hsize h]

end

/-! ## Both messages -/

section

variable {clientList : List UInt32} {r : Handed} {gap : UInt8 × UInt8 × UInt8} {outcomes : List Sendmsg}

theorem request_length_ne_zero : (r.request gap).length ≠ 0 := by
  simp [Handed.request, headerSize]

theorem reference_length_ne_zero : r.reference.length ≠ 0 := by
  simp [Handed.reference, packInt]

/-- A handoff never fails. -/
theorem handoffFd_returned {answer : Int} {clientList' : List UInt32} {r' : Handed} {rest : List Sendmsg}
    (h : handoffFd clientList r gap outcomes = .returned answer clientList' r' rest) : answer = 0 := by
  unfold handoffFd at h
  split at h
  · cases h
  · cases h
  · next hfirst =>
    rw [if_neg (by rw [atomicSend_returned hfirst]; decide)] at h
    split at h
    · cases h
    · cases h
    · next hsecond =>
      rw [if_neg (by rw [atomicSend_returned hsecond]; decide)] at h
      injection h with h0
      exact h0.symm

/-- With outcomes that accept both messages whole the handoff is what is asked. -/
theorem handoffFd_eq_handoffAsked (h : AcceptsBoth r gap outcomes) :
    handoffFd clientList r gap outcomes = handoffAsked clientList r gap outcomes := by
  obtain ⟨hfirst, hsecond⟩ := h
  rw [handoffFd, handoffAsked, atomicSend_eq_iff.2 ⟨request_length_ne_zero, hfirst⟩, sendAsked]
  cases hdec : decisive outcomes with
  | none => rfl
  | some p =>
    obtain ⟨o, rest⟩ := p
    have ho : o = .returned (r.request gap).length := hfirst (o, rest) hdec
    have hrest : AcceptsWhole r.reference.length rest := hsecond (o, rest) hdec
    simp only [if_pos ho, lt_irrefl, if_false]
    rw [atomicSend_eq_iff.2 ⟨reference_length_ne_zero, hrest⟩, sendAsked]
    cases hdec' : decisive rest with
    | none => rfl
    | some p' =>
      obtain ⟨o', rest'⟩ := p'
      have ho' : o' = .returned r.reference.length := hrest (o', rest') hdec'
      simp only [if_pos ho', lt_irrefl, if_false]

theorem handoffFd_eq_iff :
    handoffFd clientList r gap outcomes = handoffAsked clientList r gap outcomes ↔
      AcceptsBoth r gap outcomes := by
  refine ⟨fun h => ?_, handoffFd_eq_handoffAsked⟩
  have hfirst : AcceptsWhole (r.request gap).length outcomes := by
    rintro ⟨o, rest⟩ hdec
    by_contra ho
    have hasked : handoffAsked clientList r gap outcomes = .returned (-1) clientList r rest := by
      rw [handoffAsked, hdec]
      exact if_neg ho
    have hzero := handoffFd_returned (h.trans hasked)
    cases hzero
  refine ⟨hfirst, ?_⟩
  rintro ⟨o, rest⟩ hdec ⟨o', rest'⟩ hdec'
  by_contra ho'
  have hasked : handoffAsked clientList r gap outcomes = .returned (-1) clientList r rest' := by
    have hrest : decisive rest = some (o', rest') := hdec'
    rw [handoffAsked, hdec]
    simp only [if_pos (hfirst (o, rest) hdec), hrest]
    exact if_neg ho'
  have hzero := handoffFd_returned (h.trans hasked)
  cases hzero

end

/-- A message of any length with any outcomes of its sending, and any connection with any outcomes of
its handing over. -/
theorem handoff_iff (tosend : Nat) (clientList : List UInt32) (r : Handed) (gap : UInt8 × UInt8 × UInt8)
    (outcomes : List Sendmsg) :
    (atomicSend tosend outcomes = sendAsked tosend outcomes ↔ tosend ≠ 0 ∧ AcceptsWhole tosend outcomes) ∧
      (handoffFd clientList r gap outcomes = handoffAsked clientList r gap outcomes ↔
        AcceptsBoth r gap outcomes) :=
  ⟨atomicSend_eq_iff, handoffFd_eq_iff⟩

/-- A client with nothing to say. -/
def idleClient : Handed := ⟨4096, .client, 7, [], [], 0, 0, 0, 0, 0, by decide⟩

/-- The child has closed, or the pipe is broken: both are tried again for as long as there are
outcomes, where -1 is due at once. -/
theorem handoff_closed :
    (∀ n, atomicSend 12 (List.replicate n (.returned 0)) = .waiting) ∧
      sendAsked 12 [.returned 0] = .returned (-1) [] ∧
      atomicSend 12 [.failed (.other 32), .failed (.other 32)] = .waiting ∧
      sendAsked 12 [.failed (.other 32), .failed (.other 32)] = .returned (-1) [.failed (.other 32)] ∧
      handoffFd [4096] idleClient (0, 0, 0) [.returned 0] ≠ handoffAsked [4096] idleClient (0, 0, 0) [.returned 0] := by
  refine ⟨fun n => ?_, by decide, by decide, by decide, fun h => ?_⟩
  · have hloop : retrySnd 12 (List.replicate n (.returned 0)) = .waiting := by
      induction n with
      | zero => rfl
      | succ n ih => rw [List.replicate_succ, retrySnd_closed, ih]
    rw [atomicSend, if_neg (by decide), hloop]
  · cases h

end RdfStore.Dbms
