import RdfStore.Dbms.Wire
import RdfStore.Lib.Frames

/-!
# Reading requests off the wire (`deamon.c`, `loop.c`)

The server peeks at the header of a request, and when it is all there reads it
again together with as much of the payload as there is.  What is missing is
collected by later calls, which find their place through `toget` and `gotten`.
The sum of the two lengths is of 32 bits, and only the first length has a limit
of its own.

    every request is parsed as it was sent, once and in order
      ↔ no sum of two lengths is 2^32 or more                              (framed_iff)
-/

namespace RdfStore.Dbms

open ByteMem Frames

/-! ## What the client sends -/

/-- A request, with lengths that can be declared. -/
structure ClientRequest where
  token : UInt8
  gap : UInt8 × UInt8 × UInt8
  v1 : Bytes
  v2 : Bytes
  fits1 : v1.length < 2 ^ 32
  fits2 : v2.length < 2 ^ 32

/-- The lengths are put in network order. -/
def ClientRequest.header (req : ClientRequest) : Header :=
  ⟨req.token, req.gap, req.v1.length.toUInt32, req.v2.length.toUInt32⟩

def ClientRequest.wire (req : ClientRequest) : Bytes := req.header.bytes ++ (req.v1 ++ req.v2)

/-! ## The connection -/

/-- `DBT`: an offset into `recbuff`, or NULL, and a size. -/
structure Dbt where
  data : Option Nat
  size : UInt32

/-- The bytes a `DBT` stands for, if it stays within `recbuff`. -/
def Dbt.bytes (recbuff : Buf) (v : Dbt) : Option Bytes :=
  if v.size = 0 then some []
  else
    match v.data with
    | none => none
    | some data =>
      if data + v.size.toNat ≤ maxCsPayload then some (takeBytes v.size.toNat (ByteMem.seek data recbuff)) else none

/-- The fields of `connection` that have to do with reading. -/
structure Reader where
  token : UInt8
  v1 : Dbt
  v2 : Dbt
  recbuff : Buf
  toget : Nat
  gotten : Nat
  tosend : Nat
  close : Bool

/-- What `parse_request` is called with. -/
structure Call where
  token : UInt8
  v1 : Option Bytes
  v2 : Option Bytes
  deriving DecidableEq

/-- A connection, the bytes before it, how many of these have arrived, and the calls of
`parse_request`. -/
structure Channel where
  r : Reader
  stream : Bytes
  arrived : Nat
  calls : List Call

/-! ## Reading -/

/-- What `recv` and `read` return: some bytes, 0, or -1 with EINTR, EAGAIN or another error. -/
inductive ReadResult
  | took (n : Nat)
  | eof
  | interrupted
  | again
  | failed
  deriving DecidableEq

/-- What `readv` returns in the end; after EINTR and EAGAIN it is called again. -/
inductive ReadvResult
  | took (n : Nat)
  | eof
  | failed
  deriving DecidableEq

/-- What comes of `parse_request`: whether it closes the connection, and what is left to send. -/
structure Handled where
  close : Bool
  tosend : Nat

/-- Bytes taken when `asked` are asked for: what has arrived, or a part of it. -/
def Channel.count (c : Channel) (n asked : Nat) : Nat := min (max n 1) (min asked c.arrived)

def Channel.consume (c : Channel) (n : Nat) : Channel :=
  { c with stream := c.stream.drop n, arrived := c.arrived - n }

def Channel.closed (c : Channel) : Channel := { c with r.close := true }

/-- `final_read` -/
def finalRead (handled : Handled) (c : Channel) : Channel :=
  { c with
    r := { c.r with toget := 0, gotten := 0, close := handled.close, tosend := handled.tosend }
    calls := c.calls ++ [⟨c.r.token, c.r.v1.bytes c.r.recbuff, c.r.v2.bytes c.r.recbuff⟩] }

/-- `n` bytes go to `recbuff` behind those that were gotten, and all that was missing may be there
then. -/
def received (n : Nat) (handled : Handled) (c : Channel) : Channel :=
  let r := { c.r with
    recbuff := writeAt c.r.recbuff c.r.gotten (c.stream.take n)
    gotten := c.r.gotten + n }
  let c := { c.consume n with r := r }
  if r.gotten ≥ r.toget then finalRead handled c else c

/-- The `readv` of `initial_read`, which skips the header. The bytes that were peeked at are still
there. -/
def readvRest (readv : ReadvResult) (handled : Handled) (c : Channel) : Channel :=
  match readv with
  | .took n =>
    let m := c.count (max n headerSize) (headerSize + c.r.toget)
    received (m - headerSize) handled (c.consume headerSize)
  | .eof => c.closed
  | .failed => c.closed

/-- `initial_read` with the header in; `len1 + len2` is of 32 bits. -/
def readCommand (cmd : Header) (readv : ReadvResult) (handled : Handled) (c : Channel) : Channel :=
  let r := { c.r with token := cmd.token &&& 31 }
  -- the size of `v2` is not looked at: both comparisons are with the size of `v1`
  if cmd.len1.toNat > maxSize then c.closed
  else if cmd.len1.toNat > maxSize then c.closed
  else if cmd.len1 + cmd.len2 > 0 then
    if (cmd.len1 + cmd.len2).toNat > maxCsPayload then c.closed
    else
      readvRest readv handled { c with
        r := { r with
          v1 := ⟨some 0, cmd.len1⟩
          v2 := ⟨some cmd.len1.toNat, cmd.len2⟩
          toget := (cmd.len1 + cmd.len2).toNat
          gotten := 0 } }
  else
    readvRest readv handled { c with
      r := { r with v1 := ⟨none, cmd.len1⟩, v2 := ⟨none, cmd.len2⟩, toget := 0, gotten := 0 } }

/-- `initial_read`. What a shorter header leaves in `cmd` is overwritten before it is read. -/
def initialRead (peek : ReadResult) (readv : ReadvResult) (handled : Handled) (c : Channel) : Channel :=
  match peek with
  | .took n =>
    if c.count n headerSize ≠ headerSize then c
    else readCommand (.ofBytes c.stream) readv handled c
  | .eof => c.closed
  | .interrupted => c
  | .again => c
  | .failed => c.closed

/-- `continue_read` -/
def continueRead (read : ReadResult) (handled : Handled) (c : Channel) : Channel :=
  match read with
  | .took n =>
    -- nothing there is EAGAIN
    if c.count n (c.r.toget - c.r.gotten) = 0 then c
    else received (c.count n (c.r.toget - c.r.gotten)) handled c
  | .eof => c.closed
  | .interrupted => c
  | .again => c
  | .failed => c.closed

/-! ## Runs -/

/-- Bytes arrive, the descriptor is readable, or the reply has gone out. -/
inductive Event
  | arrive (n : Nat)
  | readable (read : ReadResult) (readv : ReadvResult) (handled : Handled)
  | sent

/-- A connection in `select_loop`. -/
def Channel.step (c : Channel) (e : Event) : Channel :=
  if c.r.close then c
  else
    match e with
    | .arrive n => { c with arrived := min (c.arrived + n) c.stream.length }
    | .readable read readv handled =>
      -- a request while the reply to the last one is not out
      if c.r.tosend ≠ 0 then c.closed
      else if c.r.toget = 0 then initialRead read readv handled c
      else continueRead read handled c
    | .sent => { c with r.tosend := 0 }

def Channel.run (c : Channel) (events : List Event) : Channel := events.foldl Channel.step c

/-- `handle_new_connection`, with what the client is going to send. -/
def Channel.start (recbuff : Buf) (reqs : List ClientRequest) : Channel where
  r := ⟨0, ⟨none, 0⟩, ⟨none, 0⟩, recbuff, 0, 0, 0, false⟩
  stream := reqs.flatMap ClientRequest.wire
  arrived := 0
  calls := []

/-! ## What framing means -/

/-- The sizes pass the comparisons of `initial_read`. -/
def ClientRequest.Passes (req : ClientRequest) : Prop :=
  req.v1.length ≤ maxSize ∧ (req.v1.length + req.v2.length) % 2 ^ 32 ≤ maxCsPayload

/-- `parse_request` called with what was sent. -/
def ClientRequest.call (req : ClientRequest) : Call := ⟨req.token &&& 31, some req.v1, some req.v2⟩

/-- The first requests have been parsed as they were sent, and of the others nothing but a part of
the next has been read. -/
def Channel.InStep (reqs : List ClientRequest) (c : Channel) : Prop :=
  ∃ done todo, reqs = done ++ todo ∧ c.calls = done.map ClientRequest.call ∧
    Left ClientRequest.wire todo c.stream

/-- Nothing fails, no request closes the connection, and none comes before the reply to the last
one is out. -/
def Event.Calm (c : Channel) : Event → Prop
  | .arrive _ => True
  | .readable read readv handled =>
    c.r.tosend = 0 ∧ read ≠ .eof ∧ read ≠ .failed ∧ readv ≠ .eof ∧ readv ≠ .failed ∧ handled.close = false
  | .sent => True

def CalmRun : List Event → Channel → Prop
  | [], _ => True
  | e :: events, c => e.Calm c ∧ CalmRun events (c.step e)

/-- While the connection is open it is in step; it stays open in a calm run; and once everything has
arrived, whoever reads gets on. -/
structure Framed (reqs : List ClientRequest) (start : Channel) (events : List Event) : Prop where
  inStep : (start.run events).r.close = false → (start.run events).InStep reqs
  stays : CalmRun events start → (start.run events).r.close = false
  advances : ∀ n m handled, headerSize ≤ n → (start.run events).r.close = false →
    (start.run events).r.tosend = 0 → (start.run events).arrived = (start.run events).stream.length →
    (start.run events).stream ≠ [] →
    ((start.run events).step (.readable (.took n) (.took m) handled)).stream.length <
      (start.run events).stream.length

/-! ## Sizes -/

def ClientRequest.payload (req : ClientRequest) : Bytes := req.v1 ++ req.v2

/-- The sum of the sizes is of 32 bits. -/
def ClientRequest.SumFits (req : ClientRequest) : Prop := req.v1.length + req.v2.length < 2 ^ 32

instance (req : ClientRequest) : Decidable req.SumFits := inferInstanceAs (Decidable (_ < _))

theorem ClientRequest.wire_ne_nil (req : ClientRequest) : req.wire ≠ [] := by
  simp [wire, Header.bytes]

theorem ClientRequest.toNat_len1 (req : ClientRequest) : req.header.len1.toNat = req.v1.length := by
  simpa [header] using Nat.mod_eq_of_lt req.fits1

theorem ClientRequest.toNat_len2 (req : ClientRequest) : req.header.len2.toNat = req.v2.length := by
  simpa [header] using Nat.mod_eq_of_lt req.fits2

theorem ClientRequest.toNat_sum (req : ClientRequest) :
    (req.header.len1 + req.header.len2).toNat = (req.v1.length + req.v2.length) % 2 ^ 32 := by
  rw [UInt32.toNat_add, req.toNat_len1, req.toNat_len2]

theorem ClientRequest.SumFits.toNat_sum {req : ClientRequest} (h : req.SumFits) :
    (req.header.len1 + req.header.len2).toNat = req.payload.length := by
  rw [req.toNat_sum, Nat.mod_eq_of_lt h, payload, List.length_append]

/-! ## A request in the buffer -/

theorem Dbt.bytes_some {recbuff : Buf} {data : Nat} {size : UInt32} {v : Bytes}
    (hsize : size.toNat = v.length) (hfit : data + v.length ≤ maxCsPayload)
    (hv : takeBytes v.length (ByteMem.seek data recbuff) = v) : (⟨some data, size⟩ : Dbt).bytes recbuff = some v := by
  unfold bytes
  split
  · next h0 =>
    simp only at h0
    rw [h0] at hsize
    rw [List.length_eq_zero_iff.1 hsize.symm]
  · simp only [hsize]
    rw [if_pos hfit, hv]

/-- The two pieces of a payload that is there as a whole. -/
theorem payload_bytes {req : ClientRequest} {recbuff : Buf}
    (hfit : req.payload.length ≤ maxCsPayload) (h : takeBytes req.payload.length recbuff = req.payload) :
    (⟨some 0, req.header.len1⟩ : Dbt).bytes recbuff = some req.v1 ∧
      (⟨some req.header.len1.toNat, req.header.len2⟩ : Dbt).bytes recbuff = some req.v2 := by
  unfold ClientRequest.payload at h hfit
  rw [List.length_append] at h hfit
  rw [takeBytes_add] at h
  obtain ⟨h1, h2⟩ := List.append_inj h (by simp)
  constructor
  · refine Dbt.bytes_some req.toNat_len1 (by omega) ?_
    rw [seek_zero]
    exact h1
  · rw [req.toNat_len1]
    exact Dbt.bytes_some req.toNat_len2 hfit h2

/-! ## Where a reader is -/

/-- Between two requests. -/
structure Channel.Between (todo : List ClientRequest) (c : Channel) : Prop where
  toget : c.r.toget = 0
  stream : c.stream = todo.flatMap ClientRequest.wire

/-- The header of a request is read, and a part of its payload. Once the payload is there, the
request is parsed as it was sent. -/
structure Channel.Collecting (req : ClientRequest) (later : List ClientRequest) (c : Channel) : Prop where
  toget : c.r.toget = req.payload.length
  got : takeBytes c.r.gotten c.r.recbuff ++ c.stream = req.payload ++ later.flatMap ClientRequest.wire
  parsed : ∀ recbuff, takeBytes req.payload.length recbuff = req.payload →
    (⟨c.r.token, c.r.v1.bytes recbuff, c.r.v2.bytes recbuff⟩ : Call) = req.call

/-- The first requests are parsed, and of the others a part of the next may be in the buffer. -/
inductive Channel.Place : List ClientRequest → Channel → Prop
  | between {todo c} (h : c.Between todo) : Place todo c
  | inside {req later c} (h : c.Collecting req later) (hmore : c.r.gotten < c.r.toget) : Place (req :: later) c

structure Channel.Sound (done todo : List ClientRequest) (c : Channel) : Prop where
  calls : c.calls = done.map ClientRequest.call
  arrived : c.arrived ≤ c.stream.length
  place : c.Place todo

theorem received_all {n : Nat} {handled : Handled} {c : Channel} (h : c.r.toget ≤ c.r.gotten + n) :
    received n handled c = finalRead handled { c.consume n with
      r := { c.r with
        recbuff := writeAt c.r.recbuff c.r.gotten (c.stream.take n)
        gotten := c.r.gotten + n } } := if_pos h

theorem Channel.Collecting.received_got {req : ClientRequest} {later : List ClientRequest} {c : Channel}
    {n : Nat} (h : c.Collecting req later) (hn : n ≤ c.stream.length) :
    takeBytes (c.r.gotten + n) (writeAt c.r.recbuff c.r.gotten (c.stream.take n)) ++ c.stream.drop n =
      req.payload ++ later.flatMap ClientRequest.wire := by
  have hbuf := takeBytes_writeAt c.r.gotten (c.stream.take n) c.r.recbuff
  rw [List.length_take, Nat.min_eq_left hn] at hbuf
  rw [hbuf, List.append_assoc, List.take_append_drop, h.got]

/-- The last bytes of a payload. -/
theorem Channel.Collecting.last {req : ClientRequest} {later : List ClientRequest} {c : Channel} {n : Nat}
    {handled : Handled} (h : c.Collecting req later) (hn : n ≤ c.stream.length)
    (hlast : c.r.gotten + n = c.r.toget) :
    (received n handled c).Between later ∧ (received n handled c).calls = c.calls ++ [req.call] := by
  have hgot := h.received_got hn
  rw [hlast, h.toget] at hgot
  obtain ⟨hpayload, hrest⟩ := List.append_inj hgot (by simp)
  have hparsed := h.parsed _ hpayload
  rw [received_all hlast.ge]
  exact ⟨⟨rfl, hrest⟩, by simp only [finalRead, Channel.consume, hparsed]⟩

/-- Some bytes of a payload, not the last ones. -/
theorem Channel.Collecting.part {req : ClientRequest} {later : List ClientRequest} {c : Channel} {n : Nat}
    {handled : Handled} (h : c.Collecting req later) (hn : n ≤ c.stream.length)
    (hmore : c.r.gotten + n < c.r.toget) :
    (received n handled c).Place (req :: later) ∧ (received n handled c).calls = c.calls := by
  unfold received
  simp only [Channel.consume]
  rw [if_neg (by omega)]
  exact ⟨.inside ⟨h.toget, h.received_got hn, h.parsed⟩ hmore, rfl⟩

@[simp] theorem received_stream (n : Nat) (handled : Handled) (c : Channel) :
    (received n handled c).stream = c.stream.drop n := by
  unfold received
  simp only [Channel.consume]
  split <;> rfl

@[simp] theorem received_arrived (n : Nat) (handled : Handled) (c : Channel) :
    (received n handled c).arrived = c.arrived - n := by
  unfold received
  simp only [Channel.consume]
  split <;> rfl

/-! ## A header -/

/-- The connection when the header of a request that passes has been looked at. -/
def Channel.loaded (req : ClientRequest) (c : Channel) : Channel :=
  let sum := req.header.len1 + req.header.len2
  { c with
    r := { c.r with
      token := req.token &&& 31
      v1 := ⟨if sum > 0 then some 0 else none, req.header.len1⟩
      v2 := ⟨if sum > 0 then some req.header.len1.toNat else none, req.header.len2⟩
      toget := sum.toNat
      gotten := 0 } }

theorem readCommand_passes {req : ClientRequest} (hpass : req.Passes) (readv : ReadvResult) (handled : Handled)
    (c : Channel) : readCommand req.header readv handled c = readvRest readv handled (c.loaded req) := by
  have hlen1 : ¬ req.header.len1.toNat > maxSize := by
    rw [req.toNat_len1]
    exact not_lt.2 hpass.1
  have hmax : ¬ (req.header.len1 + req.header.len2).toNat > maxCsPayload := by
    rw [req.toNat_sum]
    exact not_lt.2 hpass.2
  unfold readCommand Channel.loaded
  simp only [if_neg hlen1, if_neg hmax]
  split
  · rfl
  · next hzero =>
    have hnone : (req.header.len1 + req.header.len2).toNat = 0 := by
      simpa [UInt32.lt_iff_toNat_lt] using hzero
    rw [hnone]
    rfl

theorem ofBytes_wire (req : ClientRequest) (rest : Bytes) :
    Header.ofBytes (req.wire ++ rest) = req.header := by
  rw [ClientRequest.wire, List.append_assoc, Header.ofBytes_append]

/-- The bytes behind the header, when the sum fits. -/
theorem loaded_collecting {req : ClientRequest} {later : List ClientRequest} {c : Channel}
    (hpass : req.Passes) (hsum : req.SumFits) (hstream : c.stream = req.wire ++ later.flatMap ClientRequest.wire) :
    ((c.loaded req).consume headerSize).Collecting req later := by
  have hfit : req.payload.length ≤ maxCsPayload := by
    rw [← hsum.toNat_sum, req.toNat_sum]
    exact hpass.2
  refine ⟨hsum.toNat_sum, ?_, ?_⟩
  · have hrest : c.stream.drop headerSize = req.payload ++ later.flatMap ClientRequest.wire := by
      rw [hstream, ClientRequest.wire, List.append_assoc, ← req.header.length_bytes, List.drop_left]
      rfl
    exact hrest
  · intro recbuff hpayload
    simp only [Channel.consume, Channel.loaded]
    split
    · obtain ⟨h1, h2⟩ := payload_bytes hfit hpayload
      rw [h1, h2]
      rfl
    · next hzero =>
      have hnone : (req.v1 ++ req.v2).length = 0 := by
        rw [← ClientRequest.payload, ← hsum.toNat_sum]
        simpa [UInt32.lt_iff_toNat_lt] using hzero
      obtain ⟨h1, h2⟩ := List.append_eq_nil_iff.1 (List.length_eq_zero_iff.1 hnone)
      simp only [ClientRequest.header, ClientRequest.call, h1, h2]
      rfl

/-! ## One event -/

/-- A channel after an event: the same requests, perhaps one more of them parsed. -/
def Channel.Goes (reqs : List ClientRequest) (c : Channel) : Prop :=
  ∃ done todo, reqs = done ++ todo ∧ c.Sound done todo

theorem Channel.Sound.goes {done todo : List ClientRequest} {c : Channel} (h : c.Sound done todo) :
    c.Goes (done ++ todo) := ⟨done, todo, rfl, h⟩

theorem Channel.Collecting.goes {req : ClientRequest} {later done : List ClientRequest} {c : Channel}
    {n : Nat} {handled : Handled} (h : c.Collecting req later)
    (hcalls : c.calls = done.map ClientRequest.call) (harrived : c.arrived ≤ c.stream.length)
    (hn : n ≤ c.arrived) (hmissing : c.r.gotten + n ≤ c.r.toget) :
    (received n handled c).Goes (done ++ req :: later) := by
  have hstream : (received n handled c).arrived ≤ (received n handled c).stream.length := by
    rw [received_arrived, received_stream, List.length_drop]
    omega
  obtain hlast | hmore := hmissing.eq_or_lt
  · obtain ⟨hbetween, hcall⟩ := @h.last _ _ _ n handled (hn.trans harrived) hlast
    refine ⟨done ++ [req], later, by simp, ?_, hstream, .between hbetween⟩
    rw [hcall, hcalls, List.map_append]
    rfl
  · obtain ⟨hplace, hsame⟩ := @h.part _ _ _ n handled (hn.trans harrived) hmore
    exact ⟨done, req :: later, rfl, hsame.trans hcalls, hstream, hplace⟩

/-- The header of a request that passes, with a sum that fits. -/
theorem readCommand_goes {req : ClientRequest} {later done : List ClientRequest} {c : Channel}
    {readv : ReadvResult} {handled : Handled} (hpass : req.Passes) (hsum : req.SumFits)
    (hstream : c.stream = req.wire ++ later.flatMap ClientRequest.wire)
    (hcalls : c.calls = done.map ClientRequest.call) (harrived : c.arrived ≤ c.stream.length)
    (hopen : (readCommand req.header readv handled c).r.close = false) :
    (readCommand req.header readv handled c).Goes (done ++ req :: later) := by
  rw [readCommand_passes hpass] at hopen ⊢
  cases readv with
  | took n =>
    refine (loaded_collecting hpass hsum hstream).goes hcalls ?_ ?_ ?_
    · simp only [Channel.consume, Channel.loaded, List.length_drop]
      omega
    · simp only [Channel.consume, Channel.count]
      omega
    · simp only [Channel.consume, Channel.count, Channel.loaded]
      omega
  | eof => cases hopen
  | failed => cases hopen

theorem initialRead_goes {done todo : List ClientRequest} {c : Channel} {peek : ReadResult}
    {readv : ReadvResult} {handled : Handled} (hreqs : ∀ req ∈ todo, req.Passes ∧ req.SumFits)
    (h : c.Sound done todo) (hbetween : c.Between todo)
    (hopen : (initialRead peek readv handled c).r.close = false) :
    (initialRead peek readv handled c).Goes (done ++ todo) := by
  cases peek with
  | took n =>
    simp only [initialRead] at hopen ⊢
    split at hopen
    · next hshort =>
      rw [if_pos hshort]
      exact h.goes
    · next hwhole =>
      rw [if_neg hwhole]
      cases todo with
      | nil =>
        -- no byte is left that could make up a header
        have harrived := h.arrived
        rw [hbetween.stream] at harrived
        simp only [Channel.count, headerSize, List.flatMap_nil, List.length_nil] at hwhole harrived
        omega
      | cons req later =>
        obtain ⟨hpass, hsum⟩ := hreqs req List.mem_cons_self
        have hstream : c.stream = req.wire ++ later.flatMap ClientRequest.wire := hbetween.stream
        have hcmd : Header.ofBytes c.stream = req.header := by
          rw [hstream, ofBytes_wire]
        rw [hcmd] at hopen ⊢
        exact readCommand_goes hpass hsum hstream h.calls h.arrived hopen
  | eof => cases hopen
  | interrupted => exact h.goes
  | again => exact h.goes
  | failed => cases hopen

theorem continueRead_goes {done later : List ClientRequest} {req : ClientRequest} {c : Channel}
    {read : ReadResult} {handled : Handled} (h : c.Sound done (req :: later))
    (hinside : c.Collecting req later) (hopen : (continueRead read handled c).r.close = false) :
    (continueRead read handled c).Goes (done ++ req :: later) := by
  cases read with
  | took n =>
    simp only [continueRead]
    split
    · exact h.goes
    · refine hinside.goes h.calls h.arrived ?_ ?_
      · unfold Channel.count
        omega
      · unfold Channel.count at *
        omega
  | eof => cases hopen
  | interrupted => exact h.goes
  | again => exact h.goes
  | failed => cases hopen

theorem Channel.Place.toget_eq_zero {todo : List ClientRequest} {c : Channel} (h : c.Place todo)
    (htoget : c.r.toget = 0) : c.Between todo := by
  cases h with
  | between h => exact h
  | inside h hmore => omega

theorem Channel.Place.toget_ne_zero {todo : List ClientRequest} {c : Channel} (h : c.Place todo)
    (htoget : c.r.toget ≠ 0) :
    ∃ req later, todo = req :: later ∧ c.Collecting req later ∧ c.r.gotten < c.r.toget := by
  cases h with
  | between h => exact absurd h.toget htoget
  | inside h hmore => exact ⟨_, _, rfl, h, hmore⟩

theorem Channel.Place.congr {todo : List ClientRequest} {c d : Channel} (h : c.Place todo)
    (hstream : d.stream = c.stream)
    (hr : d.r = { c.r with tosend := d.r.tosend }) : d.Place todo := by
  cases h with
  | between h => exact .between ⟨by rw [hr]; exact h.toget, hstream.trans h.stream⟩
  | inside h hmore =>
    refine .inside ⟨?_, ?_, ?_⟩ ?_
    · rw [hr]
      exact h.toget
    · rw [hr, hstream]
      exact h.got
    · rw [hr]
      exact h.parsed
    · rw [hr]
      exact hmore

theorem step_goes {reqs : List ClientRequest} {c : Channel} {e : Event}
    (hreqs : ∀ req ∈ reqs, req.Passes ∧ req.SumFits) (h : c.Goes reqs) (hopen : (c.step e).r.close = false) :
    (c.step e).Goes reqs := by
  obtain ⟨done, todo, rfl, h⟩ := h
  unfold Channel.step at hopen ⊢
  split at hopen
  · next hclosed => exact absurd hopen (by simp [hclosed])
  · next hnot =>
    rw [if_neg hnot]
    cases e with
    | arrive n => exact ⟨done, todo, rfl, h.calls, min_le_right _ _, h.place.congr rfl rfl⟩
    | readable read readv handled =>
      simp only at hopen ⊢
      split at hopen
      · cases hopen
      · next hsent =>
        rw [if_neg hsent]
        split at hopen
        · next htoget =>
          rw [if_pos htoget]
          exact initialRead_goes (fun req hreq => hreqs req (List.mem_append_right _ hreq)) h
            (h.place.toget_eq_zero htoget) hopen
        · next htoget =>
          rw [if_neg htoget]
          obtain ⟨req, later, rfl, hinside, -⟩ := h.place.toget_ne_zero htoget
          exact continueRead_goes h hinside hopen
    | sent => exact ⟨done, todo, rfl, h.calls, h.arrived, h.place.congr rfl rfl⟩

/-! ## Runs -/

theorem start_goes (recbuff : Buf) (reqs : List ClientRequest) : (Channel.start recbuff reqs).Goes reqs :=
  ⟨[], reqs, rfl, rfl, Nat.zero_le _, .between ⟨rfl, rfl⟩⟩

theorem run_of_closed {c : Channel} (h : c.r.close = true) (events : List Event) : c.run events = c := by
  induction events with
  | nil => rfl
  | cons e events ih =>
    have hstep : c.step e = c := if_pos h
    unfold Channel.run at ih ⊢
    rw [List.foldl_cons, hstep, ih]

theorem run_goes {reqs : List ClientRequest} {c : Channel} {events : List Event}
    (hreqs : ∀ req ∈ reqs, req.Passes ∧ req.SumFits) (h : c.Goes reqs)
    (hopen : (c.run events).r.close = false) : (c.run events).Goes reqs := by
  induction events generalizing c with
  | nil => exact h
  | cons e events ih =>
    have hrun : c.run (e :: events) = (c.step e).run events := rfl
    rw [hrun] at hopen ⊢
    cases hclosed : (c.step e).r.close with
    | false => exact ih (step_goes hreqs h hclosed) hopen
    | true =>
      rw [run_of_closed hclosed, hclosed] at hopen
      cases hopen

theorem Channel.Place.left {todo : List ClientRequest} {c : Channel} (h : c.Place todo) :
    Left ClientRequest.wire todo c.stream := by
  cases h with
  | between h =>
    rw [h.stream]
    exact .of_flatMap ClientRequest.wire_ne_nil todo
  | @inside req later _ h hmore =>
    refine @Left.of_append _ _ _ req later (req.header.bytes ++ takeBytes c.r.gotten c.r.recbuff) _ ?_ ?_
    · rw [h.toget] at hmore
      rw [ClientRequest.wire, List.length_append, List.length_append, length_takeBytes]
      exact Nat.add_lt_add_left hmore _
    · rw [List.append_assoc, h.got, ClientRequest.wire, List.append_assoc]
      rfl

theorem Channel.Goes.inStep {reqs : List ClientRequest} {c : Channel} (h : c.Goes reqs) : c.InStep reqs := by
  obtain ⟨done, todo, rfl, h⟩ := h
  exact ⟨done, todo, rfl, h.calls, h.place.left⟩

/-! ## A calm run -/

@[simp] theorem received_close {n : Nat} {handled : Handled} {c : Channel} (hopen : c.r.close = false)
    (hhandled : handled.close = false) : (received n handled c).r.close = false := by
  unfold received
  simp only [Channel.consume]
  split
  · exact hhandled
  · exact hopen

/-- The header of a request that is next. -/
theorem ofBytes_stream {todo : List ClientRequest} {c : Channel} (h : c.Between todo)
    (harrived : c.arrived ≤ c.stream.length) (hwhole : headerSize ≤ c.arrived) :
    ∃ req ∈ todo, Header.ofBytes c.stream = req.header := by
  cases todo with
  | nil =>
    rw [h.stream] at harrived
    exact absurd (hwhole.trans harrived) (by decide)
  | cons req later =>
    refine ⟨req, List.mem_cons_self, ?_⟩
    rw [h.stream, List.flatMap_cons, ofBytes_wire]

theorem count_eq_headerSize {c : Channel} {n : Nat} (h : c.count n headerSize = headerSize) :
    headerSize ≤ c.arrived := by
  unfold Channel.count headerSize at *
  omega

theorem step_calm {reqs : List ClientRequest} {c : Channel} {e : Event} (hreqs : ∀ req ∈ reqs, req.Passes)
    (h : c.Goes reqs) (hopen : c.r.close = false) (hcalm : e.Calm c) : (c.step e).r.close = false := by
  obtain ⟨done, todo, rfl, h⟩ := h
  unfold Channel.step
  rw [if_neg (by simp [hopen])]
  cases e with
  | arrive n => exact hopen
  | sent => exact hopen
  | readable read readv handled =>
    obtain ⟨hsent, hread, hfail, hreadv, hreadvFail, hhandled⟩ := hcalm
    simp only
    rw [if_neg (not_not.2 hsent)]
    split
    · next htoget =>
      cases read with
      | took n =>
        simp only [initialRead]
        split
        · exact hopen
        · next hcount =>
          obtain ⟨req, hreq, hcmd⟩ := ofBytes_stream (h.place.toget_eq_zero htoget) h.arrived
            (count_eq_headerSize (not_not.1 hcount))
          rw [hcmd, readCommand_passes (hreqs req (List.mem_append_right _ hreq))]
          cases readv with
          | took m => exact received_close hopen hhandled
          | eof => exact absurd rfl hreadv
          | failed => exact absurd rfl hreadvFail
      | eof => exact absurd rfl hread
      | interrupted => exact hopen
      | again => exact hopen
      | failed => exact absurd rfl hfail
    · cases read with
      | took n =>
        simp only [continueRead]
        split
        · exact hopen
        · exact received_close hopen hhandled
      | eof => exact absurd rfl hread
      | interrupted => exact hopen
      | again => exact hopen
      | failed => exact absurd rfl hfail

theorem run_calm {reqs : List ClientRequest} {c : Channel} {events : List Event}
    (hreqs : ∀ req ∈ reqs, req.Passes ∧ req.SumFits) (h : c.Goes reqs) (hopen : c.r.close = false)
    (hcalm : CalmRun events c) : (c.run events).r.close = false := by
  induction events generalizing c with
  | nil => exact hopen
  | cons e events ih =>
    have hstep := step_calm (fun req hreq => (hreqs req hreq).1) h hopen hcalm.1
    exact ih (step_goes hreqs h hstep) hstep hcalm.2

/-! ## Getting on -/

theorem wire_length (req : ClientRequest) : headerSize ≤ req.wire.length := by
  rw [ClientRequest.wire, List.length_append, Header.length_bytes]
  omega

theorem step_advances {reqs : List ClientRequest} {c : Channel} {n m : Nat} {handled : Handled}
    (hreqs : ∀ req ∈ reqs, req.Passes) (h : c.Goes reqs) (hn : headerSize ≤ n) (hopen : c.r.close = false)
    (hsent : c.r.tosend = 0) (harrived : c.arrived = c.stream.length) (hmore : c.stream ≠ []) :
    (c.step (.readable (.took n) (.took m) handled)).stream.length < c.stream.length := by
  have hpos : 0 < c.stream.length := List.length_pos_iff.2 hmore
  obtain ⟨done, todo, rfl, h⟩ := h
  unfold Channel.step
  rw [if_neg (by simp [hopen])]
  simp only
  rw [if_neg (not_not.2 hsent)]
  split
  · next htoget =>
    have hbetween := h.place.toget_eq_zero htoget
    have hwhole : headerSize ≤ c.arrived := by
      cases todo with
      | nil => exact absurd hbetween.stream hmore
      | cons req later =>
        rw [harrived, hbetween.stream, List.flatMap_cons, List.length_append]
        exact (wire_length req).trans (Nat.le_add_right _ _)
    have hcount : c.count n headerSize = headerSize := by
      unfold Channel.count headerSize at *
      omega
    obtain ⟨req, hreq, hcmd⟩ := ofBytes_stream hbetween h.arrived hwhole
    simp only [initialRead]
    rw [if_neg (not_not.2 hcount), hcmd, readCommand_passes (hreqs req (List.mem_append_right _ hreq))]
    simp only [readvRest, received_stream, Channel.consume, Channel.loaded, List.length_drop, headerSize]
    omega
  · next htoget =>
    obtain ⟨req, later, rfl, -, hmissing⟩ := h.place.toget_ne_zero htoget
    have hcount : c.count n (c.r.toget - c.r.gotten) ≠ 0 := by
      unfold Channel.count
      omega
    simp only [continueRead]
    rw [if_neg hcount, received_stream, List.length_drop]
    omega

/-! ## A sum that does not fit -/

/-- Everything that is asked for is read. -/
def Event.readAll : Event := .readable (.took headerSize) (.took (2 ^ 32)) ⟨false, 0⟩

/-- Between two requests, with everything there and the last reply out. -/
structure Channel.Ready (todo : List ClientRequest) (c : Channel) : Prop extends c.Between todo where
  arrived : c.arrived = c.stream.length
  sent : c.r.tosend = 0
  opened : c.r.close = false

/-- A request that passes is read as far as the sum of its sizes says. -/
theorem step_readAll {req : ClientRequest} {later : List ClientRequest} {c : Channel} (hpass : req.Passes)
    (h : c.Ready (req :: later)) :
    c.step .readAll = received (c.loaded req).r.toget ⟨false, 0⟩ ((c.loaded req).consume headerSize) := by
  have hlen : c.arrived = headerSize + req.payload.length + (later.flatMap ClientRequest.wire).length := by
    rw [h.arrived, h.stream, List.flatMap_cons, ClientRequest.wire, List.length_append, List.length_append,
      Header.length_bytes]
    rfl
  have hcount : c.count headerSize headerSize = headerSize := by
    unfold Channel.count headerSize at *
    omega
  have htoget : (c.loaded req).r.toget = req.payload.length % 2 ^ 32 := by
    rw [ClientRequest.payload, List.length_append, ← req.toNat_sum]
    rfl
  have hle : req.payload.length % 2 ^ 32 ≤ req.payload.length := Nat.mod_le _ _
  have hsmall : req.payload.length % 2 ^ 32 ≤ maxCsPayload := by
    rw [ClientRequest.payload, List.length_append]
    exact hpass.2
  have hasked : (c.loaded req).count (max (2 ^ 32) headerSize) (headerSize + (c.loaded req).r.toget) =
      headerSize + (c.loaded req).r.toget := by
    have harrived : (c.loaded req).arrived = c.arrived := rfl
    unfold Channel.count
    rw [htoget, harrived]
    unfold headerSize maxCsPayload at *
    omega
  have hheader : Header.ofBytes c.stream = req.header := by
    rw [h.stream, List.flatMap_cons, ofBytes_wire]
  unfold Channel.step
  rw [if_neg (by simp [h.opened])]
  simp only [Event.readAll]
  rw [if_neg (not_not.2 h.sent), if_pos h.toget]
  simp only [initialRead]
  rw [if_neg (not_not.2 hcount), hheader, readCommand_passes hpass]
  simp only [readvRest, hasked, Nat.add_sub_cancel_left]

theorem Channel.Ready.readAll {req : ClientRequest} {later : List ClientRequest} {c : Channel}
    (hpass : req.Passes) (hsum : req.SumFits) (h : c.Ready (req :: later)) :
    (c.step .readAll).Ready later ∧ (c.step .readAll).calls = c.calls ++ [req.call] := by
  have hstream : c.stream = req.wire ++ later.flatMap ClientRequest.wire := h.stream
  have hcollect := loaded_collecting hpass hsum hstream
  have hlen : (c.loaded req).r.toget ≤ (c.stream.drop headerSize).length := by
    have htoget : (c.loaded req).r.toget = req.payload.length := hsum.toNat_sum
    rw [htoget, List.length_drop, hstream, ClientRequest.wire, List.length_append, List.length_append,
      Header.length_bytes, ClientRequest.payload]
    omega
  obtain ⟨hbetween, hcall⟩ := @hcollect.last _ _ _ (c.loaded req).r.toget ⟨false, 0⟩ hlen (Nat.zero_add _)
  rw [step_readAll hpass h]
  refine ⟨⟨hbetween, ?_, ?_, ?_⟩, hcall⟩
  · simp only [received_arrived, received_stream, Channel.consume, List.length_drop]
    have harrived : (c.loaded req).arrived = (c.loaded req).stream.length := h.arrived
    rw [harrived]
  · have hall := @received_all (c.loaded req).r.toget ⟨false, 0⟩ ((c.loaded req).consume headerSize)
      (Nat.le_add_left _ _)
    rw [hall]
    rfl
  · exact received_close h.opened rfl

theorem Dbt.bytes_eq_none {recbuff : Buf} {v : Dbt} (h : maxCsPayload < v.size.toNat) :
    v.bytes recbuff = none := by
  unfold bytes
  rw [if_neg]
  · cases v.data with
    | none => rfl
    | some data => exact if_neg (by omega)
  · intro h0
    rw [h0] at h
    cases h

/-- The second size is then too big for the buffer. -/
theorem readAll_calls_of_not_sumFits {req : ClientRequest} {later : List ClientRequest} {c : Channel}
    (hpass : req.Passes) (hsum : ¬ req.SumFits) (h : c.Ready (req :: later)) :
    (c.step .readAll).r.close = false ∧
      ∃ call, (c.step .readAll).calls = c.calls ++ [call] ∧ call.v2 = none := by
  have hlarge : maxCsPayload < req.header.len2.toNat := by
    have hv1 := hpass.1
    rw [req.toNat_len2]
    unfold ClientRequest.SumFits maxSize maxCsPayload at *
    omega
  rw [step_readAll hpass h]
  refine ⟨received_close h.opened rfl, ?_⟩
  have hall := @received_all (c.loaded req).r.toget ⟨false, 0⟩ ((c.loaded req).consume headerSize)
    (Nat.le_add_left _ _)
  rw [hall]
  exact ⟨_, rfl, Dbt.bytes_eq_none hlarge⟩

/-- The requests before it are parsed one after another. -/
theorem Channel.Ready.run {todo : List ClientRequest} {rest : List ClientRequest} {c : Channel}
    (htodo : ∀ req ∈ todo, req.Passes ∧ req.SumFits) (h : c.Ready (todo ++ rest)) :
    (c.run (List.replicate todo.length .readAll)).Ready rest ∧
      (c.run (List.replicate todo.length .readAll)).calls = c.calls ++ todo.map ClientRequest.call := by
  induction todo generalizing c with
  | nil => exact ⟨h, (List.append_nil _).symm⟩
  | cons req todo ih =>
    obtain ⟨hpass, hsum⟩ := htodo req List.mem_cons_self
    obtain ⟨hready, hcalls⟩ := h.readAll hpass hsum
    obtain ⟨hready, hrun⟩ := ih (fun r hr => htodo r (List.mem_cons_of_mem _ hr)) hready
    refine ⟨hready, hrun.trans ?_⟩
    rw [hcalls, List.append_assoc]
    rfl

theorem run_append (c : Channel) (events more : List Event) : c.run (events ++ more) = (c.run events).run more :=
  List.foldl_append

theorem start_ready (recbuff : Buf) (reqs : List ClientRequest) :
    ((Channel.start recbuff reqs).step (.arrive (reqs.flatMap ClientRequest.wire).length)).Ready reqs := by
  refine ⟨⟨rfl, rfl⟩, ?_, rfl, rfl⟩
  simp [Channel.step, Channel.start]

/-- A run that parses what was not sent. -/
theorem exists_not_inStep (recbuff : Buf) {reqs : List ClientRequest} (hpass : ∀ req ∈ reqs, req.Passes)
    (h : ¬ ∀ req ∈ reqs, req.SumFits) :
    ∃ events, ((Channel.start recbuff reqs).run events).r.close = false ∧
      ¬ ((Channel.start recbuff reqs).run events).InStep reqs := by
  obtain ⟨req, hfirst⟩ : ∃ req, reqs.find? (fun r => ¬ r.SumFits) = some req := by
    rw [← Option.isSome_iff_exists, List.find?_isSome]
    simpa using h
  obtain ⟨hsum, before, behind, rfl, hbefore⟩ := List.find?_eq_some_iff_append.1 hfirst
  simp only [decide_eq_true_eq, decide_not, Bool.not_not, Bool.not_eq_true', decide_eq_false_iff_not] at hsum hbefore
  have hfits : ∀ r ∈ before, r.Passes ∧ r.SumFits := fun r hr =>
    ⟨hpass r (List.mem_append_left _ hr), hbefore r hr⟩
  obtain ⟨hready, hcalls⟩ := (start_ready recbuff (before ++ req :: behind)).run hfits
  obtain ⟨hopen, call, hcall, hnone⟩ := readAll_calls_of_not_sumFits (hpass req (by simp)) hsum hready
  refine ⟨.arrive ((before ++ req :: behind).flatMap ClientRequest.wire).length ::
    (List.replicate before.length .readAll ++ [.readAll]), ?_, ?_⟩
  · rw [← List.cons_append, run_append]
    exact hopen
  · rw [← List.cons_append, run_append]
    rintro ⟨done, todo, hreqs, hdone, -⟩
    have hsent : done.map ClientRequest.call = before.map ClientRequest.call ++ [call] := by
      rw [← hdone]
      refine hcall.trans ?_
      rw [hcalls]
      rfl
    have hlen : done.length = before.length + 1 := by
      simpa using congrArg List.length hsent
    -- the requests that were parsed are those before and the one whose sum does not fit
    have hparsed : done = before ++ [req] := by
      have htake := congrArg (List.take (before.length + 1)) hreqs
      rw [← hlen, List.take_left, hlen, List.take_length_add_append] at htake
      simpa using htake.symm
    rw [hparsed, List.map_append] at hsent
    have hlast : req.call = call := by simpa using hsent
    rw [← hlast] at hnone
    cases hnone

/-- Whatever requests a client sends whose sizes pass, and however their bytes arrive and are read:
they are parsed as they were sent if and only if none has a sum of sizes of 2^32 or more. -/
theorem framed_iff (recbuff : Buf) (reqs : List ClientRequest) (hpass : ∀ req ∈ reqs, req.Passes) :
    (∀ events, Framed reqs (Channel.start recbuff reqs) events) ↔ ∀ req ∈ reqs, req.SumFits := by
  constructor
  · intro h
    by_contra hsum
    obtain ⟨events, hopen, hnot⟩ := exists_not_inStep recbuff hpass hsum
    exact hnot ((h events).inStep hopen)
  · intro hsum events
    have hreqs : ∀ req ∈ reqs, req.Passes ∧ req.SumFits := fun req hreq => ⟨hpass req hreq, hsum req hreq⟩
    have hstart := start_goes recbuff reqs
    refine ⟨fun hopen => (run_goes hreqs hstart hopen).inStep, run_calm hreqs hstart rfl, ?_⟩
    intro n m handled hn hopen hsent harrived hmore
    exact step_advances hpass (run_goes hreqs hstart hopen) hn hopen hsent harrived hmore

/-- A STORE of one byte and a PING. -/
def twoRequests : List ClientRequest :=
  [⟨2, (0, 0, 0), [97], [98], by decide, by decide⟩, ⟨12, (0, 0, 0), [], [], by decide, by decide⟩]

theorem framed_iff_twoRequests :
    (∀ events, Framed twoRequests (Channel.start (fun _ => 0) twoRequests) events) ↔
      ∀ req ∈ twoRequests, req.SumFits :=
  framed_iff (fun _ => 0) twoRequests (by unfold twoRequests ClientRequest.Passes; decide)

/-- One byte, and then 2^32 - 1 bytes. -/
def wrappingRequest : ClientRequest where
  token := 2
  gap := (0, 0, 0)
  v1 := [97]
  v2 := zeros (2 ^ 32 - 1)
  fits1 := by decide
  fits2 := by
    rw [length_zeros]
    decide

theorem wrappingRequest_len2 : wrappingRequest.v2.length = 2 ^ 32 - 1 := length_zeros _

theorem wrappingRequest_sum : wrappingRequest.v1.length + wrappingRequest.v2.length = 2 ^ 32 := by
  rw [wrappingRequest_len2]
  rfl

/-- The sizes pass, for their sum is 0, and the request is parsed without its payload. -/
theorem framed_fails :
    wrappingRequest.Passes ∧
      ∃ events, ¬ Framed [wrappingRequest] (Channel.start (fun _ => 0) [wrappingRequest]) events := by
  have hpass : wrappingRequest.Passes := by
    unfold ClientRequest.Passes
    rw [wrappingRequest_sum]
    decide
  refine ⟨hpass, ?_⟩
  have hsum : ¬ ∀ req ∈ [wrappingRequest], req.SumFits := by
    intro hall
    have hfits := hall _ (List.mem_singleton_self _)
    unfold ClientRequest.SumFits at hfits
    rw [wrappingRequest_sum] at hfits
    exact lt_irrefl _ hfits
  have hpasses : ∀ req ∈ [wrappingRequest], req.Passes := by
    intro req hreq
    rw [List.mem_singleton.1 hreq]
    exact hpass
  obtain ⟨events, hopen, hnot⟩ := exists_not_inStep (fun _ => 0) hpasses hsum
  exact ⟨events, fun h => hnot (h.inStep hopen)⟩

end RdfStore.Dbms
