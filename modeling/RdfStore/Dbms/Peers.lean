import RdfStore.Dbms.Framing
import RdfStore.Dbms.Replies
import RdfStore.Lib.Serial

/-!
# The connections of a server (`deamon.c`, `loop.c`)

One process reads the requests of all its connections as their bytes arrive, answers
each when it is in, and writes the replies as the sockets take them.  Whatever the
order of all this, the requests have been answered one after another, those of a
connection in the order in which they were sent, and a connection has been sent
the beginning of its replies.

    the server after some events is the requests in some order, one after another      (served_run)
-/

namespace RdfStore.Dbms

open ByteMem Frames Serial

/-! ## Connections -/

/-- What `parse_request` does with a connection: a reply it dispatches, and whether it closes it. -/
structure Served where
  reply : Option (UInt8 × Option Bytes × Option Bytes)
  close : Bool

/-- The two sides of a connection. -/
structure Peer where
  c : Channel
  s : Sender

/-- `handle_new_connection` -/
def Peer.start (recbuff sendbuff : Buf) (reqs : List ClientRequest) : Peer :=
  ⟨Channel.start recbuff reqs, ⟨(0, 0, 0), sendbuff, 0, 0, false, false, []⟩⟩

/-- The reply goes out through the first write `w`. -/
def Sender.answer (s : Sender) (served : Served) (w : WriteResult) : Sender :=
  let s :=
    match served.reply with
    | none => s
    | some (token, v1, v2) => s.dispatch token v1 v2 w
  { s with close := s.close || served.close }

/-- `initial_read` peeks into `cmd`, whose padding goes out with the reply. -/
def Peer.peeked (x : Peer) : Sender :=
  if x.c.r.toget = 0 then { x.s with gap := (Header.ofBytes x.c.stream).gap } else x.s

/-- The channel, with a `parse_request` that does nothing. -/
def Peer.read (x : Peer) (read : ReadResult) (readv : ReadvResult) : Channel :=
  x.c.step (.readable read readv ⟨false, 0⟩)

/-- What `parse_request` is called with, if it is. -/
def Peer.call (x : Peer) (read : ReadResult) (readv : ReadvResult) : Option Call :=
  ((x.read read readv).calls.drop x.c.calls.length).head?

/-! ## The server -/

/-- Bytes arrive, or a descriptor is readable or writable in `select_loop`. -/
inductive ServerEvent (ι : Type)
  | arrive (i : ι) (n : Nat)
  | readable (i : ι) (read : ReadResult) (readv : ReadvResult) (w : WriteResult)
  | writable (i : ι) (w : WriteResult)

/-- The database and the connections. -/
structure Server (ι σ : Type) where
  db : σ
  peers : ι → Peer

section

variable {ι σ : Type} [DecidableEq ι]

def Server.set (S : Server ι σ) (i : ι) (x : Peer) : Server ι σ :=
  { S with peers := Function.update S.peers i x }

-- what `parse_request` does with the database and a connection
variable (handle : σ → ι → Call → Served × σ)

def Server.step (S : Server ι σ) : ServerEvent ι → Server ι σ
  | .arrive i n =>
    let x := S.peers i
    S.set i { x with c := x.c.step (.arrive n) }
  | .readable i read readv w =>
    let x := S.peers i
    match x.call read readv with
    | none =>
      let c := x.read read readv
      S.set i ⟨c, { x.peeked with close := c.r.close }⟩
    | some call =>
      let (served, db) := handle S.db i call
      let s := x.peeked.answer served w
      { S.set i ⟨x.c.step (.readable read readv ⟨s.close, s.tosend⟩), s⟩ with db := db }
  | .writable i w =>
    let x := S.peers i
    let s := x.s.writable w
    S.set i ⟨{ x.c with r := { x.c.r with tosend := s.tosend, close := s.close } }, s⟩

def Server.run (S : Server ι σ) (events : List (ServerEvent ι)) : Server ι σ := events.foldl (Server.step handle) S

def Server.start (db : σ) (recbuff sendbuff : ι → Buf) (reqs : ι → List ClientRequest) : Server ι σ :=
  ⟨db, fun i => Peer.start (recbuff i) (sendbuff i) (reqs i)⟩

/-! ## One after another -/

/-- What goes out for a request with the padding `gap`. -/
def Served.frame (gap : UInt8 × UInt8 × UInt8) (served : Served) : Bytes :=
  match served.reply with
  | none => []
  | some (token, v1, v2) => replyFrame gap token v1 v2

/-- A request is answered as a whole. -/
def serveRequest (db : σ) (i : ι) (req : ClientRequest) : Bytes × σ :=
  ((handle db i req.call).1.frame req.gap, (handle db i req.call).2)

/-- All that goes out to a client, when the requests are answered in an order. -/
def repliesTo (db : σ) (order : List (ι × ClientRequest)) (i : ι) : Bytes :=
  (ofClient i (serveAll (serveRequest handle) db order).1).flatten

end

/-! ## What a readable descriptor does -/

/-- Reading that comes to no request. -/
def Quiet (c : Channel) (f : Handled → Channel) : Prop :=
  ∃ d, (∀ handled, f handled = d) ∧ d.calls = c.calls ∧ d.r.tosend = c.r.tosend

/-- Reading that has a request in. -/
def Final (c : Channel) (f : Handled → Channel) : Prop :=
  ∃ d, (∀ handled, f handled = finalRead handled d) ∧ d.calls = c.calls

theorem received_cases (n : Nat) {c d : Channel} (hcalls : d.calls = c.calls) (htosend : d.r.tosend = c.r.tosend) :
    Quiet c (fun handled => received n handled d) ∨ Final c (fun handled => received n handled d) := by
  by_cases hmore : d.r.gotten + n ≥ d.r.toget
  · exact Or.inr ⟨_, fun handled => received_all hmore, hcalls⟩
  · exact Or.inl ⟨_, fun handled => if_neg hmore, hcalls, htosend⟩

theorem readCommand_cases (cmd : Header) (readv : ReadvResult) (c : Channel) :
    Quiet c (fun handled => readCommand cmd readv handled c) ∨
      Final c (fun handled => readCommand cmd readv handled c) := by
  have hclosed : ∀ {d : Channel}, d.calls = c.calls → d.r.tosend = c.r.tosend →
      Quiet c (fun _ => d.closed) ∨ Final c (fun _ => d.closed) :=
    fun hcalls htosend => Or.inl ⟨_, fun _ => rfl, hcalls, htosend⟩
  have hrest : ∀ {d : Channel}, d.calls = c.calls → d.r.tosend = c.r.tosend →
      Quiet c (fun handled => readvRest readv handled d) ∨ Final c (fun handled => readvRest readv handled d) := by
    intro d hcalls htosend
    cases readv with
    | took n =>
      unfold readvRest
      exact received_cases _ hcalls htosend
    | eof => exact hclosed hcalls htosend
    | failed => exact hclosed hcalls htosend
  unfold readCommand
  by_cases hbig : cmd.len1.toNat > maxSize
  · simp only [if_pos hbig]
    exact hclosed rfl rfl
  · simp only [if_neg hbig]
    by_cases hsome : cmd.len1 + cmd.len2 > 0
    · simp only [if_pos hsome]
      by_cases hsum : (cmd.len1 + cmd.len2).toNat > maxCsPayload
      · simp only [if_pos hsum]
        exact hclosed rfl rfl
      · simp only [if_neg hsum]
        exact hrest rfl rfl
    · simp only [if_neg hsome]
      exact hrest rfl rfl

theorem initialRead_cases (peek : ReadResult) (readv : ReadvResult) (c : Channel) :
    Quiet c (fun handled => initialRead peek readv handled c) ∨
      Final c (fun handled => initialRead peek readv handled c) := by
  cases peek with
  | took n =>
    unfold initialRead
    by_cases hshort : c.count n headerSize ≠ headerSize
    · exact Or.inl ⟨c, fun handled => if_pos hshort, rfl, rfl⟩
    · simp only [if_neg hshort]
      exact readCommand_cases _ readv c
  | eof => exact Or.inl ⟨_, fun _ => rfl, rfl, rfl⟩
  | interrupted => exact Or.inl ⟨_, fun _ => rfl, rfl, rfl⟩
  | again => exact Or.inl ⟨_, fun _ => rfl, rfl, rfl⟩
  | failed => exact Or.inl ⟨_, fun _ => rfl, rfl, rfl⟩

theorem continueRead_cases (read : ReadResult) (c : Channel) :
    Quiet c (fun handled => continueRead read handled c) ∨ Final c (fun handled => continueRead read handled c) := by
  cases read with
  | took n =>
    unfold continueRead
    by_cases hnone : c.count n (c.r.toget - c.r.gotten) = 0
    · exact Or.inl ⟨c, fun handled => if_pos hnone, rfl, rfl⟩
    · simp only [if_neg hnone]
      exact received_cases _ rfl rfl
  | eof => exact Or.inl ⟨_, fun _ => rfl, rfl, rfl⟩
  | interrupted => exact Or.inl ⟨_, fun _ => rfl, rfl, rfl⟩
  | again => exact Or.inl ⟨_, fun _ => rfl, rfl, rfl⟩
  | failed => exact Or.inl ⟨_, fun _ => rfl, rfl, rfl⟩

/-- A request is in only on an open connection with no reply on its way. -/
theorem step_readable_cases (c : Channel) (read : ReadResult) (readv : ReadvResult) :
    Quiet c (fun handled => c.step (.readable read readv handled)) ∨
      c.r.close = false ∧ c.r.tosend = 0 ∧ Final c (fun handled => c.step (.readable read readv handled)) := by
  unfold Channel.step
  cases hclose : c.r.close with
  | true => exact Or.inl ⟨c, fun _ => if_pos rfl, rfl, rfl⟩
  | false =>
    simp only [Bool.false_eq_true, if_false]
    by_cases hsent : c.r.tosend ≠ 0
    · exact Or.inl ⟨_, fun _ => if_pos hsent, rfl, rfl⟩
    · have hzero : c.r.tosend = 0 := not_not.1 hsent
      simp only [if_neg hsent]
      by_cases htoget : c.r.toget = 0
      · simp only [if_pos htoget]
        exact (initialRead_cases read readv c).imp_right fun h => ⟨trivial, hzero, h⟩
      · simp only [if_neg htoget]
        exact (continueRead_cases read c).imp_right fun h => ⟨trivial, hzero, h⟩

/-! ## What a reply on its way does -/

/-- A sender has sent all of `sent` but what is left of the last reply. -/
def Sender.Owes (sent : Bytes) (s : Sender) : Prop := ∃ base p, s.Sends base p ∧ base ++ p.whole = sent

/-- A closed connection has been sent the beginning of `sent`, an open one owes the rest. -/
def Sender.Fares (sent : Bytes) (s : Sender) : Prop :=
  s.wire <+: sent ∧ (s.close = false → s.Owes sent)

theorem Sender.Owes.wire {sent : Bytes} {s : Sender} (h : s.Owes sent) : s.wire <+: sent := by
  obtain ⟨base, p, hsends, rfl⟩ := h
  rw [hsends.wire, Pipe.whole, ← List.append_assoc]
  exact List.prefix_append _ _

theorem Sender.Owes.fares {sent : Bytes} {s : Sender} (h : s.Owes sent) : s.Fares sent := ⟨h.wire, fun _ => h⟩

/-- With nothing to send everything is sent. -/
theorem Sender.Owes.idle {sent : Bytes} {s : Sender} (h : s.Owes sent) (hzero : s.tosend = 0) :
    s.Idle ∧ s.wire = sent := by
  obtain ⟨base, p, hsends, rfl⟩ := h
  have hleft : p.left = [] := by
    by_contra hne
    have hlt := (hsends.busy hne).2.1
    omega
  refine ⟨hsends.idle hleft, ?_⟩
  rw [hsends.wire, Pipe.whole, hleft, List.append_nil]

theorem Sender.Idle.owes {s : Sender} (h : s.Idle) : s.Owes s.wire :=
  ⟨s.wire, ⟨[], []⟩, ⟨(List.append_nil _).symm, h.opened, fun _ => h, fun hne => absurd rfl hne⟩, List.append_nil _⟩

/-- The padding is of no account. -/
theorem Sender.Owes.withGap {sent : Bytes} {s : Sender} (h : s.Owes sent) (gap : UInt8 × UInt8 × UInt8) :
    Sender.Owes sent { s with gap := gap } := by
  obtain ⟨base, p, hsends, hwhole⟩ := h
  exact ⟨base, p, ⟨hsends.wire, hsends.opened,
    fun hnil => ⟨(hsends.idle hnil).send, (hsends.idle hnil).tosend, (hsends.idle hnil).inWset, hsends.opened⟩,
    hsends.busy⟩, hwhole⟩

theorem Sender.Owes.writable {sent : Bytes} {s : Sender} (h : s.Owes sent) (w : WriteResult) :
    (s.writable w).Fares sent := by
  obtain ⟨base, p, hsends, hwhole⟩ := h
  by_cases hw : w.Transient
  · exact Sender.Owes.fares ⟨base, p.move w.moves, hsends.writable hw, by rw [Pipe.whole_move, hwhole]⟩
  · have howes : s.Owes sent := ⟨base, p, hsends, hwhole⟩
    unfold Sender.writable
    rw [if_neg (by simp [hsends.opened])]
    split
    · unfold Sender.continueSend
      have hlost : Sender.Fares sent { s with close := true } := ⟨howes.wire, fun h => by cases h⟩
      split
      · exact hlost
      · cases w with
        | took n => exact absurd ⟨nofun, nofun⟩ hw
        | interrupted => exact absurd ⟨nofun, nofun⟩ hw
        | again => exact absurd ⟨nofun, nofun⟩ hw
        | zero => exact hlost
        | failed => exact hlost
    · exact howes.fares

/-- What does not go out whole or into `sendbuff` is lost with the connection. -/
theorem Sender.Idle.written_fares {s : Sender} {iov : List Bytes} {n : Nat} (hidle : s.Idle)
    (hn : n ≤ iov.flatten.length) :
    ({ s with tosend := iov.flatten.length, send := 0 }.written iov n).Fares (s.wire ++ iov.flatten) := by
  by_cases hfits : iov.flatten.length - n ≤ maxScPayload
  · exact Sender.Owes.fares ⟨s.wire, _, hidle.written hn hfits, by rw [Pipe.whole_move]; rfl⟩
  · unfold Sender.written
    simp only [Nat.zero_add]
    rw [if_neg (by unfold maxScPayload at hfits; omega), if_pos (by omega)]
    refine ⟨?_, fun h => by cases h⟩
    exact (List.prefix_append_right_inj _).2 (List.take_prefix _ _)

theorem Sender.Idle.dispatch_fares {s : Sender} (hidle : s.Idle) (token : UInt8) (v1 v2 : Option Bytes)
    (w : WriteResult) : (s.dispatch token v1 v2 w).Fares (s.wire ++ replyFrame s.gap token v1 v2) := by
  have hwritten : ∀ n ≤ (replyFrame s.gap token v1 v2).length,
      ({ s with tosend := (replyFrame s.gap token v1 v2).length, send := 0 }.written
        [(replyHeader s.gap token v1 v2).bytes, dbtBytes v1, dbtBytes v2] n).Fares
        (s.wire ++ replyFrame s.gap token v1 v2) := by
    rw [← flatten_pieces]
    exact fun n hn => hidle.written_fares hn
  have hlost : Sender.Fares (s.wire ++ replyFrame s.gap token v1 v2)
      { s with tosend := (replyFrame s.gap token v1 v2).length, send := 0, close := true } :=
    ⟨List.prefix_append _ _, fun h => by cases h⟩
  unfold Sender.dispatch
  rw [if_neg (by simp [hidle.send])]
  simp only [← length_replyFrame s.gap token v1 v2, writevResult]
  by_cases htotal : (replyFrame s.gap token v1 v2).length < 2 ^ 31
  · simp only [if_pos htotal]
    cases w with
    | took n => exact hwritten _ (min_le_right _ _)
    | zero => exact hlost
    | interrupted => exact hwritten 0 (Nat.zero_le _)
    | again => exact hwritten 0 (Nat.zero_le _)
    | failed => exact hlost
  · simp only [if_neg htotal]
    exact hlost

theorem Sender.Idle.answer_fares {s : Sender} (hidle : s.Idle) (served : Served) (w : WriteResult) :
    (s.answer served w).Fares (s.wire ++ served.frame s.gap) := by
  have hclose : ∀ {sent : Bytes} {s : Sender}, s.Fares sent →
      Sender.Fares sent { s with close := s.close || served.close } := by
    intro sent s h
    refine ⟨h.1, fun hopen => ?_⟩
    have hparts : s.close = false ∧ served.close = false := by simpa using hopen
    have hsame : { s with close := s.close || served.close } = s := by rw [hparts.1, hparts.2]; cases s; simp_all
    rw [hsame]
    exact h.2 hparts.1
  unfold Sender.answer Served.frame
  cases served.reply with
  | none =>
    rw [List.append_nil]
    exact hclose hidle.owes.fares
  | some reply => exact hclose (hidle.dispatch_fares _ _ _ w)

/-! ## A connection -/

/-- A connection whose first requests `done` were answered with `sent`. -/
structure Peer.Sees (reqs done : List ClientRequest) (sent : Bytes) (x : Peer) : Prop where
  tosend : x.c.r.tosend = x.s.tosend
  close : x.c.r.close = x.s.close
  first : done <+: reqs
  fares : x.s.Fares sent
  opened : x.s.close = false → ∃ todo, reqs = done ++ todo ∧ x.c.Sound done todo
  gap : x.s.close = false → x.c.r.toget ≠ 0 → ∃ req later, reqs = done ++ req :: later ∧ x.s.gap = req.gap

section

variable {reqs done : List ClientRequest} {sent : Bytes} {x : Peer}

/-- Which requests are done shows in the number of calls. -/
theorem Channel.Goes.sound {todo : List ClientRequest} {c : Channel} (h : c.Goes (done ++ todo))
    (hcalls : c.calls.length = done.length) : c.Sound done todo := by
  obtain ⟨done', todo', heq, hsound⟩ := h
  have hlen : done'.length = done.length := by
    rw [← hcalls, hsound.calls, List.length_map]
  obtain ⟨rfl, rfl⟩ := List.append_inj heq hlen.symm
  exact hsound

theorem Channel.Goes.sound_succ {todo : List ClientRequest} {c : Channel} (h : c.Goes (done ++ todo))
    (hcalls : c.calls.length = done.length + 1) : ∃ req later, todo = req :: later ∧ c.Sound (done ++ [req]) later := by
  obtain ⟨done', todo', heq, hsound⟩ := h
  have hlen : done'.length = done.length + 1 := by
    rw [← hcalls, hsound.calls, List.length_map]
  cases todo with
  | nil =>
    have hlength := congrArg List.length heq
    rw [List.append_nil, List.length_append] at hlength
    omega
  | cons req later =>
    have hcons : done ++ [req] ++ later = done' ++ todo' := by rw [← heq, List.append_assoc]; rfl
    obtain ⟨rfl, rfl⟩ := List.append_inj hcons (by rw [hlen, List.length_append]; rfl)
    exact ⟨req, later, rfl, hsound⟩

/-- The padding of the request that is being read. -/
theorem Peer.Sees.peeked_gap (h : x.Sees reqs done sent) (hopen : x.s.close = false) {req : ClientRequest}
    {later : List ClientRequest} (hreqs : reqs = done ++ req :: later) : x.peeked.gap = req.gap := by
  unfold Peer.peeked
  split
  · next htoget =>
    obtain ⟨todo, htodo, hsound⟩ := h.opened hopen
    have hsame : todo = req :: later := List.append_cancel_left (htodo.symm.trans hreqs)
    subst hsame
    show (Header.ofBytes x.c.stream).gap = _
    rw [(hsound.place.toget_eq_zero htoget).stream, List.flatMap_cons, ofBytes_wire]
    rfl
  · next htoget =>
    obtain ⟨req', later', htodo, hgap⟩ := h.gap hopen htoget
    have hsame : req' :: later' = req :: later := List.append_cancel_left (htodo.symm.trans hreqs)
    cases hsame
    exact hgap

theorem Peer.peeked_fields (x : Peer) :
    x.peeked.tosend = x.s.tosend ∧ x.peeked.close = x.s.close ∧ x.peeked.wire = x.s.wire := by
  unfold Peer.peeked
  split
  · exact ⟨rfl, rfl, rfl⟩
  · exact ⟨rfl, rfl, rfl⟩

theorem Peer.peeked_owes (h : x.s.Owes sent) : x.peeked.Owes sent := by
  unfold Peer.peeked
  split
  · exact h.withGap _
  · exact h

theorem Peer.Sees.start (recbuff sendbuff : Buf) (reqs : List ClientRequest) :
    (Peer.start recbuff sendbuff reqs).Sees reqs [] [] where
  tosend := rfl
  close := rfl
  first := List.nil_prefix
  fares := (Sender.Idle.owes ⟨rfl, rfl, rfl, rfl⟩ : Sender.Owes [] (Peer.start recbuff sendbuff reqs).s).fares
  opened := fun _ => ⟨reqs, rfl, rfl, Nat.zero_le _, .between ⟨rfl, rfl⟩⟩
  gap := fun _ h => absurd rfl h

theorem Peer.Sees.arrive (h : x.Sees reqs done sent) (n : Nat) :
    Peer.Sees reqs done sent { x with c := x.c.step (.arrive n) } := by
  unfold Channel.step
  split
  · exact h
  · refine ⟨h.tosend, h.close, h.first, h.fares, fun hopen => ?_, h.gap⟩
    obtain ⟨todo, htodo, hsound⟩ := h.opened hopen
    exact ⟨todo, htodo, hsound.calls, min_le_right _ _, hsound.place.congr rfl rfl⟩

/-- Nothing but the reply changes. -/
theorem Channel.Sound.withSender {todo : List ClientRequest} {c : Channel} (h : c.Sound done todo) {tosend : Nat}
    {close : Bool} (hclose : close = c.r.close) :
    Channel.Sound done todo { c with r := { c.r with tosend := tosend, close := close } } := by
  subst hclose
  exact ⟨h.calls, h.arrived, h.place.congr rfl rfl⟩

theorem Sender.writable_close {s : Sender} {w : WriteResult} (h : (s.writable w).close = false) : s.close = false := by
  cases hclose : s.close with
  | false => rfl
  | true =>
    have hsame : s.writable w = s := if_pos hclose
    rw [hsame, hclose] at h
    cases h

theorem Sender.writable_gap (s : Sender) (w : WriteResult) : (s.writable w).gap = s.gap := by
  unfold Sender.writable
  split
  · rfl
  · split
    · unfold Sender.continueSend
      split
      · rfl
      · cases w with
        | took n =>
          simp only
          split
          · rfl
          · rfl
        | zero => rfl
        | interrupted => rfl
        | again => rfl
        | failed => rfl
    · rfl

theorem Peer.Sees.writable (h : x.Sees reqs done sent) (w : WriteResult) :
    Peer.Sees reqs done sent
      ⟨{ x.c with r := { x.c.r with tosend := (x.s.writable w).tosend, close := (x.s.writable w).close } },
        x.s.writable w⟩ := by
  refine ⟨rfl, rfl, h.first, ?_, fun hopen => ?_, fun hopen htoget => ?_⟩
  · cases hclose : x.s.close with
    | true =>
      have hsame : x.s.writable w = x.s := if_pos hclose
      rw [hsame]
      exact h.fares
    | false => exact (h.fares.2 hclose).writable w
  · have hbefore := Sender.writable_close hopen
    obtain ⟨todo, htodo, hsound⟩ := h.opened hbefore
    exact ⟨todo, htodo, hsound.withSender (by rw [h.close, hbefore]; exact hopen)⟩
  · obtain ⟨req, later, hreqs, hgap⟩ := h.gap (Sender.writable_close hopen) htoget
    exact ⟨req, later, hreqs, (Sender.writable_gap x.s w).trans hgap⟩

theorem Peer.call_eq_none_of_quiet {read : ReadResult} {readv : ReadvResult}
    (h : Quiet x.c fun handled => x.c.step (.readable read readv handled)) : x.call read readv = none := by
  obtain ⟨d, hd, hcalls, -⟩ := h
  have hd : ∀ handled, x.c.step (.readable read readv handled) = d := hd
  rw [Peer.call, Peer.read, hd, hcalls, List.drop_length]
  rfl

/-- Reading that comes to no request. -/
theorem Peer.Sees.quiet (hreqs : ∀ req ∈ reqs, req.Passes ∧ req.SumFits) (h : x.Sees reqs done sent)
    {read : ReadResult} {readv : ReadvResult} (hquiet : Quiet x.c fun handled => x.c.step (.readable read readv handled)) :
    Peer.Sees reqs done sent
      ⟨x.read read readv, { x.peeked with close := (x.read read readv).r.close }⟩ := by
  obtain ⟨htosend, hclose, hwire⟩ := x.peeked_fields
  obtain ⟨d, hd, hcalls, hsame⟩ := hquiet
  have hd : ∀ handled, x.c.step (.readable read readv handled) = d := hd
  have hread : x.read read readv = d := hd _
  -- a connection that was closed is as it was
  have hbefore : d.r.close = false → x.s.close = false := by
    intro hopen
    rw [← h.close]
    by_contra hclosed
    have hstay : x.read read readv = x.c := if_pos (by simpa using hclosed)
    rw [← hread, hstay] at hopen
    exact hclosed hopen
  have hsound : d.r.close = false → ∃ todo, reqs = done ++ todo ∧ d.Sound done todo := by
    intro hopen
    obtain ⟨todo, rfl, hsound⟩ := h.opened (hbefore hopen)
    have hgoes := step_goes (e := .readable read readv ⟨false, 0⟩) hreqs hsound.goes (by rw [hd]; exact hopen)
    rw [hd] at hgoes
    exact ⟨todo, rfl, hgoes.sound (by rw [hcalls, hsound.calls, List.length_map])⟩
  rw [hread]
  refine ⟨?_, rfl, h.first, ⟨?_, fun hopen => ?_⟩, hsound, fun hopen htoget => ?_⟩
  · rw [hsame, h.tosend]
    exact htosend.symm
  · show x.peeked.wire <+: sent
    rw [hwire]
    exact h.fares.1
  · have hopen : d.r.close = false := hopen
    have hstay : ({ x.peeked with close := d.r.close } : Sender) = x.peeked := by
      rw [hopen, ← hbefore hopen, ← hclose]
    rw [hstay]
    exact Peer.peeked_owes (h.fares.2 (hbefore hopen))
  · obtain ⟨todo, htodo, hsound⟩ := hsound hopen
    obtain ⟨req, later, rfl, -, -⟩ := hsound.place.toget_ne_zero htoget
    exact ⟨req, later, htodo, h.peeked_gap (hbefore hopen) htodo⟩

/-- A request that is in: it is the next one, and its reply is what the connection owes then. -/
theorem Peer.Sees.answered (hreqs : ∀ req ∈ reqs, req.Passes ∧ req.SumFits) (h : x.Sees reqs done sent)
    {read : ReadResult} {readv : ReadvResult} (hopen : x.c.r.close = false) (hzero : x.c.r.tosend = 0)
    (hfinal : Final x.c fun handled => x.c.step (.readable read readv handled)) :
    ∃ req later, reqs = done ++ req :: later ∧ x.call read readv = some req.call ∧ ∀ served w,
      Peer.Sees reqs (done ++ [req]) (sent ++ served.frame req.gap)
        ⟨x.c.step (.readable read readv ⟨(x.peeked.answer served w).close, (x.peeked.answer served w).tosend⟩),
          x.peeked.answer served w⟩ := by
  obtain ⟨htosend, hclose, hwire⟩ := x.peeked_fields
  obtain ⟨d, hd, hcalls⟩ := hfinal
  have hd : ∀ handled, x.c.step (.readable read readv handled) = finalRead handled d := hd
  have hbefore : x.s.close = false := h.close ▸ hopen
  obtain ⟨todo, rfl, hsound⟩ := h.opened hbefore
  have hgoes := step_goes (e := .readable read readv ⟨false, 0⟩) hreqs hsound.goes (by rw [hd]; rfl)
  rw [hd] at hgoes
  have hlen : (finalRead ⟨false, 0⟩ d).calls.length = done.length + 1 := by
    rw [finalRead, List.length_append, hcalls, hsound.calls, List.length_map]
    rfl
  obtain ⟨req, later, rfl, hnext⟩ := hgoes.sound_succ hlen
  have hgap := h.peeked_gap hbefore rfl
  refine ⟨req, later, rfl, ?_, fun served w => ?_⟩
  · rw [Peer.call, Peer.read, hd, hnext.calls, hsound.calls, List.map_append, List.drop_left]
    rfl
  · have howes := Peer.peeked_owes (h.fares.2 hbefore)
    obtain ⟨hidle, hsent⟩ := howes.idle (by rw [htosend, ← h.tosend, hzero])
    rw [hd]
    refine ⟨rfl, rfl, ⟨later, by simp⟩, ?_, fun hstays => ⟨later, by simp, ?_⟩, fun _ htoget => absurd rfl htoget⟩
    · rw [← hsent, ← hgap]
      exact hidle.answer_fares served w
    · exact hnext.withSender hstays

end

/-! ## The server -/

section

variable {ι σ : Type} [DecidableEq ι] {handle : σ → ι → Call → Served × σ} {reqs : ι → List ClientRequest}
  {db₀ : σ} {S : Server ι σ} {order : List (ι × ClientRequest)}

variable (handle reqs db₀) in
/-- The server is where the requests in this order have led. -/
structure Server.Serves (order : List (ι × ClientRequest)) (S : Server ι σ) : Prop where
  db : S.db = (serveAll (serveRequest handle) db₀ order).2
  sees : ∀ i, (S.peers i).Sees (reqs i) (ofClient i order) (repliesTo handle db₀ order i)

theorem Server.set_self (S : Server ι σ) (i : ι) (x : Peer) : (S.set i x).peers i = x := by
  unfold Server.set
  exact Function.update_self i x S.peers

theorem Server.set_of_ne {i j : ι} (h : j ≠ i) (S : Server ι σ) (x : Peer) :
    (S.set i x).peers j = S.peers j := by
  unfold Server.set
  exact Function.update_of_ne h x S.peers

theorem Server.Serves.set (h : S.Serves handle reqs db₀ order) {i : ι} {x : Peer}
    (hx : x.Sees (reqs i) (ofClient i order) (repliesTo handle db₀ order i)) :
    (S.set i x).Serves handle reqs db₀ order := by
  refine ⟨h.db, fun j => ?_⟩
  by_cases hj : j = i
  · subst hj
    rw [Server.set_self]
    exact hx
  · rw [Server.set_of_ne hj]
    exact h.sees j

/-- One more request. -/
theorem repliesTo_concat (handle : σ → ι → Call → Served × σ) (db : σ) (order : List (ι × ClientRequest)) (i : ι)
    (req : ClientRequest) (j : ι) :
    repliesTo handle db (order ++ [(i, req)]) j = if i = j then repliesTo handle db order j ++
      (handle (serveAll (serveRequest handle) db order).2 i req.call).1.frame req.gap
    else repliesTo handle db order j := by
  unfold repliesTo
  rw [serveAll_concat]
  split
  · next hij =>
    subst hij
    rw [ofClient_concat_self, List.flatten_append, List.flatten_singleton]
    rfl
  · next hij => rw [ofClient_concat_of_ne hij]

theorem Server.Serves.step (hreqs : ∀ i, ∀ req ∈ reqs i, req.Passes ∧ req.SumFits)
    (h : S.Serves handle reqs db₀ order) (e : ServerEvent ι) :
    ∃ more, (S.step handle e).Serves handle reqs db₀ (order ++ more) := by
  have hsame : ∀ {S' : Server ι σ}, S'.Serves handle reqs db₀ order → ∃ more, S'.Serves handle reqs db₀ (order ++ more) :=
    fun h => ⟨[], by rwa [List.append_nil]⟩
  cases e with
  | arrive i n => exact hsame (h.set ((h.sees i).arrive n))
  | writable i w => exact hsame (h.set ((h.sees i).writable w))
  | readable i read readv w =>
    rcases step_readable_cases (S.peers i).c read readv with hquiet | ⟨hopen, hzero, hfinal⟩
    · simp only [Server.step, Peer.call_eq_none_of_quiet hquiet]
      exact hsame (h.set ((h.sees i).quiet (hreqs i) hquiet))
    · obtain ⟨req, later, htodo, hcall, hanswer⟩ := (h.sees i).answered (hreqs i) hopen hzero hfinal
      simp only [Server.step, hcall]
      refine ⟨[(i, req)], ?_, fun j => ?_⟩
      · rw [serveAll_concat, ← h.db]
        rfl
      · rw [repliesTo_concat, ← h.db]
        by_cases hij : i = j
        · subst hij
          rw [if_pos rfl, ofClient_concat_self]
          simp only [Server.set_self]
          exact hanswer _ w
        · rw [if_neg hij, ofClient_concat_of_ne hij]
          simp only [Server.set_of_ne (Ne.symm hij)]
          exact h.sees j

theorem Server.Serves.run (hreqs : ∀ i, ∀ req ∈ reqs i, req.Passes ∧ req.SumFits)
    (h : S.Serves handle reqs db₀ order) (events : List (ServerEvent ι)) :
    ∃ more, (S.run handle events).Serves handle reqs db₀ (order ++ more) := by
  induction events generalizing S order with
  | nil => exact ⟨[], by rwa [List.append_nil]⟩
  | cons e events ih =>
    obtain ⟨more, hstep⟩ := h.step hreqs e
    obtain ⟨rest, hrun⟩ := ih hstep
    exact ⟨more ++ rest, by rwa [← List.append_assoc]⟩

/-- With nothing left on the stream all requests are done. -/
theorem Channel.Place.todo_eq_nil {todo : List ClientRequest} {c : Channel} (h : c.Place todo) (hstream : c.stream = []) :
    todo = [] := by
  cases h with
  | between h =>
    cases todo with
    | nil => rfl
    | cons req later =>
      have hempty := h.stream.symm.trans hstream
      rw [List.flatMap_cons] at hempty
      exact absurd (List.append_eq_nil_iff.1 hempty).1 req.wire_ne_nil
  | @inside req later _ h hmore =>
    have hlen := congrArg List.length h.got
    rw [hstream, List.append_nil, length_takeBytes, List.length_append] at hlen
    rw [h.toget] at hmore
    omega

/-- An open connection with nothing left to read has had all its requests. -/
theorem Peer.Sees.all_done {reqs done : List ClientRequest} {sent : Bytes} {x : Peer} (h : x.Sees reqs done sent)
    (hopen : x.s.close = false) (hstream : x.c.stream = []) : done = reqs := by
  obtain ⟨todo, htodo, hsound⟩ := h.opened hopen
  rw [hsound.place.todo_eq_nil hstream, List.append_nil] at htodo
  exact htodo.symm

theorem Server.start_serves (handle : σ → ι → Call → Served × σ) (reqs : ι → List ClientRequest) (db : σ)
    (recbuff sendbuff : ι → Buf) : (Server.start db recbuff sendbuff reqs).Serves handle reqs db [] :=
  ⟨rfl, fun i => Peer.Sees.start (recbuff i) (sendbuff i) (reqs i)⟩

/-- However the bytes of the requests arrive and are read and the replies are taken, and in whatever order the
connections are looked at: there is an order in which the requests have been answered as a whole, one after
another.  Those of a client stand in it in the order they were sent, none of them twice; an open connection with
nothing left to read has had all of them; the client has been sent the beginning of their replies, and all of
them when the connection is open and owes nothing. -/
theorem served_run (handle : σ → ι → Call → Served × σ) (reqs : ι → List ClientRequest)
    (hreqs : ∀ i, ∀ req ∈ reqs i, req.Passes ∧ req.SumFits) (db : σ) (recbuff sendbuff : ι → Buf)
    (events : List (ServerEvent ι)) :
    let S := (Server.start db recbuff sendbuff reqs).run handle events
    ∃ order : List (ι × ClientRequest), S.db = (serveAll (serveRequest handle) db order).2 ∧ ∀ i,
      ofClient i order <+: reqs i ∧
      ((S.peers i).s.close = false → (S.peers i).c.stream = [] → ofClient i order = reqs i) ∧
      (S.peers i).s.wire <+: repliesTo handle db order i ∧
      ((S.peers i).s.close = false → (S.peers i).s.tosend = 0 →
        (S.peers i).s.wire = repliesTo handle db order i) := by
  intro S
  obtain ⟨order, hrun⟩ := (Server.start_serves handle reqs db recbuff sendbuff).run hreqs events
  rw [List.nil_append] at hrun
  refine ⟨order, hrun.db, fun i => ?_⟩
  have hsees := hrun.sees i
  exact ⟨hsees.first, hsees.all_done, hsees.fares.1, fun hopen hzero => ((hsees.fares.2 hopen).idle hzero).2⟩

/-- An empty argument fits into its length field. -/
theorem empty_fits : ([] : Bytes).length < 2 ^ 32 := Nat.two_pow_pos 32

/-- A PING. -/
def pingRequest : ClientRequest := ⟨12, (1, 2, 3), [], [], empty_fits, empty_fits⟩

/-- `do_ping` -/
def pingOnly (db : Unit) (_ : Bool) (_ : Call) : Served × Unit := (⟨some (44, none, none), false⟩, db)

/-- The second of two clients is answered first, and half its reply is out before the first sends. -/
theorem served_run_ping :
    let S := (Server.start () (fun _ => fun _ => 0) (fun _ => fun _ => 0) fun _ => [pingRequest]).run pingOnly
      [.arrive true 12, .readable true (.took 12) (.took 12) (.took 6), .arrive false 12,
        .readable false (.took 12) (.took 12) (.took 12), .writable true (.took 6)]
    ∃ order : List (Bool × ClientRequest), S.db = (serveAll (serveRequest pingOnly) () order).2 ∧ ∀ i,
      ofClient i order <+: [pingRequest] ∧ (S.peers i).s.wire <+: repliesTo pingOnly () order i := by
  obtain ⟨order, hdb, hrest⟩ := served_run pingOnly (fun _ => [pingRequest])
    (by
      intro i req hreq
      rw [List.mem_singleton.1 hreq]
      exact ⟨by unfold ClientRequest.Passes; decide, by decide⟩) () (fun _ => fun _ => 0) (fun _ => fun _ => 0)
    [.arrive true 12, .readable true (.took 12) (.took 12) (.took 6), .arrive false 12,
      .readable false (.took 12) (.took 12) (.took 12), .writable true (.took 6)]
  exact ⟨order, hdb, fun i => ⟨(hrest i).1, (hrest i).2.2.1⟩⟩

end

end RdfStore.Dbms
