import RdfStore.Dbms.Wire
import RdfStore.FlatStore
import Mathlib.Logic.Function.Iterate

/-!
# Updates over the network (`libdbms.c`, `handler.c`)

`dbms_comms` tries a request up to ten times, over a new connection after each
failure, whatever the failure was.  An attempt that breaks after the server has
read the request has done its work, and the next attempt does it again.

    a counter that is reported incremented was incremented once
      ↔ the attempts that failed broke before the server read the request      (remoteRun_iff)
-/

namespace RdfStore.Dbms

open ByteMem

/-! ## The server -/

/-- The database of the connection. -/
abbrev Db := Bytes → Option Bytes

/-- What a handler sends. -/
structure ServerReply where
  token : Nat
  found : Bool
  v1 : Bytes
  v2 : Bytes
  deriving DecidableEq

section

/-! What lies in memory behind a value, and the fifth byte of `outbuf`. -/

variable (behind : Bytes) (outbuf4 : UInt8)

/-- The `dbms_counter` at the beginning of a value. -/
def counterOf (v : Bytes) : UInt32 := (unpackInt (v ++ behind)).toUInt32

/-- The counter under a key is changed and put back, with the bytes in `pad` behind it. -/
def doPackcount (token : Nat) (change : UInt32) (pad : Bytes) (db : Db) (key : Bytes) :
    ServerReply × Db :=
  match db key with
  | none => (⟨token, false, [], []⟩, db)
  | some v =>
    if v = [] then (⟨token, false, [], []⟩, db)
    else
      let val := packInt (counterOf behind v + change).toNat ++ pad
      (⟨token, true, [], val⟩, Function.update db key (some val))

/-- `do_packinc` -/
def doPackinc (db : Db) (key : Bytes) : ServerReply × Db := doPackcount behind tokenPackinc 1 [] db key

/-- `do_packdec`, which stores a byte more than a counter has. -/
def doPackdec (db : Db) (key : Bytes) : ServerReply × Db :=
  doPackcount behind tokenPackdec (-1) [outbuf4] db key

/-- `do_store` -/
def doStore (db : Db) (key val : Bytes) : ServerReply × Db :=
  (⟨tokenStore, true, [], []⟩, Function.update db key (some val))

/-- `do_delete` -/
def doDelete (db : Db) (key : Bytes) : ServerReply × Db :=
  (⟨tokenDelete, (db key).isSome, [], []⟩, Function.update db key none)

inductive Update
  | store (key val : Bytes)
  | packinc (key : Bytes)
  | packdec (key : Bytes)
  | delete (key : Bytes)
  deriving DecidableEq

def Update.token : Update → Nat
  | .store _ _ => tokenStore
  | .packinc _ => tokenPackinc
  | .packdec _ => tokenPackdec
  | .delete _ => tokenDelete

/-- The bytes of key and value. -/
def Update.size : Update → Nat
  | .store key val => key.length + val.length
  | .packinc key => key.length
  | .packdec key => key.length
  | .delete key => key.length

def Update.exec (db : Db) : Update → ServerReply × Db
  | .store key val => doStore db key val
  | .packinc key => doPackinc behind db key
  | .packdec key => doPackdec behind outbuf4 db key
  | .delete key => doDelete db key

end

/-! ## What can happen to an attempt -/

/-- The end of the `recv` loop of `getpack`. -/
inductive PackFate
  | whole
  | closed
  | failed
  deriving DecidableEq

/-- The reply: no whole header (the connection was closed, or `recv` failed or read short), or a
header and two payloads. -/
inductive ReplyFate
  | noHeader (closed : Bool)
  | header (p1 p2 : PackFate)
  deriving DecidableEq

/-- An exchange over a connection on which the database is selected: the request is not sent whole,
is lost on the way, is answered by an error, or is read by the server. -/
inductive Exchange
  | unsent (closed : Bool)
  | unserved (closed : Bool)
  | refused
  | served (reply : ReplyFate)
  deriving DecidableEq

/-- An exchange over a connection on which INIT has failed or a payload was left unread. What is
read there is no reply to the request: it fails, though the server may have read the request. -/
structure HalfExchange where
  served : Bool
  err : Nat
  fails : err ≠ 0

/-- `reconnect` and `reselect`. -/
inductive Reopen
  | unconnected
  | unselected (err : Nat) (fails : err ≠ 0)
  | selected

/-- What happens in one round of `dbms_comms`. -/
structure Attempt where
  ready : Exchange
  halfway : HalfExchange
  reopen : Reopen

/-! ## The client -/

def eFullread : Nat := 1002
def eFullwrite : Nat := 1003
def eClose : Nat := 1004
def eProto : Nat := 1007
def eError : Nat := 1008
def eToobig : Nat := 1013
def eagain : Nat := 11
def eintr : Nat := 4

def maxPayload : Nat := 128 * 1024

/-- `me->sockfd`: none, open, or open with the database selected. -/
inductive Link
  | down
  | halfway
  | ready
  deriving DecidableEq

/-- The connection and the database behind it. -/
structure Remote where
  link : Link
  db : Db

/-- In the course of `dbms_comms`: with the error, `*retval` and the payload in `r2`. -/
structure Comms extends Remote where
  err : Nat
  retval : Int
  r2 : Option Bytes

/-- `getpack` -/
def getpack (len : Nat) (fate : PackFate) : Nat :=
  if len = 0 then 0
  else if len > maxPayload then eToobig
  else
    match fate with
    | .whole => 0
    | .closed => eClose
    | .failed => eError

/-- The end of `i_comms`, with a whole header in. -/
def readReply (token : Nat) (reply : ServerReply) (p1 p2 : PackFate) (st : Comms) : Comms :=
  if getpack reply.v1.length p1 ≠ 0 then { st with link := .halfway, err := getpack reply.v1.length p1 }
  else if getpack reply.v2.length p2 ≠ 0 then
    { st with link := .halfway, err := getpack reply.v2.length p2 }
  else if reply.token ≠ token then { st with err := eProto }
  else if reply.found then { st with err := 0, retval := 0, r2 := some reply.v2 }
  else { st with err := 0, retval := 1, r2 := none }

section

variable (behind : Bytes) (outbuf4 : UInt8)

/-- `i_comms`; the count of bytes that `sendmsg` and `recv` return is unsigned, so a failure shows
as a short count. -/
def iComms (req : Update) (a : Attempt) (st : Comms) : Comms :=
  let st := { st with retval := -1 }
  -- the header is of 12 bytes
  if 12 + req.size > maxPayload then { st with err := eToobig }
  else
    let (reply, db) := req.exec behind outbuf4 st.db
    match st.link with
    | .down => st
    | .halfway => { st with db := if a.halfway.served then db else st.db, err := a.halfway.err }
    | .ready =>
      match a.ready with
      | .unsent closed => { st with err := if closed then eClose else eFullwrite }
      | .unserved closed => { st with err := if closed then eClose else eFullread }
      | .refused => { st with err := eError }
      | .served (.noHeader closed) => { st with db := db, err := if closed then eClose else eFullread }
      | .served (.header p1 p2) => readReply req.token reply p1 p2 { st with db := db }

def reopen (r : Reopen) (st : Comms) : Comms :=
  match r with
  | .unconnected => { st with link := .down, err := eError }
  | .unselected err _ => { st with link := .halfway, err := err }
  | .selected => { st with link := .ready, err := 0 }

/-- One round of the loop of `dbms_comms`: whether it is the last, and what it leaves. -/
def commsRound (req : Update) (a : Attempt) (st : Comms) : Bool × Comms :=
  let st := if st.link = .down then st else iComms behind outbuf4 req a st
  if st.link ≠ .down ∧ st.err = 0 then (true, st)
  else if st.err = eagain ∨ st.err = eintr then (false, st)
  else if st.err = eError then (true, st)
  else (false, reopen a.reopen st)

/-- The loop, with the number of rounds that are left. -/
def commsLoop (req : Update) (pattern : Nat → Attempt) : Nat → Comms → Comms
  | 0, st => st
  | n + 1, st =>
    match commsRound behind outbuf4 req (pattern (9 - n)) st with
    | (true, st) => st
    | (false, st) => commsLoop req pattern n st

/-- `dbms_comms` -/
def dbmsComms (req : Update) (pattern : Nat → Attempt) (me : Remote) : Comms :=
  commsLoop behind outbuf4 req pattern 10 { me with err := 0, retval := -1, r2 := none }

/-! ## Once -/

/-- The counter under a key. -/
def counterAt (db : Db) (key : Bytes) : Option UInt32 :=
  ((db key).filter (· ≠ [])).map (counterOf behind)

/-- The counter was changed once, and its new value was reported. -/
def CountedOnce (db : Db) (key : Bytes) (change : UInt32) (out : Comms) : Prop :=
  ∃ c, counterAt behind db key = some c ∧ counterAt behind out.db key = some (c + change) ∧
    out.r2.map (counterOf behind) = some (c + change)

/-- The counter a request is about, and what it adds to it. -/
def Update.counter : Update → Option (Bytes × UInt32)
  | .packinc key => some (key, 1)
  | .packdec key => some (key, -1)
  | .store _ _ => none
  | .delete _ => none

/-- What the client relies on when a request for a counter comes back well. -/
def Update.Once (req : Update) (db : Db) (out : Comms) : Prop :=
  ∀ key change, req.counter = some (key, change) → CountedOnce behind db key change out

/-- The server reads the whole request in this attempt. -/
def Attempt.served (a : Attempt) (req : Update) (link : Link) : Bool :=
  if 12 + req.size > maxPayload then false
  else
    match link with
    | .down => false
    | .halfway => a.halfway.served
    | .ready =>
      match a.ready with
      | .served _ => true
      | .unsent _ | .unserved _ | .refused => false

/-- Each attempt of the loop that fails breaks before the server has read the request. -/
def FailedUnserved (req : Update) (pattern : Nat → Attempt) : Nat → Comms → Prop
  | 0, _ => True
  | n + 1, st =>
    match commsRound behind outbuf4 req (pattern (9 - n)) st with
    | (true, st') => st'.err ≠ 0 → (pattern (9 - n)).served req st.link = false
    | (false, st') =>
      (pattern (9 - n)).served req st.link = false ∧ FailedUnserved req pattern n st'

/-- The same of a call. -/
def FailedUnservedCall (req : Update) (pattern : Nat → Attempt) (me : Remote) : Prop :=
  FailedUnserved behind outbuf4 req pattern 10 { me with err := 0, retval := -1, r2 := none }

/-- The calls of one client: every increment and decrement that comes back well was done once. -/
def OnceRun : List (Update × (Nat → Attempt)) → Remote → Prop
  | [], _ => True
  | (req, pattern) :: calls, me =>
    let out := dbmsComms behind outbuf4 req pattern me
    (out.err = 0 → out.retval = 0 → req.Once behind me.db out) ∧ OnceRun calls out.toRemote

/-- In every increment and decrement that comes back well the failed attempts were not served. -/
def UnservedRun : List (Update × (Nat → Attempt)) → Remote → Prop
  | [], _ => True
  | (req, pattern) :: calls, me =>
    let out := dbmsComms behind outbuf4 req pattern me
    (out.err = 0 → out.retval = 0 → req.counter.isSome →
      FailedUnservedCall behind outbuf4 req pattern me) ∧
      UnservedRun calls out.toRemote

/-! ## One attempt -/

variable {behind outbuf4} {req : Update} {a : Attempt} {st : Comms}

/-- What an attempt over an open connection does: it works on the database exactly when it is
served, an error leaves -1 in `*retval`, and without an error it was served and brings the payload
of what was found. -/
structure AttemptSpec (behind : Bytes) (outbuf4 : UInt8) (req : Update) (served : Bool) (db : Db)
    (st' : Comms) : Prop where
  link : st'.link ≠ .down
  worked : st'.db = if served then (req.exec behind outbuf4 db).2 else db
  failed : st'.err ≠ 0 → st'.retval = -1
  reply : st'.err = 0 → served = true ∧ (st'.retval = 0 →
    (req.exec behind outbuf4 db).1.found = true ∧ st'.r2 = some (req.exec behind outbuf4 db).1.v2)

/-- Nothing was read that is a reply. -/
theorem AttemptSpec.of_failed {served : Bool} {db : Db} {st' : Comms} (hlink : st'.link ≠ .down)
    (hdb : st'.db = if served then (req.exec behind outbuf4 db).2 else db) (herr : st'.err ≠ 0)
    (hretval : st'.retval = -1) : AttemptSpec behind outbuf4 req served db st' :=
  ⟨hlink, hdb, fun _ => hretval, fun h => absurd h herr⟩

theorem readReply_spec {db : Db} {p1 p2 : PackFate} (hlink : st.link ≠ .down)
    (hdb : st.db = (req.exec behind outbuf4 db).2) (hretval : st.retval = -1) :
    AttemptSpec behind outbuf4 req true db
      (readReply req.token (req.exec behind outbuf4 db).1 p1 p2 st) := by
  unfold readReply
  split
  · next h1 => exact AttemptSpec.of_failed nofun hdb h1 hretval
  · split
    · next h2 => exact AttemptSpec.of_failed nofun hdb h2 hretval
    · split
      · exact AttemptSpec.of_failed hlink hdb nofun hretval
      · split
        · next hfound => exact ⟨hlink, hdb, fun h => absurd rfl h, fun _ => ⟨rfl, fun _ => ⟨hfound, rfl⟩⟩⟩
        · exact ⟨hlink, hdb, fun h => absurd rfl h, fun _ => ⟨rfl, nofun⟩⟩

theorem iComms_spec (hlink : st.link ≠ .down) :
    AttemptSpec behind outbuf4 req (a.served req st.link) st.db (iComms behind outbuf4 req a st) := by
  unfold iComms Attempt.served
  split
  · exact AttemptSpec.of_failed hlink rfl nofun rfl
  · obtain ⟨⟨link, db⟩, err, retval, r2⟩ := st
    cases link with
    | down => exact absurd rfl hlink
    | halfway => exact AttemptSpec.of_failed nofun rfl a.halfway.fails rfl
    | ready =>
      cases a.ready with
      | unsent closed => exact AttemptSpec.of_failed nofun rfl (by cases closed <;> nofun) rfl
      | unserved closed => exact AttemptSpec.of_failed nofun rfl (by cases closed <;> nofun) rfl
      | refused => exact AttemptSpec.of_failed nofun rfl nofun rfl
      | served fate =>
        cases fate with
        | noHeader closed => exact AttemptSpec.of_failed nofun rfl (by cases closed <;> nofun) rfl
        | header p1 p2 => exact readReply_spec nofun rfl rfl

/-! ## The loop -/

@[simp] theorem reopen_db (r : Reopen) (st : Comms) : (reopen r st).db = st.db := by
  cases r <;> rfl

@[simp] theorem reopen_retval (r : Reopen) (st : Comms) : (reopen r st).retval = st.retval := by
  cases r <;> rfl

/-- What a round does. -/
structure RoundSpec (behind : Bytes) (outbuf4 : UInt8) (req : Update) (served : Bool) (db : Db)
    (result : Bool × Comms) : Prop where
  worked : result.2.db = if served then (req.exec behind outbuf4 db).2 else db
  again : result.1 = false → result.2.retval = -1
  reply : result.1 = true → result.2.err = 0 → served = true ∧ (result.2.retval = 0 →
    (req.exec behind outbuf4 db).1.found = true ∧
      result.2.r2 = some (req.exec behind outbuf4 db).1.v2)

theorem commsRound_spec (hretval : st.retval = -1) :
    RoundSpec behind outbuf4 req (a.served req st.link) st.db (commsRound behind outbuf4 req a st) := by
  unfold commsRound
  by_cases hlink : st.link = .down
  · -- there is no connection: nothing is tried
    have hserved : a.served req st.link = false := by
      unfold Attempt.served
      rw [hlink]
      split <;> rfl
    have hdb : st.db = if a.served req st.link then (req.exec behind outbuf4 st.db).2 else st.db := by
      rw [hserved]
      rfl
    simp only [if_pos hlink]
    rw [if_neg (fun h => h.1 hlink)]
    split
    · exact ⟨hdb, fun _ => hretval, nofun⟩
    · split
      · next herr =>
        refine ⟨hdb, nofun, fun _ h0 => ?_⟩
        rw [h0] at herr
        cases herr
      · exact ⟨by simpa using hdb, fun _ => by simpa using hretval, nofun⟩
  · simp only [if_neg hlink]
    have hspec := @iComms_spec behind outbuf4 req a st hlink
    split
    · next hok => exact ⟨hspec.worked, nofun, fun _ h0 => hspec.reply h0⟩
    · next hok =>
      have herr : (iComms behind outbuf4 req a st).err ≠ 0 := fun h0 => hok ⟨hspec.link, h0⟩
      split
      · exact ⟨hspec.worked, fun _ => hspec.failed herr, nofun⟩
      · split
        · exact ⟨hspec.worked, nofun, fun _ h0 => absurd h0 herr⟩
        · exact ⟨by simpa using hspec.worked, fun _ => by simpa using hspec.failed herr, nofun⟩

/-- A call that comes back well ends with an attempt that was served, after `k` failed attempts that
were served too. -/
theorem commsLoop_reply (pattern : Nat → Attempt) (n : Nat) :
    ∀ st : Comms, st.retval = -1 → (commsLoop behind outbuf4 req pattern n st).err = 0 →
      (commsLoop behind outbuf4 req pattern n st).retval = 0 →
      ∃ k < n, ∃ db, db = (fun db => (req.exec behind outbuf4 db).2)^[k] st.db ∧
        (req.exec behind outbuf4 db).1.found = true ∧
        (commsLoop behind outbuf4 req pattern n st).db = (req.exec behind outbuf4 db).2 ∧
        (commsLoop behind outbuf4 req pattern n st).r2 = some (req.exec behind outbuf4 db).1.v2 ∧
        (FailedUnserved behind outbuf4 req pattern n st ↔ k = 0) := by
  induction n with
  | zero =>
    intro st hretval _ h0
    rw [commsLoop, hretval] at h0
    cases h0
  | succ n ih =>
    intro st hretval herr h0
    have hround := @commsRound_spec behind outbuf4 req (pattern (9 - n)) st hretval
    unfold commsLoop at herr h0 ⊢
    unfold FailedUnserved
    cases hr : commsRound behind outbuf4 req (pattern (9 - n)) st with
    | mk leave st' =>
      rw [hr] at herr h0 hround
      cases leave with
      | true =>
        obtain ⟨hserved, hreply⟩ := hround.reply rfl herr
        obtain ⟨hfound, hr2⟩ := hreply h0
        have hdb : st'.db = (req.exec behind outbuf4 st.db).2 := by
          have hworked := hround.worked
          rw [hserved] at hworked
          exact hworked
        exact ⟨0, Nat.succ_pos n, st.db, rfl, hfound, hdb, hr2, fun _ => rfl, fun _ h => absurd herr h⟩
      | false =>
        obtain ⟨k, hk, db, hdb, hfound, hout, hr2, hiff⟩ := ih st' (hround.again rfl) herr h0
        have hworked : st'.db = _ := hround.worked
        cases hserved : (pattern (9 - n)).served req st.link with
        | false =>
          rw [hserved] at hworked
          refine ⟨k, by omega, db, ?_, hfound, hout, hr2, ?_⟩
          · rw [hdb, hworked]
            rfl
          · simp only [true_and, hiff]
        | true =>
          rw [hserved] at hworked
          refine ⟨k + 1, by omega, db, ?_, hfound, hout, hr2, ?_⟩
          · rw [hdb, hworked, Function.iterate_succ_apply]
            rfl
          · simp

/-! ## Counters -/

theorem counterOf_packInt (l : UInt32) (rest : Bytes) :
    counterOf behind (packInt l.toNat ++ rest) = l := by
  unfold counterOf
  rw [List.append_assoc, unpackInt_packInt_append]
  simp

theorem counterAt_update (db : Db) (key v : Bytes) (hv : v ≠ []) :
    counterAt behind (Function.update db key (some v)) key = some (counterOf behind v) := by
  unfold counterAt
  rw [Function.update_self, Option.filter_some, if_pos (by simpa using hv)]
  rfl

theorem counterAt_some {db : Db} {key v : Bytes} (h : db key = some v) (hv : v ≠ []) :
    counterAt behind db key = some (counterOf behind v) := by
  unfold counterAt
  rw [h, Option.filter_some, if_pos (by simpa using hv)]
  rfl

theorem counterAt_none {db : Db} {key : Bytes} (h : ∀ v, db key = some v → v = []) :
    counterAt behind db key = none := by
  unfold counterAt
  cases hv : db key with
  | none => rfl
  | some v => rw [Option.filter_some, if_neg (by simpa using h v hv)]; rfl

theorem doPackcount_counter (token : Nat) (change : UInt32) (pad : Bytes) (db : Db) (key : Bytes) :
    counterAt behind (doPackcount behind token change pad db key).2 key =
        (counterAt behind db key).map (· + change) ∧
      ((doPackcount behind token change pad db key).1.found = true →
        ∃ c, counterAt behind db key = some c ∧
          counterOf behind (doPackcount behind token change pad db key).1.v2 = c + change) := by
  unfold doPackcount
  cases hv : db key with
  | none =>
    have hnone : counterAt behind db key = none := counterAt_none (by simp [hv])
    simp only [hnone]
    exact ⟨rfl, nofun⟩
  | some v =>
    simp only
    split
    · next hnil =>
      have hnone : counterAt behind db key = none := counterAt_none (by simp [hv, hnil])
      simp only [hnone]
      exact ⟨rfl, nofun⟩
    · next hne =>
      have hne' : packInt (counterOf behind v + change).toNat ++ pad ≠ [] :=
        List.append_ne_nil_of_left_ne_nil (List.cons_ne_nil _ _) _
      rw [counterAt_some hv hne, counterAt_update _ _ _ hne', counterOf_packInt]
      exact ⟨rfl, fun _ => ⟨_, rfl, rfl⟩⟩

/-- What a request for a counter does to it, and what it reports. -/
theorem exec_counter {key : Bytes} {change : UInt32} (hreq : req.counter = some (key, change)) (db : Db) :
    counterAt behind (req.exec behind outbuf4 db).2 key = (counterAt behind db key).map (· + change) ∧
      ((req.exec behind outbuf4 db).1.found = true → ∃ c, counterAt behind db key = some c ∧
        counterOf behind (req.exec behind outbuf4 db).1.v2 = c + change) := by
  cases req with
  | store key val => cases hreq
  | delete key => cases hreq
  | packinc key =>
    cases hreq
    exact doPackcount_counter _ _ _ _ _
  | packdec key =>
    cases hreq
    exact doPackcount_counter _ _ _ _ _

/-- A counter after `k` requests. -/
theorem exec_iterate_counter {key : Bytes} {change : UInt32} (hreq : req.counter = some (key, change))
    (db : Db) (k : Nat) :
    counterAt behind ((fun db => (req.exec behind outbuf4 db).2)^[k] db) key =
      (counterAt behind db key).map (· + k.toUInt32 * change) := by
  induction k with
  | zero =>
    rw [Function.iterate_zero_apply]
    cases counterAt behind db key <;> simp
  | succ k ih =>
    rw [Function.iterate_succ_apply', (exec_counter hreq _).1, ih, Option.map_map]
    congr 1
    funext c
    have hcast : (k + 1).toUInt32 = k.toUInt32 + 1 := by simp
    simp only [Function.comp_apply, hcast]
    grind

/-- Fewer than ten further changes by one are seen. -/
theorem counter_back_iff {key : Bytes} {change : UInt32} (hreq : req.counter = some (key, change))
    {k : Nat} (hk : k < 10) (c : UInt32) : c + k.toUInt32 * change + change = c + change ↔ k = 0 := by
  have hcancel : c + k.toUInt32 * change + change = c + change ↔ k.toUInt32 * change = 0 := by grind
  rw [hcancel]
  have hchange : change = 1 ∨ change = -1 := by
    cases req with
    | store key val => cases hreq
    | delete key => cases hreq
    | packinc key => cases hreq; exact Or.inl rfl
    | packdec key => cases hreq; exact Or.inr rfl
  have hup : ∀ k < 10, Nat.toUInt32 k * 1 = 0 ↔ k = 0 := by decide
  have hdown : ∀ k < 10, Nat.toUInt32 k * -1 = 0 ↔ k = 0 := by decide
  rcases hchange with rfl | rfl
  · exact hup k hk
  · exact hdown k hk

/-- A counter that is reported changed was changed once exactly when no failed attempt was served. -/
theorem once_iff {pattern : Nat → Attempt} {me : Remote} {key : Bytes} {change : UInt32}
    (hreq : req.counter = some (key, change))
    (herr : (dbmsComms behind outbuf4 req pattern me).err = 0)
    (hretval : (dbmsComms behind outbuf4 req pattern me).retval = 0) :
    req.Once behind me.db (dbmsComms behind outbuf4 req pattern me) ↔
      FailedUnservedCall behind outbuf4 req pattern me := by
  obtain ⟨k, hk, db, hdb, hfound, hout, hr2, hiff⟩ := commsLoop_reply pattern 10
    { me with err := 0, retval := -1, r2 := none } rfl herr hretval
  obtain ⟨hcounter, hreply⟩ := @exec_counter behind outbuf4 req key change hreq db
  obtain ⟨c', hc', hv2⟩ := hreply hfound
  rw [hdb, exec_iterate_counter hreq] at hc'
  obtain ⟨c, hc, rfl⟩ := Option.map_eq_some_iff.1 hc'
  have hafter : counterAt behind (dbmsComms behind outbuf4 req pattern me).db key =
      some (c + k.toUInt32 * change + change) := by
    rw [dbmsComms, hout, hcounter, hdb, exec_iterate_counter hreq, hc]
    rfl
  have hreported : (dbmsComms behind outbuf4 req pattern me).r2.map (counterOf behind) =
      some (c + k.toUInt32 * change + change) := by
    rw [dbmsComms, hr2, Option.map_some, hv2]
  refine Iff.trans ?_ hiff.symm
  rw [← counter_back_iff hreq hk c]
  constructor
  · intro h
    obtain ⟨c₀, hc₀, hc₁, -⟩ := h key change hreq
    rw [hc] at hc₀
    cases hc₀
    rw [hafter] at hc₁
    exact Option.some.inj hc₁
  · intro h key' change' hreq'
    rw [hreq] at hreq'
    cases hreq'
    exact ⟨c, hc, by rw [hafter, h], by rw [hreported, h]⟩

/-! ## Runs -/

variable (behind outbuf4) in
/-- Over all runs of one client and all ways its attempts break: every counter that is reported
changed was changed once, if and only if no attempt that failed was served in a call that came back
well. -/
theorem remoteRun_iff (calls : List (Update × (Nat → Attempt))) (me : Remote) :
    OnceRun behind outbuf4 calls me ↔ UnservedRun behind outbuf4 calls me := by
  induction calls generalizing me with
  | nil => exact Iff.rfl
  | cons call calls ih =>
    obtain ⟨req, pattern⟩ := call
    unfold OnceRun UnservedRun
    refine and_congr ?_ (ih _)
    refine forall_congr' fun herr => forall_congr' fun hretval => ?_
    cases hreq : req.counter with
    | none => exact ⟨fun _ => nofun, fun _ => fun key change h => by rw [hreq] at h; cases h⟩
    | some p =>
      obtain ⟨key, change⟩ := p
      rw [once_iff hreq herr hretval]
      exact ⟨fun h _ => h, fun h => h rfl⟩

end

/-- The header of the first reply is read short. -/
def shortReply : Nat → Attempt := fun errs =>
  ⟨if errs = 0 then .served (.noHeader false) else .served (.header .whole .whole),
    ⟨false, eClose, by decide⟩, .selected⟩

def counterSeven : Remote := ⟨.ready, fun key => if key = [1] then some [0, 0, 0, 7] else none⟩

/-- One PACKINC that comes back well has taken the counter from 7 to 9. -/
theorem dbmsComms_counts_twice :
    ∃ out, out = dbmsComms [] 0 (.packinc [1]) shortReply counterSeven ∧ out.err = 0 ∧ out.retval = 0 ∧
      out.db [1] = some [0, 0, 0, 9] ∧ ¬ OnceRun [] 0 [(.packinc [1], shortReply)] counterSeven := by
  refine ⟨_, rfl, by decide, by decide, by decide, ?_⟩
  rintro ⟨h, -⟩
  obtain ⟨c, hc, hc', -⟩ := h (by decide) (by decide) [1] 1 rfl
  have hseven : c = 7 := Option.some.inj (hc.symm.trans (by decide))
  subst hseven
  revert hc'
  decide

end RdfStore.Dbms
