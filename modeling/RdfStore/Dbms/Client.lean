import RdfStore.Dbms.Comms
import RdfStore.Dbms.Requests

/-!
# What the calls of `dbms_comms` return (`libdbms.c`)

Each `sendmsg`, `recv` and `connect` of the ten rounds may end in any way; a round
reads what its own calls return.  A connection is out of step once an exchange on
it was broken off: what is left of it may be read as part of a later reply.

    without an error, some attempt received the whole reply       (zero_status_iff)
      ↔ the tenth reopening is not taken for a reply, and nothing
        that was left unread is
-/

namespace RdfStore.Dbms.Client

open ByteMem

/-! ## The calls -/

/-- What `recv` returns. -/
inductive Recv
  | closed
  | failed
  | got (b : Bytes)

/-- For a payload: whether `malloc` succeeds, and what `recv` returns, one call after the other. -/
structure PackCalls where
  malloc : Bool
  recv : ℕ → Recv

/-- For one `i_comms`; the count of `sendmsg` is unsigned there. -/
structure Exchange where
  sendmsg : ℕ
  header : Recv
  pack1 : PackCalls
  pack2 : PackCalls

/-- For one round: the attempt, `connect`, and INIT over the new connection. -/
structure Round where
  request : Exchange
  connects : Bool
  init : Exchange

def eVersion : ℕ := 1006
def eNomem : ℕ := 1009
def eNope : ℕ := 1011

/-- Of a token: `MASK_TOKEN`, `F_FOUND`. -/
def maskToken (token : UInt8) : ℕ := (token &&& 31).toNat

def isFound (token : UInt8) : Bool := token &&& 32 = 32

/-- In the course of `dbms_comms`.  `sockfd` is the connection, if there is one, and whether it is out of step; `r1` and
`r2` are what the caller's DBTs hold, `none` for a null pointer. -/
structure Call where
  sockfd : Option Bool
  err : ℕ
  retval : ℤ
  r1 : Option Bytes
  r2 : Option Bytes

/-! ## Replies -/

/-- The loop of `getpack`: call `k`, with the bytes `gotten` so far; every call brings one at least. -/
def packLoop (recv : ℕ → Recv) (len : ℕ) : ℕ → ℕ → Bytes → Except ℕ Bytes
  | 0, _, gotten => .ok gotten
  | fuel + 1, k, gotten =>
    if len ≤ gotten.length then .ok gotten
    else
      match recv k with
      | .failed => .error eError
      | .closed => .error eClose
      | .got b =>
        if b = [] then .error eClose else packLoop recv len fuel (k + 1) (gotten ++ b.take (len - gotten.length))

/-- `getpack` -/
def getpack (len : ℕ) (calls : PackCalls) : Except ℕ Bytes :=
  if len = 0 then .ok []
  else if maxPayload < len then .error eToobig
  else if ¬ calls.malloc then .error eNomem
  else packLoop calls.recv len len 0 []

/-- The first half of `i_comms` for a request of `size` bytes: the header and both payloads of the reply. -/
def readReply (size : ℕ) (x : Exchange) : Except ℕ (Header × Bytes × Bytes) :=
  if x.sendmsg = 0 then .error eClose
  else if x.sendmsg ≠ size then .error eFullwrite
  else
    match x.header with
    | .closed => .error eClose
    -- the count of bytes is unsigned, a failure shows as a wrong count
    | .failed => .error eFullread
    | .got b =>
      if b.length ≠ headerSize then .error eFullread
      else do
        let v1 ← getpack (Header.ofBytes b).len1.toNat x.pack1
        let v2 ← getpack (Header.ofBytes b).len2.toNat x.pack2
        .ok (Header.ofBytes b, v1, v2)

/-- The bytes of a request. -/
def requestSize (v1 v2 : Option Bytes) : ℕ := headerSize + (v1.getD []).length + (v2.getD []).length

/-- `i_comms` -/
def iComms (token : ℕ) (v1 v2 : Option Bytes) (x : Exchange) (st : Call) : Call :=
  let st := { st with retval := -1 }
  if maxPayload < requestSize v1 v2 then { st with err := eToobig }
  else
    -- `exit_com`: what the caller's DBTs hold is freed
    let fail (sockfd : Option Bool) (err : ℕ) : Call :=
      { st with sockfd := sockfd, err := err, r1 := st.r1.map fun _ => [], r2 := st.r2.map fun _ => [] }
    match readReply (requestSize v1 v2) x with
    | .error err => fail (some true) err
    | .ok (cmd, p1, p2) =>
      if maskToken cmd.token = tokenError then fail st.sockfd eError
      else if maskToken cmd.token ≠ token then fail st.sockfd eProto
      else if isFound cmd.token then
        { st with err := 0, retval := 0, r1 := st.r1.map fun _ => p1, r2 := st.r2.map fun _ => p2 }
      else { st with err := 0, retval := 1, r1 := st.r1.map fun _ => [], r2 := st.r2.map fun _ => [] }

/-! ## Rounds -/

/-- What `dbms` keeps for INIT. -/
structure Handle where
  name : Bytes
  mode : UInt32
  btCompareFcnType : UInt32

section

-- what lies in memory behind a payload
variable (me : Handle) (behind : Bytes)

/-- `reselect`: the connection and the error; `none` where a null pointer is read. -/
def reselect (x : Exchange) (sockfd : Option Bool) : Option (Option Bool × ℕ) :=
  let buff := packInt dbmsProto ++ packInt me.mode.toNat ++ packInt me.btCompareFcnType.toNat
  let st := iComms tokenInit (some buff) (some me.name) x ⟨sockfd, 0, -1, some [], none⟩
  if st.err ≠ 0 then some (st.sockfd, st.err)
  else if st.retval = 1 then some (st.sockfd, eNope)
  else if st.retval < 0 then some (st.sockfd, eProto)
  else if st.r1.getD [] = [] then none
  else if dbmsProto < unpackInt (st.r1.getD [] ++ behind) then some (st.sockfd, eVersion)
  else some (st.sockfd, 0)

/-- `reconnect` and `reselect`. -/
def reopen (r : Round) (st : Call) : Option Call :=
  if ¬ r.connects then some { st with sockfd := none, err := eError }
  else (reselect me behind r.init (some false)).map fun p => { st with sockfd := p.1, err := p.2 }

variable (token : ℕ) (v1 v2 : Option Bytes)

/-- One round of the loop of `dbms_comms`: whether it is the last, and what it leaves. -/
def commsRound (r : Round) (st : Call) : Option (Bool × Call) :=
  let st := if st.sockfd.isSome then iComms token v1 v2 r.request st else st
  if st.sockfd.isSome ∧ st.err = 0 then some (true, st)
  else if st.err = eagain ∨ st.err = eintr then some (false, st)
  else if st.err = eError then some (true, st)
  else (reopen me behind r st).map fun st => (false, st)

/-- The loop, from round `errs` on. -/
def commsLoop (rounds : ℕ → Round) : ℕ → ℕ → Call → Option Call
  | 0, _, st => some st
  | n + 1, errs, st =>
    (commsRound me behind token v1 v2 (rounds errs) st).bind fun p =>
      if p.1 then some p.2 else commsLoop rounds n (errs + 1) p.2

/-- `dbms_comms`, over the connection that the last call has left. -/
def dbmsComms (rounds : ℕ → Round) (sockfd : Option Bool) (r1 r2 : Option Bytes) : Option Call :=
  commsLoop me behind token v1 v2 rounds 10 0 ⟨sockfd, 0, -1, r1, r2⟩

/-! ## What a zero status should mean -/

/-- A reply, with both payloads as long as the header says. -/
structure Reply where
  cmd : Header
  v1 : Bytes
  v2 : Bytes
  whole1 : v1.length = cmd.len1.toNat
  whole2 : v2.length = cmd.len2.toNat

/-- The request is sent whole, and what is read is a whole reply to a request of its kind, other than an error. -/
structure Delivers (x : Exchange) (reply : Reply) : Prop where
  fits : requestSize v1 v2 ≤ maxPayload
  read : readReply (requestSize v1 v2) x = .ok (reply.cmd, reply.v1, reply.v2)
  kind : maskToken reply.cmd.token = token
  noError : token ≠ tokenError

/-- `retval` and the caller's DBTs are those of the reply; one that found nothing leaves the DBTs empty. -/
structure Reports (reply : Reply) (out : Call) : Prop where
  retval : out.retval = if isFound reply.cmd.token then 0 else 1
  r1 : ∀ r ∈ out.r1, r = if isFound reply.cmd.token then reply.v1 else []
  r2 : ∀ r ∈ out.r2, r = if isFound reply.cmd.token then reply.v2 else []

/-- What there is when round `k` begins, if it comes to that. -/
def stateAt (rounds : ℕ → Round) (start : Call) : ℕ → Option Call
  | 0 => some start
  | k + 1 =>
    (stateAt rounds start k).bind fun st =>
      (commsRound me behind token v1 v2 (rounds k) st).bind fun p => if p.1 then none else some p.2

/-- Some attempt received the reply over a connection that is in step, so that it is the reply to this request. -/
def Received (rounds : ℕ → Round) (start out : Call) : Prop :=
  ∃ k < 10, ∃ st ∈ stateAt me behind token v1 v2 rounds start k, ∃ reply,
    st.sockfd = some false ∧ Delivers token v1 v2 (rounds k).request reply ∧ Reports reply out

/-- The error of an attempt. -/
def attemptErr (x : Exchange) : ℕ := (iComms token v1 v2 x ⟨none, 0, -1, none, none⟩).err

/-- The tenth round has a connection, its attempt breaks off, and the connection is reopened. -/
def TenthReopened (rounds : ℕ → Round) (start : Call) : Prop :=
  ∃ st ∈ stateAt me behind token v1 v2 rounds start 9, st.sockfd.isSome = true ∧
    attemptErr token v1 v2 (rounds 9).request ≠ 0 ∧ attemptErr token v1 v2 (rounds 9).request ≠ eError ∧
      (rounds 9).connects = true ∧ (reselect me behind (rounds 9).init (some false)).map Prod.snd = some 0

/-- What was left unread on a connection that is out of step is read as a reply. -/
def Misread (rounds : ℕ → Round) (start : Call) : Prop :=
  ∃ k < 10, ∃ st ∈ stateAt me behind token v1 v2 rounds start k,
    st.sockfd = some true ∧ attemptErr token v1 v2 (rounds k).request = 0

end

/-! ## One attempt -/

theorem packLoop_length {recv : ℕ → Recv} {len : ℕ} (fuel k : ℕ) (gotten : Bytes) {p : Bytes}
    (hle : gotten.length ≤ len) (hfuel : len ≤ gotten.length + fuel)
    (h : packLoop recv len fuel k gotten = .ok p) : p.length = len := by
  induction fuel generalizing k gotten with
  | zero =>
    cases h
    omega
  | succ fuel ih =>
    unfold packLoop at h
    split at h
    · cases h
      omega
    · next hlt =>
      cases hrecv : recv k with
      | closed => simp [hrecv] at h
      | failed => simp [hrecv] at h
      | got b =>
        simp only [hrecv] at h
        split at h
        · cases h
        · next hb =>
          have hpos := List.length_pos_iff.2 hb
          refine ih (k + 1) _ ?_ ?_ h
          · simp only [List.length_append, List.length_take]
            omega
          · simp only [List.length_append, List.length_take]
            omega

theorem getpack_length {len : ℕ} {calls : PackCalls} {p : Bytes} (h : getpack len calls = .ok p) : p.length = len := by
  unfold getpack at h
  split_ifs at h with hzero
  · cases h
    exact hzero.symm
  · exact packLoop_length len 0 [] (Nat.zero_le _) (by simp) h

/-- The errors of the client itself. -/
theorem packLoop_error {recv : ℕ → Recv} {len fuel k : ℕ} {gotten : Bytes} {e : ℕ}
    (h : packLoop recv len fuel k gotten = .error e) : 1000 ≤ e := by
  induction fuel generalizing k gotten with
  | zero => cases h
  | succ fuel ih =>
    unfold packLoop at h
    split at h
    · cases h
    · cases hrecv : recv k with
      | closed =>
        simp only [hrecv] at h
        cases h
        decide
      | failed =>
        simp only [hrecv] at h
        cases h
        decide
      | got b =>
        simp only [hrecv] at h
        split at h
        · cases h
          decide
        · exact ih h

theorem getpack_error {len : ℕ} {calls : PackCalls} {e : ℕ} (h : getpack len calls = .error e) : 1000 ≤ e := by
  unfold getpack at h
  split_ifs at h
  · cases h
    decide
  · exact packLoop_error h
  · cases h
    decide

theorem readReply_error {size : ℕ} {x : Exchange} {e : ℕ} (h : readReply size x = .error e) : 1000 ≤ e := by
  unfold readReply at h
  split_ifs at h
  · cases h
    decide
  · cases h
    decide
  · cases hheader : x.header with
    | closed =>
      simp only [hheader] at h
      cases h
      decide
    | failed =>
      simp only [hheader] at h
      cases h
      decide
    | got b =>
      simp only [hheader] at h
      split at h
      · cases h
        decide
      · cases h1 : getpack (Header.ofBytes b).len1.toNat x.pack1 with
        | error e1 =>
          rw [h1] at h
          cases h
          exact getpack_error h1
        | ok p1 =>
          cases h2 : getpack (Header.ofBytes b).len2.toNat x.pack2 with
          | error e2 =>
            rw [h1, h2] at h
            cases h
            exact getpack_error h2
          | ok p2 =>
            rw [h1, h2] at h
            cases h

/-- The payloads are as long as the header says. -/
theorem readReply_whole {size : ℕ} {x : Exchange} {cmd : Header} {p1 p2 : Bytes}
    (h : readReply size x = .ok (cmd, p1, p2)) : p1.length = cmd.len1.toNat ∧ p2.length = cmd.len2.toNat := by
  unfold readReply at h
  split_ifs at h
  cases hheader : x.header with
  | closed => simp [hheader] at h
  | failed => simp [hheader] at h
  | got b =>
    simp only [hheader] at h
    split at h
    · cases h
    · cases h1 : getpack (Header.ofBytes b).len1.toNat x.pack1 with
      | error e1 =>
        rw [h1] at h
        cases h
      | ok p1 =>
        cases h2 : getpack (Header.ofBytes b).len2.toNat x.pack2 with
        | error e2 =>
          rw [h1, h2] at h
          cases h
        | ok p2 =>
          rw [h1, h2] at h
          cases h
          exact ⟨getpack_length h1, getpack_length h2⟩

section

variable {token : ℕ} {v1 v2 : Option Bytes} {x : Exchange} {st : Call}

/-- The error of an attempt does not depend on what the caller's DBTs hold. -/
theorem iComms_err : (iComms token v1 v2 x st).err = attemptErr token v1 v2 x := by
  unfold attemptErr iComms
  split
  · rfl
  · cases readReply (requestSize v1 v2) x with
    | error e => rfl
    | ok r =>
      simp only
      split_ifs <;> rfl

theorem iComms_isSome (token : ℕ) (v1 v2 : Option Bytes) (x : Exchange) {st : Call} (h : st.sockfd.isSome = true) :
    (iComms token v1 v2 x st).sockfd.isSome = true := by
  unfold iComms
  split
  · exact h
  · cases readReply (requestSize v1 v2) x with
    | error e => rfl
    | ok r =>
      simp only
      split_ifs <;> exact h

theorem attemptErr_of_error (h : attemptErr token v1 v2 x ≠ 0) : 1000 ≤ attemptErr token v1 v2 x := by
  unfold attemptErr iComms at h ⊢
  by_cases hfits : maxPayload < requestSize v1 v2
  · simp only [hfits, if_true]
    decide
  · simp only [hfits, if_false] at h ⊢
    cases hread : readReply (requestSize v1 v2) x with
    | error e => exact readReply_error hread
    | ok r =>
      simp only [hread] at h ⊢
      split_ifs at h ⊢ <;> first | exact absurd rfl h | decide

/-- An attempt without an error has received a reply and reports it. -/
theorem iComms_delivers (h : (iComms token v1 v2 x st).err = 0) :
    ∃ reply, Delivers token v1 v2 x reply ∧ Reports reply (iComms token v1 v2 x st) := by
  unfold iComms at h ⊢
  split at h
  · cases h
  · next hfits =>
    cases hread : readReply (requestSize v1 v2) x with
    | error e =>
      simp only [hread] at h
      exact absurd (readReply_error hread) (by omega)
    | ok r =>
      obtain ⟨cmd, p1, p2⟩ := r
      obtain ⟨hwhole1, hwhole2⟩ := readReply_whole hread
      rw [if_neg hfits]
      simp only [hread] at h ⊢
      split_ifs at h ⊢ with herror hkind hfound
      · cases h
      · cases h
      · refine ⟨⟨cmd, p1, p2, hwhole1, hwhole2⟩, ⟨not_lt.1 hfits, hread, not_not.1 hkind, ?_⟩, ?_⟩
        · rw [← not_not.1 hkind]
          exact herror
        · constructor <;> simp [hfound]
      · refine ⟨⟨cmd, p1, p2, hwhole1, hwhole2⟩, ⟨not_lt.1 hfits, hread, not_not.1 hkind, ?_⟩, ?_⟩
        · rw [← not_not.1 hkind]
          exact herror
        · constructor <;> simp [hfound]

theorem Delivers.err {reply : Reply} (h : Delivers token v1 v2 x reply) : attemptErr token v1 v2 x = 0 := by
  unfold attemptErr iComms
  rw [if_neg (not_lt.2 h.fits)]
  simp only [h.read, h.kind, h.noError, ne_eq, not_true_eq_false, if_false]
  split <;> rfl

end

/-! ## The rounds -/

section

variable {me : Handle} {behind : Bytes} {token : ℕ} {v1 v2 : Option Bytes} {rounds : ℕ → Round}

/-- The rest of the loop begins where the rounds have come to. -/
theorem commsLoop_of_stateAt {start st : Call} {k : ℕ} (hk : k ≤ 10)
    (h : st ∈ stateAt me behind token v1 v2 rounds start k) :
    commsLoop me behind token v1 v2 rounds 10 0 start = commsLoop me behind token v1 v2 rounds (10 - k) k st := by
  induction k generalizing st with
  | zero =>
    cases h
    rfl
  | succ k ih =>
    rw [stateAt, Option.mem_def, Option.bind_eq_some_iff] at h
    obtain ⟨st₀, hst₀, h⟩ := h
    obtain ⟨p, hp, h⟩ := Option.bind_eq_some_iff.1 h
    rw [ih (by omega) hst₀, show 10 - k = (10 - (k + 1)) + 1 by omega, commsLoop, hp]
    split at h
    · cases h
    · next hlast =>
      cases h
      simp only [Option.bind_some, hlast]
      rfl

/-- A round that is the last one leaves what the call returns. -/
theorem dbmsComms_of_last {start st out : Call} {k : ℕ} (hk : k < 10)
    (h : st ∈ stateAt me behind token v1 v2 rounds start k)
    (hlast : commsRound me behind token v1 v2 (rounds k) st = some (true, out)) :
    commsLoop me behind token v1 v2 rounds 10 0 start = some out := by
  rw [commsLoop_of_stateAt (le_of_lt hk) h, show 10 - k = (10 - (k + 1)) + 1 by omega, commsLoop, hlast]
  rfl

/-- The call ends in its last round, or after ten. -/
theorem commsLoop_cases {start st out : Call} {n k : ℕ} (h : st ∈ stateAt me behind token v1 v2 rounds start k)
    (hloop : commsLoop me behind token v1 v2 rounds n k st = some out) :
    (∃ j < k + n, ∃ st ∈ stateAt me behind token v1 v2 rounds start j,
      commsRound me behind token v1 v2 (rounds j) st = some (true, out)) ∨
      out ∈ stateAt me behind token v1 v2 rounds start (k + n) := by
  induction n generalizing k st with
  | zero =>
    cases hloop
    exact Or.inr h
  | succ n ih =>
    rw [commsLoop, Option.bind_eq_some_iff] at hloop
    obtain ⟨⟨last, st'⟩, hround, hloop⟩ := hloop
    cases last with
    | true =>
      cases hloop
      exact Or.inl ⟨k, by omega, st, h, hround⟩
    | false =>
      have hnext : st' ∈ stateAt me behind token v1 v2 rounds start (k + 1) := by
        rw [stateAt, Option.mem_def.1 h, Option.bind_some, hround]
        rfl
      have := ih hnext hloop
      rwa [show k + 1 + n = k + (n + 1) by omega] at this

/-- No round comes after the last one. -/
theorem stateAt_eq_none {start st out : Call} {k j : ℕ} (h : st ∈ stateAt me behind token v1 v2 rounds start k)
    (hlast : commsRound me behind token v1 v2 (rounds k) st = some (true, out)) (hj : k < j) :
    stateAt me behind token v1 v2 rounds start j = none := by
  induction j, hj using Nat.le_induction with
  | base =>
    rw [stateAt, Option.mem_def.1 h, Option.bind_some, hlast]
    rfl
  | succ j _ ih => rw [stateAt, ih, Option.bind_none]

/-- An attempt without an error is the last one. -/
theorem commsRound_of_zero (me : Handle) (behind : Bytes) {r : Round} {st : Call} (hsock : st.sockfd.isSome = true)
    (hzero : attemptErr token v1 v2 r.request = 0) :
    commsRound me behind token v1 v2 r st = some (true, iComms token v1 v2 r.request st) := by
  have herr : (iComms token v1 v2 r.request st).err = 0 := iComms_err.trans hzero
  have hsome := iComms_isSome token v1 v2 r.request hsock
  simp only [commsRound, hsock, if_true, hsome, herr, and_self]

/-- Where the last round leaves no error, its attempt did. -/
theorem commsRound_last {r : Round} {st out : Call} (h : commsRound me behind token v1 v2 r st = some (true, out))
    (herr : out.err = 0) :
    st.sockfd.isSome = true ∧ out = iComms token v1 v2 r.request st ∧ attemptErr token v1 v2 r.request = 0 := by
  unfold commsRound at h
  cases hsock : st.sockfd.isSome with
  | true =>
    simp only [hsock, if_true, iComms_isSome _ _ _ _ hsock, true_and] at h
    split_ifs at h with hzero hagain herror
    · cases h
      exact ⟨rfl, rfl, iComms_err.symm.trans herr⟩
    · cases h
    · cases h
      rw [herr] at herror
      cases herror
    · simp at h
  | false =>
    simp only [hsock, Bool.false_eq_true, if_false, false_and] at h
    split_ifs at h with hagain herror
    · cases h
    · cases h
      rw [herr] at herror
      cases herror
    · simp at h

theorem reselect_isSome {x : Exchange} {sockfd : Option Bool} {p : Option Bool × ℕ} (hsock : sockfd.isSome = true)
    (h : reselect me behind x sockfd = some p) : p.1.isSome = true := by
  have hsome := iComms_isSome tokenInit
    (some (packInt dbmsProto ++ packInt me.mode.toNat ++ packInt me.btCompareFcnType.toNat)) (some me.name) x
    (show (⟨sockfd, 0, -1, some [], none⟩ : Call).sockfd.isSome = true from hsock)
  unfold reselect at h
  simp only at h
  split_ifs at h <;> cases h <;> exact hsome

/-- A connection is reopened, or there is none and an error. -/
theorem reopen_cases {r : Round} {st out : Call} (h : reopen me behind r st = some out) :
    (out.sockfd = none ∧ out.err = eError) ∨
      (out.sockfd.isSome = true ∧ r.connects = true ∧
        (reselect me behind r.init (some false)).map Prod.snd = some out.err) := by
  unfold reopen at h
  split at h
  · cases h
    exact Or.inl ⟨rfl, rfl⟩
  · next hconnects =>
    obtain ⟨p, hp, rfl⟩ := Option.map_eq_some_iff.1 h
    exact Or.inr ⟨reselect_isSome rfl hp, not_not.1 hconnects, by rw [hp]; rfl⟩

/-- A round after which another comes: the attempt, if there was one, broke off, and the connection was reopened. -/
theorem commsRound_again {r : Round} {st out : Call} (h : commsRound me behind token v1 v2 r st = some (false, out))
    (hstart : st.sockfd = none → st.err = 0 ∨ st.err = eError) :
    (st.sockfd.isSome = true → attemptErr token v1 v2 r.request ≠ 0 ∧ attemptErr token v1 v2 r.request ≠ eError) ∧
      (st.sockfd = none → st.err = 0) ∧ ∃ st', reopen me behind r st' = some out := by
  unfold commsRound at h
  cases hsock : st.sockfd with
  | none =>
    simp only [hsock, Option.isSome_none, Bool.false_eq_true, if_false, false_and] at h
    split_ifs at h with hagain herror
    · exfalso
      rcases hstart hsock with hzero | herr
      · rw [hzero] at hagain
        rcases hagain with hagain | hagain <;> cases hagain
      · rw [herr] at hagain
        rcases hagain with hagain | hagain <;> cases hagain
    · cases h
    · obtain ⟨st', hst', hout⟩ := Option.map_eq_some_iff.1 h
      cases hout
      exact ⟨by simp, fun _ => (hstart hsock).resolve_right herror, st, hst'⟩
  | some unread =>
    have hsome : st.sockfd.isSome = true := by rw [hsock]; rfl
    simp only [hsome, if_true, iComms_isSome _ _ _ _ hsome, true_and, iComms_err] at h
    split_ifs at h with hzero hagain herror
    · cases h
    · have hlarge := attemptErr_of_error hzero
      rcases hagain with hagain | hagain
      · rw [hagain] at hlarge
        exact absurd hlarge (by decide)
      · rw [hagain] at hlarge
        exact absurd hlarge (by decide)
    · cases h
    · obtain ⟨st', hst', hout⟩ := Option.map_eq_some_iff.1 h
      cases hout
      exact ⟨fun _ => ⟨hzero, herror⟩, by simp, _, hst'⟩

/-- Without a connection there is an error, but for the beginning. -/
theorem stateAt_down {start st : Call} {k : ℕ} (hstart : start.err = 0)
    (h : st ∈ stateAt me behind token v1 v2 rounds start k) (hdown : st.sockfd = none) :
    (k = 0 ∧ st.err = 0) ∨ st.err = eError := by
  induction k generalizing st with
  | zero =>
    cases h
    exact Or.inl ⟨rfl, hstart⟩
  | succ k ih =>
    rw [stateAt, Option.mem_def, Option.bind_eq_some_iff] at h
    obtain ⟨st₀, hst₀, h⟩ := h
    obtain ⟨⟨last, st'⟩, hround, h⟩ := Option.bind_eq_some_iff.1 h
    cases last with
    | true => cases h
    | false =>
      cases h
      obtain ⟨-, -, st₁, hreopen⟩ := commsRound_again hround fun hnone => (ih hst₀ hnone).imp And.right id
      rcases reopen_cases hreopen with ⟨-, herr⟩ | ⟨hsome, -⟩
      · exact Or.inr herr
      · rw [hdown] at hsome
        cases hsome

/-- The tenth round reopens the connection exactly when the call ends after it without an error. -/
theorem tenthReopened_iff {start : Call} (hstart : start.err = 0) :
    TenthReopened me behind token v1 v2 rounds start ↔
      ∃ out ∈ stateAt me behind token v1 v2 rounds start 10, out.err = 0 := by
  constructor
  · rintro ⟨st, hst, hsome, hzero, herror, hconnects, hselect⟩
    have hlarge := attemptErr_of_error hzero
    obtain ⟨p, hp, hpzero⟩ := Option.map_eq_some_iff.1 hselect
    have hagain : ¬ (attemptErr token v1 v2 (rounds 9).request = eagain ∨
        attemptErr token v1 v2 (rounds 9).request = eintr) := by
      rintro (h | h)
      · rw [h] at hlarge
        exact absurd hlarge (by decide)
      · rw [h] at hlarge
        exact absurd hlarge (by decide)
    refine ⟨{ iComms token v1 v2 (rounds 9).request st with sockfd := p.1, err := p.2 }, ?_, hpzero⟩
    rw [stateAt, Option.mem_def.1 hst, Option.bind_some, Option.mem_def]
    simp only [commsRound, hsome, if_true, iComms_isSome _ _ _ _ hsome, iComms_err, hzero, hagain, herror, and_false, if_false,
      reopen, hconnects, not_true_eq_false, hp, Option.map_some, Option.bind_some, Bool.false_eq_true]
  · rintro ⟨out, hout, herr⟩
    rw [stateAt, Option.mem_def, Option.bind_eq_some_iff] at hout
    obtain ⟨st, hst, h⟩ := hout
    obtain ⟨⟨last, st'⟩, hround, h⟩ := Option.bind_eq_some_iff.1 h
    cases last with
    | true => cases h
    | false =>
      cases h
      obtain ⟨hattempt, hdown, st₁, hreopen⟩ := commsRound_again hround fun hnone =>
        (stateAt_down hstart hst hnone).imp And.right id
      have hsome : st.sockfd.isSome = true := by
        cases hsock : st.sockfd with
        | some unread => rfl
        | none =>
          rcases stateAt_down hstart hst hsock with ⟨hnine, -⟩ | herror
          · cases hnine
          · rw [hdown hsock] at herror
            cases herror
      rcases reopen_cases hreopen with ⟨-, herror⟩ | ⟨-, hconnects, hselect⟩
      · rw [herr] at herror
        cases herror
      · rw [herr] at hselect
        exact ⟨st, hst, hsome, (hattempt hsome).1, (hattempt hsome).2, hconnects, hselect⟩

end

/-- A zero status means that the reply was received, exactly when the tenth reopening does not end the call and nothing
left unread is taken for a reply. -/
theorem zero_status_iff (me : Handle) (behind : Bytes) (token : ℕ) (v1 v2 : Option Bytes) (rounds : ℕ → Round)
    (sockfd : Option Bool) (r1 r2 : Option Bytes) :
    (∀ out ∈ dbmsComms me behind token v1 v2 rounds sockfd r1 r2, out.err = 0 →
        Received me behind token v1 v2 rounds ⟨sockfd, 0, -1, r1, r2⟩ out) ↔
      ¬ TenthReopened me behind token v1 v2 rounds ⟨sockfd, 0, -1, r1, r2⟩ ∧
        ¬ Misread me behind token v1 v2 rounds ⟨sockfd, 0, -1, r1, r2⟩ := by
  rw [tenthReopened_iff rfl]
  constructor
  · intro h
    constructor
    · rintro ⟨out, hout, herr⟩
      obtain ⟨k, hk, st, hst, reply, hsock, hdelivers, -⟩ :=
        h out ((commsLoop_of_stateAt le_rfl hout).trans rfl) herr
      have hlast := commsRound_of_zero me behind (r := rounds k) (by rw [hsock]; rfl)
        hdelivers.err
      rw [stateAt_eq_none hst hlast hk] at hout
      cases hout
    · rintro ⟨k, hk, st, hst, hsock, hzero⟩
      have hlast := commsRound_of_zero me behind (r := rounds k) (by rw [hsock]; rfl) hzero
      obtain ⟨j, hj, st', hst', reply, hsock', hdelivers, -⟩ :=
        h _ (dbmsComms_of_last hk hst hlast) (iComms_err.trans hzero)
      have hlast' := commsRound_of_zero me behind (r := rounds j) (by rw [hsock']; rfl)
        hdelivers.err
      rcases Nat.lt_trichotomy j k with hlt | rfl | hlt
      · rw [stateAt_eq_none hst' hlast' hlt] at hst
        cases hst
      · rw [Option.mem_def.1 hst] at hst'
        cases hst'
        rw [hsock] at hsock'
        cases hsock'
      · rw [stateAt_eq_none hst hlast hlt] at hst'
        cases hst'
  · rintro ⟨htenth, hmisread⟩ out hout herr
    have hbegin : (⟨sockfd, 0, -1, r1, r2⟩ : Call) ∈ stateAt me behind token v1 v2 rounds ⟨sockfd, 0, -1, r1, r2⟩ 0 := rfl
    rcases commsLoop_cases hbegin hout with ⟨k, hk, st, hst, hround⟩ | hend
    · obtain ⟨hsome, rfl, hzero⟩ := commsRound_last hround herr
      obtain ⟨reply, hdelivers, hreports⟩ := iComms_delivers herr
      refine ⟨k, by omega, st, hst, reply, ?_, hdelivers, hreports⟩
      obtain ⟨unread, hunread⟩ := Option.isSome_iff_exists.1 hsome
      cases unread with
      | false => exact hunread
      | true => exact absurd ⟨k, by omega, st, hst, hunread, hzero⟩ hmisread
    · exact absurd ⟨out, hend, herr⟩ htenth

/-- The server closes the connection on every request, and accepts every new one. -/
def closedOnRequest : ℕ → Round := fun _ =>
  { request := ⟨0, .closed, ⟨true, fun _ => .closed⟩, ⟨true, fun _ => .closed⟩⟩
    connects := true
    init := ⟨25, .got (Header.bytes ⟨104, (0, 0, 0), 4, 0⟩), ⟨true, fun _ => .got (packInt dbmsProto)⟩,
      ⟨true, fun _ => .closed⟩⟩ }

theorem dbmsComms_closedOnRequest :
    (dbmsComms ⟨[100], 0, 0⟩ [] tokenFetch (some [1]) none closedOnRequest (some false) (some []) none).map
      (fun out => (out.err, out.retval)) = some (0, -1) := by
  decide

/-- After ten requests without a reply the call ends with a zero status. -/
theorem zero_without_reply :
    ∃ out ∈ dbmsComms ⟨[100], 0, 0⟩ [] tokenFetch (some [1]) none closedOnRequest (some false) (some []) none,
      out.err = 0 ∧ ¬ Received ⟨[100], 0, 0⟩ [] tokenFetch (some [1]) none closedOnRequest
        ⟨some false, 0, -1, some [], none⟩ out := by
  obtain ⟨out, hout, hresult⟩ := Option.map_eq_some_iff.1 dbmsComms_closedOnRequest
  refine ⟨out, hout, congrArg Prod.fst hresult, ?_⟩
  rintro ⟨k, -, st, -, reply, -, hdelivers, -⟩
  have hread : readReply (requestSize (some [1]) none) (closedOnRequest k).request = .error eClose := rfl
  exact nomatch hread.symm.trans hdelivers.read

end RdfStore.Dbms.Client
