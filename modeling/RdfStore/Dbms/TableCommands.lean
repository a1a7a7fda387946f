import RdfStore.Dbms.Comms
import RdfStore.Dbms.Requests
import RdfStore.PackedCounters
import RdfStore.Dbms.Peers
import RdfStore.Lib.Scanf
import Mathlib.Data.UInt

/-!
# The commands about a table (`handler.c`)

What `parse_request` does for a client whose database is open: reading, storing,
deleting and counting, and what is sent back.  Counters are kept as four bytes or as
decimal text.  The commands that are not about keys and values (those of the cursor,
INIT, FDPASS and DROP) are left open here.

    whatever the clients' order, a counter ends where all their changes lead      (counted_run)
-/

namespace RdfStore.Dbms

open ByteMem Serial

/-! ## What is sent -/

/-- `F_FOUND` -/
def fFound : ℕ := 32

/-- `dispatch` with a token, found or not. -/
def Served.send (token : ℕ) (isFound : Bool) (v1 v2 : Option Bytes) : Served :=
  ⟨some ((if isFound then token ||| fFound else token).toUInt8, v1, v2), false⟩

/-- `reply_log` prints into 1024 bytes. -/
def replyLog (text : Bytes) : Served := .send tokenError false (some (text.take 1023)) none

/-! ## `strtoul` -/

/-- The value, what is behind it, and whether `errno` is set to ERANGE. -/
structure Strtoul where
  value : ℕ
  rest : Bytes
  erange : Bool

/-- `strtoul` in base 10. -/
def strtoul (ulongMax : ℕ) (s : Bytes) : Strtoul :=
  let t := s.dropWhile Scanf.isSpace
  let signed := t.head? = some 43 ∨ t.head? = some 45
  let u := if signed then t.tail else t
  let digits := u.takeWhile Scanf.isDigit
  let rest := u.dropWhile Scanf.isDigit
  if digits = [] then ⟨0, s, false⟩
  else if Scanf.value digits > ulongMax then ⟨ulongMax, rest, true⟩
  else if t.head? = some 45 then ⟨(ulongMax + 1 - Scanf.value digits) % (ulongMax + 1), rest, false⟩
  else ⟨Scanf.value digits, rest, false⟩

section

/-! What lies in memory behind a value, the fifth byte of `outbuf`, `ULONG_MAX`, whether `errno` was ERANGE
before, and the name of the database. -/

variable (behind : Bytes) (outbuf4 : UInt8) (ulongMax : ℕ) (stale : Bool) (name : Bytes)

/-! ## Counters -/

/-- A decimal counter is changed and put back, unless it cannot be read as one. -/
def doCount (token : ℕ) (word : String) (refused : ℕ → Bool) (change : ℕ → ℕ) (db : Db) (key : Bytes) :
    Served × Db :=
  match db key with
  | none => (.send token false none none, db)
  | some v =>
    if v = [] then (.send token false none none, db)
    else
      let l := strtoul ulongMax ((v.take 255).takeWhile (· ≠ 0))
      if l.rest ≠ [] ∨ l.value = ulongMax ∨ refused l.value = true ∨ l.erange = true ∨ stale = true then
        (replyLog (ascii word ++ ascii " on " ++ name ++
          ascii " failed: Not the (entire) string is an unsigned integer"), db)
      else
        let val := Scanf.decimal (change l.value)
        (.send token true none (some val), Function.update db key (some val))

/-- `do_inc` -/
def doInc (db : Db) (key : Bytes) : Served × Db :=
  doCount ulongMax stale name tokenInc "inc" (fun _ => false) (· + 1) db key

/-- `do_dec` -/
def doDec (db : Db) (key : Bytes) : Served × Db :=
  doCount ulongMax stale name tokenDec "dec" (fun l => l = 0) (· - 1) db key

/-- A packed counter, found or not. -/
def servedCount (token : ℕ) (r : ServerReply × Db) : Served × Db :=
  (.send token r.1.found none (if r.1.found then some r.1.v2 else none), r.2)

/-! ## The handlers -/

/-- The handlers of `cmd_table` that are about keys and values of the table. -/
def Handler.serve (key val : Bytes) (db : Db) : Handler → Option (Served × Db)
  | .fetch =>
    match db key with
    | some v => some (.send tokenFetch true (some key) (some v), db)
    | none => some (.send tokenFetch false none none, db)
  | .store => some (.send tokenStore true none none, Function.update db key (some val))
  | .delete => some (.send tokenDelete (db key).isSome none none, Function.update db key none)
  | .close => some ({ Served.send tokenClose false none none with close := true }, db)
  | .existsKey => some (.send tokenExists (db key).isSome none none, db)
  | .sync => some (.send tokenSync false none none, db)
  | .clear => some (.send tokenClear false none none, fun _ => none)
  | .ping => some (.send tokenPing true none none, db)
  | .inc => some (doInc ulongMax stale name db key)
  | .dec => some (doDec ulongMax stale name db key)
  | .packinc => some (servedCount tokenPackinc (doPackinc behind db key))
  | .packdec => some (servedCount tokenPackdec (doPackdec behind outbuf4 db key))
  | .list => some (replyLog (ascii "Not implemented.. yet"), db)
  | .init | .pass | .drop | .first | .next | .fromKey => none

/-- What the table of commands calls a handler. -/
def Handler.info : Handler → String
  | .init => "INIT"
  | .fetch => "FTCH"
  | .store => "STRE"
  | .delete => "DELE"
  | .close => "CLSE"
  | .next => "NEXT"
  | .first => "FRST"
  | .existsKey => "EXST"
  | .sync => "SYNC"
  | .clear => "CLRS"
  | .ping => "PING"
  | .drop => "DROP"
  | .inc => "INCR"
  | .dec => "DECR"
  | .packinc => "PINC"
  | .packdec => "PDEC"
  | .list => "LIST"
  | .fromKey => "FROM"
  | .pass => "PASS"

/-- `op2string` -/
def op2string : Tops → String
  | .none => "none"
  | .rdonly => "rdonly"
  | .rdwr => "rdwr"
  | .creat => "creat"
  | .drop => "drop"
  | .all => "all"
  | .err => "undefined"

/-- A client of the table: its level, and its address as text. -/
structure TableClient where
  op : Tops
  ip : Bytes

def accessViolation (r : TableClient) (handler : Handler) (op : Tops) : Bytes :=
  ascii "Access violation for " ++ r.ip ++ ascii " on " ++ ascii handler.info ++ ascii " (required is " ++
    ascii (op2string op) ++ ascii " but IP is limited to " ++ ascii (op2string r.op) ++ ascii ")"

-- the commands that are left open, and the entry behind the table
variable (other : Db → TableClient → Call → Served × Db)

/-- `parse_request` of a client whose database is open. -/
def parseTable (r : TableClient) (db : Db) (call : Call) : Served × Db :=
  let i := call.token.toNat
  if i ≤ tokenMax then
    match cmdTable[i]? with
    | none => other db r call
    | some entry =>
      match entry.handler with
      | none => ({ replyLog (ascii "Unkown command token " ++ Scanf.decimal i) with close := true }, db)
      | some handler =>
        if entry.op.level ≤ r.op.level then
          (handler.serve behind outbuf4 ulongMax stale name (call.v1.getD []) (call.v2.getD []) db).getD
            (other db r call)
        else ({ replyLog (accessViolation r handler entry.op) with close := true }, db)
  else ({ replyLog (ascii "Unkown command token " ++ Scanf.decimal i) with close := true }, db)

end

/-! ## A packed counter -/

section

variable {behind : Bytes} {outbuf4 : UInt8} {ulongMax : ℕ} {stale : Bool} {name : Bytes}
  {other : Db → TableClient → Call → Served × Db}

/-- What a call adds to the packed counter under a key. -/
def countChange (key : Bytes) (r : TableClient) (call : Call) : UInt32 :=
  if call.v1.getD [] = key ∧ Tops.rdwr.level ≤ r.op.level then
    if call.token.toNat = tokenPackinc then 1
    else if call.token.toNat = tokenPackdec then -1
    else 0
  else 0

/-- The handler counts, or leaves what is under `key` when it is called with `v1`. -/
def Handler.Leaves (key v1 : Bytes) : Handler → Prop
  | .packinc | .packdec | .fetch | .existsKey | .sync | .close | .ping | .list => True
  | .store | .delete | .inc | .dec => v1 ≠ key
  | .clear | .init | .pass | .drop | .first | .next | .fromKey => False

/-- The call is of the table, and changes the counter under `key` by counting only. -/
def Call.Leaves (key : Bytes) (call : Call) : Prop :=
  call.token.toNat ≠ tokenMax ∧ ∀ h ∈ (cmdEntry call.token.toNat).handler, h.Leaves key (call.v1.getD [])

theorem counterAt_update_of_ne {db : Db} {key k : Bytes} (h : k ≠ key) (v : Option Bytes) :
    counterAt behind (Function.update db k v) key = counterAt behind db key := by
  unfold counterAt
  rw [Function.update_of_ne (Ne.symm h)]

theorem doCount_counter {key k : Bytes} (h : k ≠ key) (token : ℕ) (word : String) (refused : ℕ → Bool)
    (change : ℕ → ℕ) (db : Db) :
    counterAt behind (doCount ulongMax stale name token word refused change db k).2 key = counterAt behind db key := by
  unfold doCount
  split
  · rfl
  · split
    · rfl
    · simp only
      split
      · rfl
      · exact counterAt_update_of_ne h _

theorem doInc_counter {key k : Bytes} (h : k ≠ key) (db : Db) :
    counterAt behind (doInc ulongMax stale name db k).2 key = counterAt behind db key := by
  unfold doInc
  exact doCount_counter h tokenInc "inc" _ _ db

theorem doDec_counter {key k : Bytes} (h : k ≠ key) (db : Db) :
    counterAt behind (doDec ulongMax stale name db k).2 key = counterAt behind db key := by
  unfold doDec
  exact doCount_counter h tokenDec "dec" _ _ db

theorem doPackcount_counter_ne {key k : Bytes} (h : k ≠ key) (token : ℕ) (change : UInt32) (pad : Bytes) (db : Db) :
    counterAt behind (doPackcount behind token change pad db k).2 key = counterAt behind db key := by
  unfold doPackcount
  split
  · rfl
  · split
    · rfl
    · exact counterAt_update_of_ne h _

theorem map_add_zero (c : Option UInt32) : c.map (· + 0) = c := by
  cases c with
  | none => rfl
  | some c => simp

/-- A token that is not of a packed counter changes none. -/
theorem countChange_of_token_ne {call : Call} (hinc : call.token.toNat ≠ tokenPackinc)
    (hdec : call.token.toNat ≠ tokenPackdec) (key : Bytes) (r : TableClient) : countChange key r call = 0 := by
  unfold countChange
  rw [if_neg hinc, if_neg hdec, ite_self]

/-- A level that is too low changes none. -/
theorem countChange_of_level {r : TableClient} (h : ¬ Tops.rdwr.level ≤ r.op.level) (key : Bytes) (call : Call) :
    countChange key r call = 0 := if_neg fun hcount => h hcount.2

/-- PACKINC and PACKDEC of any key: the counter itself changes, or another one. -/
theorem doPackcount_countChange {key k : Bytes} {change total : UInt32} (hsame : k = key → total = change)
    (hother : k ≠ key → total = 0) (token : ℕ) (pad : Bytes) (db : Db) :
    counterAt behind (doPackcount behind token change pad db k).2 key = (counterAt behind db key).map (· + total) := by
  by_cases hkey : k = key
  · rw [hsame hkey, hkey]
    exact (doPackcount_counter token change pad db key).1
  · rw [hother hkey, map_add_zero]
    exact doPackcount_counter_ne hkey token change pad db

/-- The table has each handler under its own token. -/
theorem cmdEntry_packinc_iff : ∀ i < tokenMax, (cmdEntry i).handler = some .packinc ↔ i = tokenPackinc := by
  decide

theorem cmdEntry_packdec_iff : ∀ i < tokenMax, (cmdEntry i).handler = some .packdec ↔ i = tokenPackdec := by
  decide

theorem Handler.serve_counter {key : Bytes} {handler : Handler} {r : TableClient} {call : Call}
    (hi : call.token.toNat < tokenMax) (hentry : (cmdEntry call.token.toNat).handler = some handler)
    (hlevel : (cmdEntry call.token.toNat).op.level ≤ r.op.level) (hleaves : handler.Leaves key (call.v1.getD []))
    (val : Bytes) (db : Db) :
    ∃ served db', handler.serve behind outbuf4 ulongMax stale name (call.v1.getD []) val db = some (served, db') ∧
      counterAt behind db' key = (counterAt behind db key).map (· + countChange key r call) := by
  have hpackinc := cmdEntry_packinc_iff _ hi
  have hpackdec := cmdEntry_packdec_iff _ hi
  rw [hentry] at hpackinc hpackdec
  -- a handler that is not one of the two changes nothing
  have hsame : ∀ {db' : Db}, handler ≠ .packinc → handler ≠ .packdec →
      counterAt behind db' key = counterAt behind db key →
      counterAt behind db' key = (counterAt behind db key).map (· + countChange key r call) := by
    intro db' hinc hdec h
    have hzero : countChange key r call = 0 := countChange_of_token_ne
      (fun htoken => hinc (Option.some.inj (hpackinc.2 htoken)))
      (fun htoken => hdec (Option.some.inj (hpackdec.2 htoken))) key r
    rw [hzero, map_add_zero, h]
  have hother : call.v1.getD [] ≠ key → countChange key r call = 0 := fun hkey => if_neg fun h => hkey h.1
  cases handler with
  | fetch =>
    unfold Handler.serve
    simp only
    split
    · exact ⟨_, _, rfl, hsame nofun nofun rfl⟩
    · exact ⟨_, _, rfl, hsame nofun nofun rfl⟩
  | store => exact ⟨_, _, rfl, hsame nofun nofun (counterAt_update_of_ne hleaves _)⟩
  | delete => exact ⟨_, _, rfl, hsame nofun nofun (counterAt_update_of_ne hleaves _)⟩
  | close => exact ⟨_, _, rfl, hsame nofun nofun rfl⟩
  | existsKey => exact ⟨_, _, rfl, hsame nofun nofun rfl⟩
  | sync => exact ⟨_, _, rfl, hsame nofun nofun rfl⟩
  | ping => exact ⟨_, _, rfl, hsame nofun nofun rfl⟩
  | list => exact ⟨_, _, rfl, hsame nofun nofun rfl⟩
  | inc =>
    exact ⟨(doInc ulongMax stale name db (call.v1.getD [])).1, (doInc ulongMax stale name db (call.v1.getD [])).2, rfl,
      hsame nofun nofun (doInc_counter hleaves db)⟩
  | dec =>
    exact ⟨(doDec ulongMax stale name db (call.v1.getD [])).1, (doDec ulongMax stale name db (call.v1.getD [])).2, rfl,
      hsame nofun nofun (doDec_counter hleaves db)⟩
  | packinc =>
    have htoken := hpackinc.1 rfl
    refine ⟨_, _, rfl, doPackcount_countChange (fun hkey => ?_) hother _ [] db⟩
    rw [htoken] at hlevel
    unfold countChange
    rw [if_pos ⟨hkey, hlevel⟩, if_pos htoken]
  | packdec =>
    have htoken := hpackdec.1 rfl
    refine ⟨_, _, rfl, doPackcount_countChange (fun hkey => ?_) hother _ [outbuf4] db⟩
    rw [htoken] at hlevel
    unfold countChange
    rw [if_pos ⟨hkey, hlevel⟩, htoken]
    rfl
  | clear => exact hleaves.elim
  | init => exact hleaves.elim
  | pass => exact hleaves.elim
  | drop => exact hleaves.elim
  | first => exact hleaves.elim
  | next => exact hleaves.elim
  | fromKey => exact hleaves.elim

/-- What a call does to the counter, allowed or not. -/
theorem parseTable_counter {key : Bytes} {call : Call} (h : call.Leaves key) (r : TableClient) (db : Db) :
    counterAt behind (parseTable behind outbuf4 ulongMax stale name other r db call).2 key =
      (counterAt behind db key).map (· + countChange key r call) := by
  obtain ⟨hmax, hleaves⟩ := h
  -- a token that is not of a counter, or not allowed
  have hzero : ∀ {db' : Db}, db' = db → countChange key r call = 0 →
      counterAt behind db' key = (counterAt behind db key).map (· + countChange key r call) := by
    rintro _ rfl hchange
    rw [hchange, map_add_zero]
  unfold parseTable
  simp only
  by_cases hi : call.token.toNat < tokenMax
  · rw [if_pos hi.le, cmdTable_lt hi]
    simp only
    cases hentry : (cmdEntry call.token.toNat).handler with
    | none =>
      refine hzero rfl (countChange_of_token_ne ?_ ?_ key r)
      · intro htoken
        rw [htoken] at hentry
        cases hentry
      · intro htoken
        rw [htoken] at hentry
        cases hentry
    | some handler =>
      simp only
      split
      · next hlevel =>
        obtain ⟨served, db', hserve, hcounter⟩ :=
          @Handler.serve_counter behind outbuf4 ulongMax stale name key handler r call hi hentry hlevel
            (hleaves handler hentry) (call.v2.getD []) db
        rw [hserve]
        exact hcounter
      · next hlevel =>
        refine hzero rfl ?_
        by_cases hallowed : Tops.rdwr.level ≤ r.op.level
        · refine countChange_of_token_ne ?_ ?_ key r
          · intro htoken
            rw [htoken] at hlevel
            exact hlevel hallowed
          · intro htoken
            rw [htoken] at hlevel
            exact hlevel hallowed
        · exact countChange_of_level hallowed key call
  · have hbehind : ¬ call.token.toNat ≤ tokenMax := by omega
    rw [if_neg hbehind]
    refine hzero rfl (countChange_of_token_ne ?_ ?_ key r)
    · intro htoken
      rw [htoken] at hi
      exact hi (by decide)
    · intro htoken
      rw [htoken] at hi
      exact hi (by decide)

/-! ## Many clients -/

variable {ι : Type}

variable (behind outbuf4 ulongMax stale name other) in
/-- The server of one table. -/
def tableServer (clients : ι → TableClient) (db : Db) (i : ι) (call : Call) : Served × Db :=
  parseTable behind outbuf4 ulongMax stale name other (clients i) db call

/-- Requests in any order. -/
theorem serve_counter (clients : ι → TableClient) {key : Bytes} {order : List (ι × ClientRequest)}
    (horder : ∀ x ∈ order, x.2.call.Leaves key) (db : Db) :
    counterAt behind
        (serveAll (serveRequest (tableServer behind outbuf4 ulongMax stale name other clients)) db order).2 key =
      (counterAt behind db key).map (· + (order.map fun x => countChange key (clients x.1) x.2.call).sum) := by
  induction order generalizing db with
  | nil => exact (map_add_zero _).symm
  | cons x order ih =>
    have hfirst := @parseTable_counter behind outbuf4 ulongMax stale name other key x.2.call
      (horder x List.mem_cons_self) (clients x.1) db
    rw [serveAll, ih (fun y hy => horder y (List.mem_cons_of_mem x hy)), List.map_cons, List.sum_cons]
    show Option.map _ (counterAt behind (parseTable behind outbuf4 ulongMax stale name other (clients x.1) db
      x.2.call).2 key) = _
    rw [hfirst, Option.map_map]
    congr 1
    funext c
    exact add_assoc c _ _

/-- No update is lost: however the requests of the clients arrive and are interleaved, when all connections are
open and everything is read the packed counter is what it was with all changes of all clients in it. -/
theorem counted_run [Fintype ι] [DecidableEq ι] (clients : ι → TableClient) (reqs : ι → List ClientRequest)
    (hreqs : ∀ i, ∀ req ∈ reqs i, req.Passes ∧ req.SumFits) {key : Bytes}
    (hleaves : ∀ i, ∀ req ∈ reqs i, req.call.Leaves key) (db : Db) (recbuff sendbuff : ι → Buf)
    (events : List (ServerEvent ι)) :
    let S := (Server.start db recbuff sendbuff reqs).run
      (tableServer behind outbuf4 ulongMax stale name other clients) events
    (∀ i, (S.peers i).s.close = false ∧ (S.peers i).c.stream = []) →
      counterAt behind S.db key = (counterAt behind db key).map
        (· + ∑ i, ((reqs i).map fun req => countChange key (clients i) req.call).sum) := by
  intro S hdone
  have hstart := Server.start_serves (tableServer behind outbuf4 ulongMax stale name other clients) reqs db recbuff sendbuff
  obtain ⟨order, hrun⟩ := hstart.run hreqs events
  rw [List.nil_append] at hrun
  have hall : ∀ i, ofClient i order = reqs i := fun i => (hrun.sees i).all_done (hdone i).1 (hdone i).2
  have horder : ∀ x ∈ order, x.2.call.Leaves key := by
    intro x hx
    refine hleaves x.1 x.2 ?_
    rw [← hall x.1]
    exact mem_ofClient hx
  have hsum := sum_ofClient (fun i (req : ClientRequest) => countChange key (clients i) req.call) order
  rw [hrun.db, serve_counter clients horder, hsum]
  simp only [hall]

/-- Two clients that may write. -/
def twoWriters (_ : Bool) : TableClient := ⟨.rdwr, []⟩

/-- PACKINC of a key of one byte. -/
def packincRequest : ClientRequest :=
  ⟨16, (0, 0, 0), [97], [], Nat.one_lt_two_pow (Nat.succ_ne_zero 31), empty_fits⟩

/-- A table with the counter 5 under that key. -/
def fiveTable : Db := Function.update (fun _ => none) [97] (some (packInt 5))

/-- The first request arrives in two pieces, and the other client's is answered in between. -/
def splitEvents : List (ServerEvent Bool) :=
  [.arrive true 12, .readable true (.took 12) (.took 12) .again, .arrive false 13,
    .readable false (.took 12) (.took 13) (.took 16), .arrive true 1, .readable true (.took 1) .eof .again]

/-- Both have counted. -/
theorem counted_run_two :
    counterAt [] ((Server.start fiveTable (fun _ _ => 0) (fun _ _ => 0) fun _ => [packincRequest]).run
      (tableServer [] 0 (2 ^ 32 - 1) false [] (fun db _ _ => (⟨none, false⟩, db)) twoWriters) splitEvents).db [97] =
      some 7 := by
  have hreqs : ∀ i : Bool, ∀ req ∈ [packincRequest], req.Passes ∧ req.SumFits := by
    intro i req hreq
    rw [List.mem_singleton.1 hreq]
    exact ⟨by unfold ClientRequest.Passes; decide, by decide⟩
  have hleaves : ∀ i : Bool, ∀ req ∈ [packincRequest], req.call.Leaves [97] := by
    intro i req hreq
    rw [List.mem_singleton.1 hreq]
    exact ⟨by decide, by rintro h ⟨⟩; trivial⟩
  have h := @counted_run [] 0 (2 ^ 32 - 1) false [] (fun db _ _ => (⟨none, false⟩, db)) Bool _ _ twoWriters
    (fun _ => [packincRequest]) hreqs [97] hleaves fiveTable (fun _ _ => 0) (fun _ _ => 0) splitEvents
  refine (h ?_).trans ?_
  · intro i
    cases i
    · decide +kernel
    · decide +kernel
  · decide +kernel

end

/-! ## A decimal counter -/

section

variable (ulongMax : ℕ) (name : Bytes)

/-- The number after a request: at `ULONG_MAX` the counter is stuck, and at 0 it is not counted down. -/
def nextCount (n : ℕ) (s : CountStep) : ℕ := if n = ulongMax then n else s.apply n

/-- What is sent for it. -/
def countServed (n : ℕ) (s : CountStep) : Served :=
  match s with
  | .inc =>
    if n = ulongMax then replyLog (ascii "inc" ++ ascii " on " ++ name ++
      ascii " failed: Not the (entire) string is an unsigned integer")
    else .send tokenInc true none (some (Scanf.decimal (n + 1)))
  | .dec =>
    if n = ulongMax ∨ n = 0 then replyLog (ascii "dec" ++ ascii " on " ++ name ++
      ascii " failed: Not the (entire) string is an unsigned integer")
    else .send tokenDec true none (some (Scanf.decimal (n - 1)))

/-- INC or DEC of a key. -/
def serveText (db : Db) (key : Bytes) : CountStep → Served × Db
  | .inc => doInc ulongMax false name db key
  | .dec => doDec ulongMax false name db key

/-- The replies to some requests about a key, and the table behind them. -/
def textRun (key : Bytes) : Db → List CountStep → List Served × Db
  | db, [] => ([], db)
  | db, s :: steps =>
    let first := serveText ulongMax name db key s
    let rest := textRun key first.2 steps
    (first.1 :: rest.1, rest.2)

/-- The replies that the numbers call for. -/
def countReplies : ℕ → List CountStep → List Served
  | _, [] => []
  | n, s :: steps => countServed ulongMax name n s :: countReplies (nextCount ulongMax n s) steps

variable {ulongMax name}

/-- A printed number is read back. -/
theorem strtoul_decimal {n : ℕ} (hn : n ≤ ulongMax) : strtoul ulongMax (Scanf.decimal n) = ⟨n, [], false⟩ := by
  have hdigits := Scanf.decimal_digits n
  have hvalue := Scanf.value_decimal n
  have hne := Scanf.decimal_ne_nil n
  generalize Scanf.decimal n = l at hdigits hvalue hne
  cases l with
  | nil => exact absurd rfl hne
  | cons c tail =>
    have hc := hdigits c List.mem_cons_self
    have hspace : (c :: tail).dropWhile Scanf.isSpace = c :: tail :=
      List.dropWhile_cons_of_neg (by simp [Scanf.not_space_of_digit hc])
    have hplus : c ≠ 43 := by
      rintro rfl
      exact absurd hc (by decide)
    have hminus : c ≠ 45 := by
      rintro rfl
      exact absurd hc (by decide)
    have hall : (c :: tail).takeWhile Scanf.isDigit = c :: tail := List.takeWhile_eq_self_iff.2 hdigits
    have hnone : (c :: tail).dropWhile Scanf.isDigit = [] := List.dropWhile_eq_nil_iff.2 hdigits
    unfold strtoul
    simp only [hspace, List.head?_cons, Option.some.injEq, hplus, hminus, or_self, if_false, hall, hnone, hvalue]
    rw [if_neg hne, if_neg (not_lt.2 hn)]

/-- What a decimal counter is read from. -/
theorem takeWhile_decimal {n : ℕ} (hn : n < 10 ^ 255) :
    ((Scanf.decimal n).take 255).takeWhile (· ≠ 0) = Scanf.decimal n := by
  have hlen : (Scanf.decimal n).length ≤ 255 := by
    unfold Scanf.decimal
    rw [List.length_map]
    exact (Nat.length_toDigits_le_iff (by decide) (by decide)).2 hn
  rw [List.take_of_length_le hlen, List.takeWhile_eq_self_iff]
  intro c hc
  have hdigit := Scanf.decimal_digits n c hc
  simp only [decide_eq_true_eq]
  rintro rfl
  exact absurd hdigit (by decide)

theorem doCount_decimal (hmax : ulongMax < 10 ^ 255) {db : Db} {key : Bytes} {n : ℕ} (hn : n ≤ ulongMax)
    (hdb : db key = some (Scanf.decimal n)) (token : ℕ) (word : String) (refused : ℕ → Bool) (change : ℕ → ℕ) :
    doCount ulongMax false name token word refused change db key =
      if n = ulongMax ∨ refused n = true then
        (replyLog (ascii word ++ ascii " on " ++ name ++
          ascii " failed: Not the (entire) string is an unsigned integer"), db)
      else (.send token true none (some (Scanf.decimal (change n))),
        Function.update db key (some (Scanf.decimal (change n)))) := by
  have hread : strtoul ulongMax (((Scanf.decimal n).take 255).takeWhile (· ≠ 0)) = ⟨n, [], false⟩ := by
    rw [takeWhile_decimal (hn.trans_lt hmax), strtoul_decimal hn]
  unfold doCount
  rw [hdb]
  simp only [hread, if_neg (Scanf.decimal_ne_nil n), ne_eq, not_true_eq_false, Bool.false_eq_true, or_false, false_or]

theorem serveText_decimal (hmax : ulongMax < 10 ^ 255) {db : Db} {key : Bytes} {n : ℕ} (hn : n ≤ ulongMax)
    (hdb : db key = some (Scanf.decimal n)) (s : CountStep) :
    (serveText ulongMax name db key s).1 = countServed ulongMax name n s ∧
      (serveText ulongMax name db key s).2 key = some (Scanf.decimal (nextCount ulongMax n s)) := by
  cases s with
  | inc =>
    unfold serveText doInc countServed nextCount
    rw [doCount_decimal hmax hn hdb]
    simp only [Bool.false_eq_true, or_false]
    split
    · exact ⟨rfl, hdb⟩
    · exact ⟨rfl, Function.update_self _ _ _⟩
  | dec =>
    unfold serveText doDec countServed nextCount
    rw [doCount_decimal hmax hn hdb]
    simp only [decide_eq_true_eq]
    by_cases hstuck : n = ulongMax
    · simp only [hstuck, true_or, if_true]
      exact ⟨trivial, by rw [hdb, hstuck]⟩
    · by_cases hzero : n = 0
      · simp only [hzero, or_true, if_true]
        refine ⟨trivial, ?_⟩
        rw [hdb, hzero]
        split
        · rfl
        · rfl
      · rw [if_neg (by simp [hstuck, hzero]), if_neg (by simp [hstuck, hzero]), if_neg hstuck]
        exact ⟨rfl, Function.update_self _ _ _⟩

theorem nextCount_le {n : ℕ} (hn : n ≤ ulongMax) (s : CountStep) : nextCount ulongMax n s ≤ ulongMax := by
  unfold nextCount
  split
  · exact hn
  · cases s with
    | inc =>
      show n + 1 ≤ ulongMax
      omega
    | dec =>
      show n - 1 ≤ ulongMax
      omega

/-- A counter kept as decimal text, through any run of INC and DEC: the text is that of the number, the replies
carry it, and a counter that has come to `ULONG_MAX` stays there and every request for it is refused. -/
theorem textRun_decimal (hmax : ulongMax < 10 ^ 255) {db : Db} {key : Bytes} {n : ℕ} (hn : n ≤ ulongMax)
    (hdb : db key = some (Scanf.decimal n)) (steps : List CountStep) :
    (textRun ulongMax name key db steps).1 = countReplies ulongMax name n steps ∧
      (textRun ulongMax name key db steps).2 key =
        some (Scanf.decimal (steps.foldl (nextCount ulongMax) n)) := by
  induction steps generalizing db n with
  | nil => exact ⟨rfl, hdb⟩
  | cons s steps ih =>
    obtain ⟨hserved, hnext⟩ := @serveText_decimal ulongMax name hmax db key n hn hdb s
    obtain ⟨hreplies, hlast⟩ := ih (nextCount_le hn s) hnext
    refine ⟨?_, hlast⟩
    rw [textRun, countReplies, ← hserved, ← hreplies]

/-- From 9 up and down again. -/
theorem textRun_decimal_nine :
    (textRun (2 ^ 32 - 1) [] [1] (Function.update (fun _ => none) [1] (some (Scanf.decimal 9)))
      [.inc, .dec]).2 [1] = some (Scanf.decimal 9) :=
  (textRun_decimal (show 2 ^ 32 - 1 < 10 ^ 255 by decide) (show 9 ≤ 2 ^ 32 - 1 by decide) (Function.update_self _ _ _)
    [.inc, .dec]).2

end

end RdfStore.Dbms
