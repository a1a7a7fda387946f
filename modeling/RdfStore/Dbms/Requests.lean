import RdfStore.Dbms.Access
import RdfStore.FlatStore

/-!
# The requests of a client (`handler.c`)

A client talks to the mother process until an INIT request finds it a database,
and from then on to the child that has the database open.  Each request goes
through `parse_request`, which looks its token up in `cmd_table`, compares the
level of the command with that of the connection and runs the handler.

    no request of a run breaks the server ↔ every request of it is harmless    (clientRun_iff)
-/

namespace RdfStore.Dbms

open ByteMem

/-! ## Connections -/

/-- `mum_pid` is 0 in the mother. -/
inductive Role
  | mother
  | child
  deriving DecidableEq

/-- What must not happen. -/
inductive Violation
  | tableOutOfBounds
  | aboveLevel
  | fdpassByClient
  | nullDbp
  | assertion
  deriving DecidableEq

structure Connection where
  type : ConnType
  address : UInt32
  /-- the database, by its name -/
  dbp : Option Bytes
  op : Tops
  close : Bool
  /-- the name last looked up in the configuration, which no code reads -/
  named : Option Bytes
  deriving DecidableEq

/-- A request, with the bytes that `v1` and `v2` point to. -/
structure Request where
  token : UInt8
  v1 : Bytes
  v2 : Bytes

/-- `len1 + len2`, of 32 bits. -/
def Request.toget (req : Request) : Nat := (req.v1.length + req.v2.length) % 2 ^ 32

/-- Refused by `initial_read`. -/
def Request.TooBig (req : Request) : Prop := req.v1.length > maxSize ∨ req.toget > maxCsPayload

instance (req : Request) : Decidable req.TooBig := inferInstanceAs (Decidable (_ ∨ _))

/-- A database on the list of open ones. -/
structure OpenDbase where
  name : Bytes
  btCompareFcnType : UInt32

/-- What `get_dbp` is told by its process and the system: the open databases and how many there
are, and whether memory, path, file, child and opening come out well. -/
structure OpenEnv where
  firstDbp : List OpenDbase
  dbaseCounter : Nat
  memory : Bool
  path : Bool
  file : Bool
  newChild : Bool
  opened : Bool
  enoent : Bool

/-- What one request is told: what lies in the buffer behind the payload, what `get_dbp` sees in
the mother and in the child, and whether the handoff, the new connection, the list of databases
and the answer come out well. -/
structure Env where
  stale : Bytes
  mother : OpenEnv
  child : OpenEnv
  handoff : Bool
  accepted : Bool
  listed : Bool
  sent : Bool

/-- A process is killed or the connection is lost, or the server goes on. -/
inductive Outcome (α : Type)
  | violation (v : Violation)
  | gone
  | ok (a : α)
  deriving DecidableEq

/-- Who serves the client, over which connection. -/
structure ClientState where
  role : Role
  conn : Connection
  deriving DecidableEq

variable (xscontrols : List Xsctrl)

/-! ## Opening a database -/

/-- `isalnum` -/
def isalnum (c : UInt8) : Bool := (48 ≤ c && c ≤ 57) || (65 ≤ c && c ≤ 90) || (97 ≤ c && c ≤ 122)

/-- The cleaned up name. -/
def cleanName (v2 : Bytes) : Bytes := (v2.take 254).filter isalnum

/-- The level an `xsmode` asks for, none for an impossible one. -/
def xsmodeOps (xsmode : UInt32) : Option Tops :=
  if xsmode = 1 then some .rdonly
  else if xsmode = 2 then some .rdwr
  else if xsmode = 3 then some .creat
  else if xsmode = 4 then some .drop
  else none

/-- The end of `get_dbp`: a database that is not open yet. -/
def openNew (role : Role) (env : OpenEnv) (op : Tops) (name v2 : Bytes) : Bool :=
  -- HARD_MAX_DBASE, MAX_STATIC_NAME
  decide (env.dbaseCounter ≤ 256) && env.memory && decide (1 + v2.length ≤ 256) &&
    (decide (name ≠ []) && env.path) && (decide (op.level ≥ Tops.creat.level) || env.file) &&
    (if role = .mother then env.newChild else env.opened)

/-- `get_dbp`: the level it leaves in `r->op`, and the database or NULL. -/
def getDbp (role : Role) (env : OpenEnv) (address : UInt32) (xsmode btCompareFcnType : UInt32)
    (v2 : Bytes) : Tops × Option Bytes :=
  let name := cleanName v2
  let op := allowedOpsOnDbase xscontrols address name
  match xsmodeOps xsmode with
  | none => (op, none)
  | some mops =>
    if mops.level > op.level then (op, none)
    else
      let op := Tops.min mops op
      match env.firstDbp.find? (·.name = name) with
      | some p =>
        -- in the mother the comparison function is not looked at
        if p.btCompareFcnType &&& btCompareFcnType = btCompareFcnType ∨ role = .mother then (op, some name)
        else (op, none)
      | none => (op, if openNew role env op name v2 then some name else none)

/-- `DBMS_PROTO` -/
def dbmsProto : Nat := 117

/-- Word `k` of a buffer, in network order. -/
def wordAt (buffer : Bytes) (k : Nat) : UInt32 := (unpackInt ((buffer.drop (4 * k)).take 4)).toUInt32

def flatStoreBtCompInt : UInt32 := 7000

def flatStoreBtCompDate : UInt32 := 7002

/-- `do_pass` in the child, for the descriptor and the words that the mother hands over. -/
def doPass (env : Env) (address proto xsmode btCompareFcnType : UInt32) (v2 : Bytes) :
    Outcome ClientState :=
  if ¬ env.accepted then .gone
  else
    let r : Connection := ⟨.client, address, none, .err, false, none⟩
    if proto.toNat ≠ dbmsProto then .ok ⟨.child, r⟩
    else if btCompareFcnType ≠ 0 ∧
        (btCompareFcnType < flatStoreBtCompInt ∨ btCompareFcnType > flatStoreBtCompDate) then
      .ok ⟨.child, r⟩
    else
      match getDbp xscontrols .child env.child address xsmode btCompareFcnType v2 with
      | (op, none) =>
        .ok ⟨.child, { r with op := op, close := env.child.enoent, named := some (cleanName v2) }⟩
      | (op, some dbp) => .ok ⟨.child, { r with op := op, dbp := some dbp, named := some (cleanName v2) }⟩

/-- `do_init`; with nothing to get, `r->v1.data` is NULL and reading it kills the process. -/
def doInit (env : Env) (role : Role) (r : Connection) (req : Request) : Outcome ClientState :=
  let word := wordAt (req.v1 ++ req.v2 ++ env.stale)
  if req.toget = 0 then .gone
  else if role ≠ .mother then .violation .assertion
  else if req.v1 = [] then .ok ⟨role, r⟩
  else if (word 0).toNat ≠ dbmsProto then .ok ⟨role, r⟩
  -- no number is below the first and above the last function
  else if word 2 ≠ 0 ∧ word 2 < flatStoreBtCompInt ∧ word 2 > flatStoreBtCompDate then .ok ⟨role, r⟩
  else
    match getDbp xscontrols role env.mother r.address (word 1) (word 2) req.v2 with
    | (op, none) =>
      .ok ⟨role, { r with op := op, dbp := none, named := some (cleanName req.v2) }⟩
    | (op, some dbp) =>
      if env.handoff then doPass xscontrols env r.address (word 0) (word 1) (word 2) req.v2
      else .ok ⟨role, { r with op := op, dbp := some dbp, named := some (cleanName req.v2) }⟩

/-! ## The other handlers -/

/-- A handler that serves clients only and follows `r->dbp` to the data. -/
def dbHandler (role : Role) (r : Connection) : Outcome ClientState :=
  if r.type ≠ .client then .ok ⟨role, r⟩
  else
    match r.dbp with
    | none => .violation .nullDbp
    | some _ => .ok ⟨role, r⟩

/-- `do_close` -/
def doClose (role : Role) (r : Connection) : Outcome ClientState :=
  if r.type ≠ .client then .ok ⟨role, r⟩ else .ok ⟨role, { r with close := true }⟩

/-- `do_drop`: whoever asks, the path of `r->dbp` is read; `zap_dbs` closes the connections of the
database. -/
def doDrop (env : Env) (role : Role) (r : Connection) : Outcome ClientState :=
  match r.dbp with
  | none => .violation .nullDbp
  | some _ => .ok ⟨role, { r with close := r.close || env.listed }⟩

/-- `do_ping` and `do_list` only send an answer. -/
def doPing (role : Role) (r : Connection) : Outcome ClientState := .ok ⟨role, r⟩

/-! ## The command table -/

inductive Handler
  | init | fetch | store | delete | close | next | first | existsKey | sync | clear | ping | drop
  | inc | dec | packinc | packdec | list | fromKey | pass
  deriving DecidableEq

structure CommandReq where
  handler : Option Handler
  op : Tops
  deriving DecidableEq

/-- `init_cmd_table`: what it enters for a token. -/
def cmdEntry (i : Nat) : CommandReq :=
  if i = tokenInit then ⟨some .init, .err⟩
  else if i = tokenFetch then ⟨some .fetch, .rdonly⟩
  else if i = tokenStore then ⟨some .store, .rdwr⟩
  else if i = tokenDelete then ⟨some .delete, .rdwr⟩
  else if i = tokenClose then ⟨some .close, .none⟩
  else if i = tokenNextkey then ⟨some .next, .rdonly⟩
  else if i = tokenFirstkey then ⟨some .first, .rdonly⟩
  else if i = tokenExists then ⟨some .existsKey, .rdonly⟩
  else if i = tokenSync then ⟨some .sync, .rdwr⟩
  else if i = tokenClear then ⟨some .clear, .creat⟩
  else if i = tokenPing then ⟨some .ping, .none⟩
  else if i = tokenDrop then ⟨some .drop, .drop⟩
  else if i = tokenInc then ⟨some .inc, .rdwr⟩
  else if i = tokenDec then ⟨some .dec, .rdwr⟩
  else if i = tokenPackinc then ⟨some .packinc, .rdwr⟩
  else if i = tokenPackdec then ⟨some .packdec, .rdwr⟩
  else if i = tokenList then ⟨some .list, .rdonly⟩
  else if i = tokenFrom then ⟨some .fromKey, .rdonly⟩
  else if i = tokenFdpass then ⟨some .pass, .err⟩
  else ⟨none, .none⟩

/-- `cmd_table`, of `TOKEN_MAX` entries. -/
def cmdTable : List CommandReq := (List.range tokenMax).map cmdEntry

def Handler.run (env : Env) (role : Role) (r : Connection) (req : Request) : Handler → Outcome ClientState
  | .init => doInit xscontrols env role r req
  | .close => doClose role r
  | .ping => doPing role r
  | .list => doPing role r
  | .drop => doDrop env role r
  -- only the mother's connection gets here
  | .pass => .ok ⟨role, r⟩
  | .fetch | .store | .delete | .next | .first | .existsKey | .sync | .clear | .inc | .dec | .packinc
  | .packdec | .fromKey => dbHandler role r

/-- The level the configuration grants on the database that was named, `T_ERR` before any was. -/
def Connection.granted (r : Connection) : Tops :=
  match r.named with
  | none => .err
  | some name => allowedOpsOnDbase xscontrols r.address name

/-- `parse_request` of a client's connection. -/
def parseRequest (env : Env) (role : Role) (r : Connection) (req : Request) : Outcome ClientState :=
  let i := req.token.toNat % 32
  if i ≤ tokenMax then
    match cmdTable[i]? with
    | none => .violation .tableOutOfBounds
    | some entry =>
      match entry.handler with
      | none => .ok ⟨role, { r with close := true }⟩
      | some handler =>
        if entry.op.level ≤ r.op.level then
          if entry.op.level > (r.granted xscontrols).level then .violation .aboveLevel
          else if handler = .pass then .violation .fdpassByClient
          else handler.run xscontrols env role r req
        else .ok ⟨role, { r with close := true }⟩
  else .ok ⟨role, { r with close := true }⟩

/-- A failed answer closes the connection. -/
def Env.answered (env : Env) : Outcome ClientState → Outcome ClientState
  | .ok st => .ok { st with conn := { st.conn with close := st.conn.close || !env.sent } }
  | o => o

/-- One request: read unless the connection is to be closed, refused when it is too big, parsed. -/
def clientStep (env : Env) (st : ClientState) (req : Request) : Outcome ClientState :=
  if st.conn.close then .ok st
  else if req.TooBig then .ok ⟨st.role, { st.conn with close := true }⟩
  else env.answered (parseRequest xscontrols env st.role st.conn req)

/-- The requests of one client, up to the first violation. -/
def clientRun : List (Request × Env) → ClientState → Outcome ClientState
  | [], st => .ok st
  | (req, env) :: run, st =>
    match clientStep xscontrols env st req with
    | .ok st' => clientRun run st'
    | o => o

/-- A connection that the mother accepted. -/
def ClientState.accepted (address : UInt32) : ClientState :=
  ⟨.mother, ⟨.newClient, address, none, .err, false, none⟩⟩

/-! ## Harmless requests -/

/-- The handler follows `r->dbp` on a connection of this type. -/
def Handler.follows (type : ConnType) : Handler → Bool
  | .drop => true
  | .init | .close | .ping | .list | .pass => false
  | .fetch | .store | .delete | .next | .first | .existsKey | .sync | .clear | .inc | .dec | .packinc
  | .packdec | .fromKey => type = .client

/-- The token is neither the first number behind the table nor FDPASS, INIT goes to the mother or
comes with nothing to get, and a command that the connection's level allows finds the database
it follows `r->dbp` to. -/
def HarmlessToken (role : Role) (r : Connection) (req : Request) : Prop :=
  let i := req.token.toNat % 32
  i ≠ tokenMax ∧ i ≠ tokenFdpass ∧
    (i = tokenInit → role = .mother ∨ req.toget = 0) ∧
    ((cmdEntry i).op.level ≤ r.op.level →
      (∃ h ∈ (cmdEntry i).handler, h.follows r.type = true) → r.dbp.isSome)

/-- A request that is not read, is too big, or has a harmless token. -/
def Harmless (st : ClientState) (req : Request) : Prop :=
  st.conn.close = true ∨ req.TooBig ∨ HarmlessToken st.role st.conn req

def HarmlessRun : List (Request × Env) → ClientState → Prop
  | [], _ => True
  | (req, env) :: run, st =>
    Harmless st req ∧ ∀ st', clientStep xscontrols env st req = .ok st' → HarmlessRun run st'

/-! ## Levels -/

/-- The level of a connection is within what the configuration grants. -/
def Connection.Granted (r : Connection) : Prop := r.op.level ≤ (r.granted xscontrols).level

variable {xscontrols}

theorem accepted_granted (address : UInt32) : (ClientState.accepted address).conn.Granted xscontrols :=
  le_rfl

theorem getDbp_level (role : Role) (env : OpenEnv) (address xsmode btCompareFcnType : UInt32)
    (v2 : Bytes) :
    (getDbp xscontrols role env address xsmode btCompareFcnType v2).1.level ≤
      (allowedOpsOnDbase xscontrols address (cleanName v2)).level := by
  unfold getDbp
  cases xsmodeOps xsmode with
  | none => exact le_rfl
  | some mops =>
    simp only
    split
    · exact le_rfl
    · cases env.firstDbp.find? (·.name = cleanName v2) with
      | none => exact Tops.min_level_right _ _
      | some p =>
        simp only
        split
        · exact Tops.min_level_right _ _
        · exact Tops.min_level_right _ _

theorem Connection.granted_named {r : Connection} {name : Bytes} (h : r.named = some name) :
    r.granted xscontrols = allowedOpsOnDbase xscontrols r.address name := by
  unfold Connection.granted
  rw [h]

/-- The outcome is no violation, and keeps levels within what is granted. -/
def Outcome.Fine (xscontrols : List Xsctrl) : Outcome ClientState → Prop
  | .violation _ => False
  | .gone => True
  | .ok st => st.conn.Granted xscontrols

theorem fine_of_level {role : Role} {r : Connection} {name : Bytes} (hnamed : r.named = some name)
    (hlevel : r.op.level ≤ (allowedOpsOnDbase xscontrols r.address name).level) :
    (Outcome.ok ⟨role, r⟩).Fine xscontrols := by
  show r.op.level ≤ (r.granted xscontrols).level
  rw [Connection.granted_named hnamed]
  exact hlevel

theorem doPass_fine (env : Env) (address proto xsmode btCompareFcnType : UInt32) (v2 : Bytes) :
    (doPass xscontrols env address proto xsmode btCompareFcnType v2).Fine xscontrols := by
  unfold doPass
  split
  · exact trivial
  · simp only
    split
    · exact Nat.zero_le _
    · split
      · exact Nat.zero_le _
      · have hlevel := @getDbp_level xscontrols .child env.child address xsmode btCompareFcnType v2
        split
        · next op hget =>
          rw [hget] at hlevel
          exact fine_of_level rfl hlevel
        · next op dbp hget =>
          rw [hget] at hlevel
          exact fine_of_level rfl hlevel

theorem doInit_fine {env : Env} {role : Role} {r : Connection} {req : Request}
    (hr : r.Granted xscontrols) (h : role = .mother ∨ req.toget = 0) :
    (doInit xscontrols env role r req).Fine xscontrols := by
  unfold doInit
  simp only
  split
  · exact trivial
  · next hpayload =>
    rw [if_neg (not_not.2 (h.resolve_right hpayload))]
    split
    · exact hr
    · split
      · exact hr
      · split
        · exact hr
        · have hlevel := @getDbp_level xscontrols role env.mother r.address
            (wordAt (req.v1 ++ req.v2 ++ env.stale) 1) (wordAt (req.v1 ++ req.v2 ++ env.stale) 2) req.v2
          split
          · next op hget =>
            rw [hget] at hlevel
            exact fine_of_level rfl hlevel
          · next op dbp hget =>
            rw [hget] at hlevel
            split
            · exact doPass_fine env _ _ _ _ _
            · exact fine_of_level rfl hlevel

theorem doInit_assertion {env : Env} {role : Role} {r : Connection} {req : Request}
    (h : ¬ (role = .mother ∨ req.toget = 0)) :
    doInit xscontrols env role r req = .violation .assertion := by
  rw [not_or] at h
  unfold doInit
  simp only
  rw [if_neg h.2, if_pos h.1]

/-! ## Handlers -/

theorem dbHandler_fine {role : Role} {r : Connection} (hr : r.Granted xscontrols)
    (h : r.type = .client → r.dbp.isSome) : (dbHandler role r).Fine xscontrols := by
  unfold dbHandler
  split
  · exact hr
  · next htype =>
    obtain ⟨name, hname⟩ := Option.isSome_iff_exists.1 (h (not_not.1 htype))
    simp only [hname]
    exact hr

theorem dbHandler_nullDbp {role : Role} {r : Connection} (htype : r.type = .client) (h : r.dbp = none) :
    dbHandler role r = .violation .nullDbp := by
  unfold dbHandler
  rw [if_neg (not_not.2 htype)]
  simp only [h]

theorem doDrop_fine {env : Env} {role : Role} {r : Connection} (hr : r.Granted xscontrols)
    (h : r.dbp.isSome) : (doDrop env role r).Fine xscontrols := by
  obtain ⟨name, hname⟩ := Option.isSome_iff_exists.1 h
  unfold doDrop
  simp only [hname]
  exact hr

theorem Handler.run_fine {env : Env} {role : Role} {r : Connection} {req : Request} (handler : Handler)
    (hr : r.Granted xscontrols)
    (hinit : handler = .init → role = .mother ∨ req.toget = 0)
    (hdbp : handler.follows r.type = true → r.dbp.isSome) :
    (handler.run xscontrols env role r req).Fine xscontrols := by
  cases handler with
  | init => exact doInit_fine hr (hinit rfl)
  | close =>
    show (doClose role r).Fine xscontrols
    unfold doClose
    split
    · exact hr
    · exact hr
  | ping => exact hr
  | list => exact hr
  | pass => exact hr
  | drop => exact doDrop_fine hr (hdbp rfl)
  | fetch | store | delete | next | first | existsKey | sync | clear | inc | dec | packinc | packdec
  | fromKey => exact dbHandler_fine hr fun htype => hdbp (decide_eq_true htype)

theorem Handler.run_nullDbp {env : Env} {role : Role} {r : Connection} {req : Request}
    {handler : Handler} (h : handler.follows r.type = true) (hdbp : r.dbp = none) :
    handler.run xscontrols env role r req = .violation .nullDbp := by
  cases handler with
  | init | close | ping | list | pass => cases h
  | drop =>
    show doDrop env role r = _
    unfold doDrop
    simp only [hdbp]
  | fetch | store | delete | next | first | existsKey | sync | clear | inc | dec | packinc | packdec
  | fromKey => exact dbHandler_nullDbp (of_decide_eq_true h) hdbp

/-! ## The table -/

theorem cmdTable_lt {i : Nat} (h : i < tokenMax) : cmdTable[i]? = some (cmdEntry i) := by
  unfold cmdTable
  rw [List.getElem?_map, List.getElem?_range h, Option.map_some]

theorem cmdTable_tokenMax : cmdTable[tokenMax]? = none := rfl

/-- The table has INIT and FDPASS under their own tokens only. -/
theorem cmdEntry_init_iff : ∀ i < tokenMax, (cmdEntry i).handler = some .init ↔ i = tokenInit := by
  decide

theorem cmdEntry_pass_iff : ∀ i < tokenMax, (cmdEntry i).handler = some .pass ↔ i = tokenFdpass := by
  decide

/-- Five bit tokens behind the table have no handler. -/
theorem cmdEntry_handler_lt :
    ∀ i < 32, ∀ handler ∈ (cmdEntry i).handler, i < tokenMax := by decide

/-- A token of the table: denied, or its handler is run unless it is FDPASS. -/
theorem parseRequest_lt {env : Env} {role : Role} {r : Connection} {req : Request} {handler : Handler}
    (hr : r.Granted xscontrols) (hi : req.token.toNat % 32 < tokenMax)
    (hentry : (cmdEntry (req.token.toNat % 32)).handler = some handler) :
    parseRequest xscontrols env role r req =
      if (cmdEntry (req.token.toNat % 32)).op.level ≤ r.op.level then
        if handler = .pass then .violation .fdpassByClient
        else handler.run xscontrols env role r req
      else .ok ⟨role, { r with close := true }⟩ := by
  unfold parseRequest
  simp only [cmdTable_lt hi, hentry]
  rw [if_pos (le_of_lt hi)]
  split
  · next hlevel =>
    rw [if_neg (not_lt.2 (hlevel.trans hr))]
  · rfl

theorem parseRequest_fine {env : Env} {role : Role} {r : Connection} {req : Request}
    (hr : r.Granted xscontrols) (h : HarmlessToken role r req) :
    (parseRequest xscontrols env role r req).Fine xscontrols := by
  obtain ⟨hmax, hpass, hinit, hdbp⟩ := h
  by_cases hi : req.token.toNat % 32 < tokenMax
  · cases hentry : (cmdEntry (req.token.toNat % 32)).handler with
    | none =>
      unfold parseRequest
      simp only [cmdTable_lt hi, hentry]
      rw [if_pos (le_of_lt hi)]
      exact hr
    | some handler =>
      rw [parseRequest_lt hr hi hentry]
      split
      · next hlevel =>
        rw [if_neg (by rintro rfl; exact hpass ((cmdEntry_pass_iff _ hi).1 hentry))]
        refine Handler.run_fine handler hr ?_ ?_
        · rintro rfl
          exact hinit ((cmdEntry_init_iff _ hi).1 hentry)
        · exact fun hfollows => hdbp hlevel ⟨handler, hentry, hfollows⟩
      · exact hr
  · unfold parseRequest
    simp only
    rw [if_neg (by omega)]
    exact hr

theorem parseRequest_violates {env : Env} {role : Role} {r : Connection} {req : Request}
    (hr : r.Granted xscontrols) (h : ¬ HarmlessToken role r req) :
    ∃ v, parseRequest xscontrols env role r req = .violation v := by
  by_cases hmax : req.token.toNat % 32 = tokenMax
  · refine ⟨.tableOutOfBounds, ?_⟩
    unfold parseRequest
    simp only [hmax, cmdTable_tokenMax, le_refl, if_true]
  by_cases hpass : req.token.toNat % 32 = tokenFdpass
  · have hlevel : (cmdEntry tokenFdpass).op.level ≤ r.op.level := Nat.zero_le _
    refine ⟨.fdpassByClient, ?_⟩
    rw [@parseRequest_lt xscontrols env role r req .pass hr (by rw [hpass]; decide) (by rw [hpass]; rfl),
      hpass, if_pos hlevel, if_pos rfl]
  by_cases hinit : req.token.toNat % 32 = tokenInit → role = .mother ∨ req.toget = 0
  · -- the handler finds no database
    have hdbp : ¬ ((cmdEntry (req.token.toNat % 32)).op.level ≤ r.op.level →
        (∃ h ∈ (cmdEntry (req.token.toNat % 32)).handler, h.follows r.type = true) → r.dbp.isSome) :=
      fun hdbp => h ⟨hmax, hpass, hinit, hdbp⟩
    simp only [not_forall] at hdbp
    obtain ⟨hlevel, ⟨handler, hentry, hfollows⟩, hnone⟩ := hdbp
    have hi := cmdEntry_handler_lt _ (Nat.mod_lt _ (by decide)) handler hentry
    refine ⟨.nullDbp, ?_⟩
    rw [parseRequest_lt hr hi hentry, if_pos hlevel,
      if_neg (by rintro rfl; exact hpass ((cmdEntry_pass_iff _ hi).1 hentry))]
    exact Handler.run_nullDbp hfollows (Option.not_isSome_iff_eq_none.1 hnone)
  · rw [Classical.not_imp] at hinit
    obtain ⟨htoken, hrole⟩ := hinit
    have hlevel : (cmdEntry tokenInit).op.level ≤ r.op.level := Nat.zero_le _
    refine ⟨.assertion, ?_⟩
    rw [@parseRequest_lt xscontrols env role r req .init hr (by rw [htoken]; decide)
      (by rw [htoken]; rfl), htoken, if_pos hlevel, if_neg (by decide)]
    exact doInit_assertion hrole

/-! ## Runs -/

theorem answered_fine {env : Env} {o : Outcome ClientState} (h : o.Fine xscontrols) :
    (env.answered o).Fine xscontrols := by
  cases o with
  | violation v => exact h
  | gone => exact h
  | ok st => exact h

theorem clientStep_fine {env : Env} {st : ClientState} {req : Request}
    (hst : st.conn.Granted xscontrols) (h : Harmless st req) :
    (clientStep xscontrols env st req).Fine xscontrols := by
  unfold clientStep
  split
  · exact hst
  · next hopen =>
    split
    · exact hst
    · next hsize =>
      exact answered_fine (parseRequest_fine hst ((h.resolve_left hopen).resolve_left hsize))

theorem clientStep_violates {env : Env} {st : ClientState} {req : Request}
    (hst : st.conn.Granted xscontrols) (h : ¬ Harmless st req) :
    ∃ v, clientStep xscontrols env st req = .violation v := by
  unfold Harmless at h
  rw [not_or, not_or] at h
  obtain ⟨hopen, hsize, htoken⟩ := h
  obtain ⟨v, hv⟩ := @parseRequest_violates xscontrols env st.role st.conn req hst htoken
  refine ⟨v, ?_⟩
  unfold clientStep
  rw [if_neg hopen, if_neg hsize, hv]
  rfl

theorem clientRun_iff_of_granted (run : List (Request × Env)) :
    ∀ st : ClientState, st.conn.Granted xscontrols →
      ((∀ v, clientRun xscontrols run st ≠ .violation v) ↔ HarmlessRun xscontrols run st) := by
  induction run with
  | nil => exact fun st _ => ⟨fun _ => trivial, fun _ _ => nofun⟩
  | cons move run ih =>
    intro st hst
    obtain ⟨req, env⟩ := move
    by_cases hreq : Harmless st req
    · have hfine := @clientStep_fine xscontrols env st req hst hreq
      unfold clientRun HarmlessRun
      cases hstep : clientStep xscontrols env st req with
      | violation v =>
        rw [hstep] at hfine
        exact hfine.elim
      | gone => exact ⟨fun _ => ⟨hreq, nofun⟩, fun _ _ => nofun⟩
      | ok st' =>
        rw [hstep] at hfine
        refine (ih st' hfine).trans ⟨fun hrun => ⟨hreq, ?_⟩, fun hrun => hrun.2 st' rfl⟩
        rintro _ hok
        cases hok
        exact hrun
    · obtain ⟨v, hv⟩ := @clientStep_violates xscontrols env st req hst hreq
      unfold clientRun HarmlessRun
      simp only [hv]
      exact ⟨fun h => absurd rfl (h v), fun h => absurd h.1 hreq⟩

/-- Everybody may do everything with every database. -/
def allowAll : List Xsctrl := [⟨[42], .allow, [], [⟨.all, 0, 0⟩]⟩]

def wellEnv : OpenEnv := ⟨[], 0, true, true, true, true, true, false⟩

/-- Everything comes out well. -/
def goodDay : Env := ⟨[], wellEnv, wellEnv, true, true, true, true⟩

/-- INIT of a database under an `xsmode`. -/
def initRequest (xsmode : UInt8) (name : Bytes) : Request :=
  ⟨8, [0, 0, 0, 117, 0, 0, 0, xsmode, 0, 0, 0, 0], name⟩

def bareRequest (token : UInt8) : Request := ⟨token, [], []⟩

end RdfStore.Dbms
