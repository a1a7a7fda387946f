import RdfStore.Dbms.Wire
import RdfStore.Lib.ByteMem

/-!
# Who may do what (`conf.c`)

The configuration lists allow and deny records for databases.  The level that an
address gets on a database is that of the first matching entry that says
something, else that of the base line `_`.
-/

namespace RdfStore.Dbms

open ByteMem

/-- `struct xscf`: the level of the addresses that agree with `ip` under `mask`. -/
structure Xscf where
  op : Tops
  ip : UInt32
  mask : UInt32

/-- `torder` -/
inductive Order
  | unset
  | allow
  | deny
  deriving DecidableEq

/-- `struct xsctrl` -/
structure Xsctrl where
  dbase : Bytes
  first : Order
  recdeny : List Xscf
  recallow : List Xscf

/-- `_dbcmp` answers 0: a star at the end of the configured name stands for any ending. -/
def dbcmp (name conf : Bytes) : Bool :=
  if conf.getLast? = some 42 then conf.dropLast.isPrefixOf name else conf == name

/-- `_allowed` -/
def allowed (p : List Xscf) (ip : UInt32) : Tops :=
  p.foldl (fun l x => if ip &&& x.mask = x.ip then Tops.max l x.op else l) .err

/-- `_deny`: what is left when a level is denied. -/
def deny : Tops → Tops
  | .all => .none
  | .drop => .creat
  | .creat => .rdwr
  | .rdwr => .rdonly
  | .rdonly => .none
  | .none => .creat
  | .err => .err

/-- `_allow` -/
def allow : Tops → Tops
  | .all => .drop
  | x => x

/-- `_allowed_ops_cnf` -/
def allowedOpsCnf (cnf : Xsctrl) (ip : UInt32) : Tops :=
  let a := allow (allowed cnf.recallow ip)
  let d := deny (allowed cnf.recdeny ip)
  if a = .err then d
  else if d = .err then a
  else if cnf.first = .deny then Tops.max a d
  else Tops.min a d

/-- The loop of `allowed_ops_on_dbase`. -/
def allowedOpsLoop (ip : UInt32) (dbase : Bytes) : List Xsctrl → Tops → Tops
  | [], level => level
  | p :: rest, level =>
    let level := if p.dbase = [95] then allowedOpsCnf p ip else level
    if dbcmp dbase p.dbase || p.dbase = [42] then
      let s := allowedOpsCnf p ip
      if s ≠ .err then s else allowedOpsLoop ip dbase rest (Tops.max level s)
    else allowedOpsLoop ip dbase rest level

/-- `allowed_ops_on_dbase` -/
def allowedOpsOnDbase (xscontrols : List Xsctrl) (ip : UInt32) (dbase : Bytes) : Tops :=
  allowedOpsLoop ip dbase xscontrols .none

theorem Tops.min_level_right (a b : Tops) : (Tops.min a b).level ≤ b.level := by
  unfold Tops.min
  split
  · next h => exact h.le
  · exact le_rfl

end RdfStore.Dbms
