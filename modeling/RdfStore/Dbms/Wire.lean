import RdfStore.FlatStore

/-!
# What client and server agree on (`dbms_comms.h`, `dbmsd.h`, `conf.h`)

The tokens of the requests, the kinds of connections, the levels of access and
the header before every request and every reply.
-/

namespace RdfStore.Dbms

open ByteMem

def tokenError : Nat := 0
def tokenFetch : Nat := 1
def tokenStore : Nat := 2
def tokenDelete : Nat := 3
def tokenNextkey : Nat := 4
def tokenFirstkey : Nat := 5
def tokenExists : Nat := 6
def tokenSync : Nat := 7
def tokenInit : Nat := 8
def tokenClose : Nat := 9
def tokenClear : Nat := 10
/-- Only used for internal passing of a file descriptor. -/
def tokenFdpass : Nat := 11
def tokenPing : Nat := 12
def tokenInc : Nat := 13
def tokenList : Nat := 14
def tokenDec : Nat := 15
def tokenPackinc : Nat := 16
def tokenPackdec : Nat := 17
def tokenDrop : Nat := 18
def tokenFrom : Nat := 19

/-- `TOKEN_MAX`, the number of entries of `cmd_table`. -/
def tokenMax : Nat := 20

/-- `C_UNK`, `C_MUM`, `C_CLIENT`, `C_NEW_CLIENT`, `C_CHILD`, `C_LEGACY` -/
inductive ConnType
  | unk
  | mum
  | client
  | newClient
  | child
  | legacy
  deriving DecidableEq

/-- `tops` -/
inductive Tops
  | err
  | none
  | rdonly
  | rdwr
  | creat
  | drop
  | all
  deriving DecidableEq

/-- The number of a level, by which levels are compared. -/
def Tops.level : Tops → Nat
  | .err => 0
  | .none => 1
  | .rdonly => 2
  | .rdwr => 3
  | .creat => 4
  | .drop => 5
  | .all => 6

/-- `MAX` of two levels. -/
def Tops.max (a b : Tops) : Tops := if a.level > b.level then a else b

/-- `MIN` of two levels. -/
def Tops.min (a b : Tops) : Tops := if a.level < b.level then a else b

/-! ## The header -/

/-- `MAX_CS_PAYLOAD`, the size of `recbuff` -/
def maxCsPayload : Nat := 128 * 1024

/-- The limit of `v1.size` -/
def maxSize : Nat := 2 * 1024 * 1024

/-- `struct header`, with three bytes of padding behind the token. -/
structure Header where
  token : UInt8
  gap : UInt8 × UInt8 × UInt8
  len1 : UInt32
  len2 : UInt32
  deriving DecidableEq

/-- `sizeof(struct header)` -/
def headerSize : Nat := 12

/-- The header as it is sent, with its lengths in network order. -/
def Header.bytes (cmd : Header) : Bytes :=
  [cmd.token, cmd.gap.1, cmd.gap.2.1, cmd.gap.2.2] ++ packInt cmd.len1.toNat ++ packInt cmd.len2.toNat

/-- The header that the next bytes are. -/
def Header.ofBytes (b : Bytes) : Header where
  token := b.getD 0 0
  gap := (b.getD 1 0, b.getD 2 0, b.getD 3 0)
  len1 := (unpackInt (b.drop 4)).toUInt32
  len2 := (unpackInt (b.drop 8)).toUInt32

@[simp] theorem Header.length_bytes (cmd : Header) : cmd.bytes.length = headerSize := rfl

theorem Header.ofBytes_append (cmd : Header) (rest : Bytes) : Header.ofBytes (cmd.bytes ++ rest) = cmd := by
  have hlen1 : unpackInt ((cmd.bytes ++ rest).drop 4) = cmd.len1.toNat :=
    (unpackInt_packInt_append _ _).trans (Nat.mod_eq_of_lt cmd.len1.toNat_lt)
  have hlen2 : unpackInt ((cmd.bytes ++ rest).drop 8) = cmd.len2.toNat :=
    (unpackInt_packInt_append _ _).trans (Nat.mod_eq_of_lt cmd.len2.toNat_lt)
  unfold Header.ofBytes
  rw [hlen1, hlen2]
  simp [Header.bytes]

end RdfStore.Dbms
