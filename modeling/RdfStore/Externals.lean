import RdfStore.FlatStore

/-!
# What the store calls and does not define

The index code is the same for every digest, bitmap codec, case folding and
number or date recogniser, so these are parameters of the model.  `Lossless` is
what the code relies on of a pair of encode and decode functions.
-/

namespace RdfStore

open ByteMem

/-- `RDFSTORE_SHA_DIGESTSIZE` bytes. -/
abbrev Digest := Vector UInt8 20

/-- What `strtol` and `strtod` report of a C string: the bytes consumed (0 when no
conversion was made), the number as it lies in memory, and whether `errno` was set to
`ERANGE`. -/
structure Conversion where
  consumed : Nat
  value : Bytes
  erange : Bool

/-- What the date recognisers report: the `xsd:dateTime` text of the date with its NUL, and
whether scanning the numbers set `errno` to `ERANGE`. -/
structure DateScan where
  value : Option Bytes
  erange : Bool

structure Externals where
  /-- `rdfstore_digest_digest` -/
  sha1 : Bytes → Digest
  /-- `me->func_encode` -/
  funcEncode : Bytes → Bytes
  /-- `me->func_decode` -/
  funcDecode : Bytes → Bytes
  /-- `rdfstore_utf8_string_to_utf8_foldedcase` -/
  foldedcase : Bytes → Bytes
  strtol : Bytes → Conversion
  strtod : Bytes → Conversion
  /-- `rdfstore_xsd_deserialize_dateTime` -/
  deserializeDateTime : Bytes → DateScan
  /-- `rdfstore_xsd_deserialize_date` -/
  deserializeDate : Bytes → DateScan

/-- The decoder undoes the encoder on every bitmap that fits the buffers, and makes nothing
out of nothing. -/
structure Externals.Lossless (ext : Externals) : Prop where
  decode_encode : ∀ x : Bytes, x.length ≤ maxRecordsBytesSize → ext.funcDecode (ext.funcEncode x) = x
  decode_nil : ext.funcDecode [] = []

theorem Externals.Lossless.encode_ne_nil {ext : Externals} (h : ext.Lossless) {x : Bytes}
    (hx : x.length ≤ maxRecordsBytesSize) (hne : x ≠ []) : ext.funcEncode x ≠ [] := by
  intro he
  apply hne
  rw [← h.decode_encode x hx, he, h.decode_nil]

end RdfStore
