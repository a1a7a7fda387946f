import RdfStore.Externals

/-!
# SHA-1 (`rdfstore_ap_sha1.c`)

The digest of a byte string as the source computes it: padded 64 byte blocks,
the message schedule of 80 words, 80 rounds and the addition of the result to
the chaining value.
-/

namespace RdfStore.Sha1

open ByteMem

/-- `ROT32` -/
def rot32 (x n : UInt32) : UInt32 := (x <<< n) ||| (x >>> (32 - n))

/-- The chaining value, or the working variables A to E of a round. -/
structure Digest5 where
  a : UInt32
  b : UInt32
  c : UInt32
  d : UInt32
  e : UInt32

/-- The values of `rdfstore_ap_SHA1Init`. -/
def init : Digest5 := ⟨0x67452301, 0xefcdab89, 0x98badcfe, 0x10325476, 0xc3d2e1f0⟩

/-- `f1` to `f4` with their constants, by round number. -/
def roundFunc (i : Nat) (x y z : UInt32) : UInt32 :=
  if i < 20 then ((x &&& y) ||| (~~~x &&& z)) + 0x5a827999
  else if i < 40 then (x ^^^ y ^^^ z) + 0x6ed9eba1
  else if i < 60 then ((x &&& y) ||| (x &&& z) ||| (y &&& z)) + 0x8f1bbcdc
  else (x ^^^ y ^^^ z) + 0xca62c1d6

/-- `FUNC(n,i)` -/
def round (i : Nat) (s : Digest5) (w : UInt32) : Digest5 :=
  ⟨rot32 s.a 5 + roundFunc i s.b s.c s.d + s.e + w, s.a, rot32 s.b 30, s.c, s.d⟩

/-- The message schedule, newest word first. -/
def schedule : Nat → List UInt32 → List UInt32
  | 0, w => w
  | n + 1, w => schedule n (rot32 (w.getD 2 0 ^^^ w.getD 7 0 ^^^ w.getD 13 0 ^^^ w.getD 15 0) 1 :: w)

def rounds : Nat → Digest5 → List UInt32 → Digest5
  | _, s, [] => s
  | i, s, w :: ws => rounds (i + 1) (round i s w) ws

/-- Big-endian words of a block. -/
def words : Bytes → List UInt32
  | a :: b :: c :: d :: l => (unpackInt [a, b, c, d]).toUInt32 :: words l
  | _ => []

/-- `sha_transform` -/
def transform (h : Digest5) (block : Bytes) : Digest5 :=
  let s := rounds 0 h (schedule 64 (words block).reverse).reverse
  ⟨h.a + s.a, h.b + s.b, h.c + s.c, h.d + s.d, h.e + s.e⟩

/-- What `SHA1Final` appends: 0x80, zeroes up to the last eight bytes of a block, the number of
bits. -/
def padding (n : Nat) : Bytes :=
  [0x80] ++ List.replicate ((119 - n % 64) % 64) 0 ++ packInt (n * 8 / 2 ^ 32) ++ packInt (n * 8)

def blocks : Nat → Digest5 → Bytes → Digest5
  | 0, h, _ => h
  | n + 1, h, l => blocks n (transform h (l.take 64)) (l.drop 64)

/-- `rdfstore_digest_digest` -/
def sha1 (input : Bytes) : Digest :=
  let l := input ++ padding input.length
  let h := blocks (l.length / 64) init l
  #v[(h.a >>> 24).toUInt8, (h.a >>> 16).toUInt8, (h.a >>> 8).toUInt8, h.a.toUInt8,
    (h.b >>> 24).toUInt8, (h.b >>> 16).toUInt8, (h.b >>> 8).toUInt8, h.b.toUInt8,
    (h.c >>> 24).toUInt8, (h.c >>> 16).toUInt8, (h.c >>> 8).toUInt8, h.c.toUInt8,
    (h.d >>> 24).toUInt8, (h.d >>> 16).toUInt8, (h.d >>> 8).toUInt8, h.d.toUInt8,
    (h.e >>> 24).toUInt8, (h.e >>> 16).toUInt8, (h.e >>> 8).toUInt8, h.e.toUInt8]

end RdfStore.Sha1
