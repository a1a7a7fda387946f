import RdfStore.PackedCounters
import RdfStore.Sha1
import RdfStore.Lib.BlockStream

/-!
# SHA-1 in pieces (`rdfstore_ap_sha1.c`)

A context takes a text in pieces of any length: it keeps the bytes that do not
fill a block, the chaining value and the number of bits in two words.  The words
of a block are read as the machine reads them, after their bytes have been turned
around on a little-endian one.

    sha1Final (sha1Updates sha1Init pieces) = sha1 pieces.flatten      (sha1Final_updates)
-/

namespace RdfStore.Sha1

open ByteMem BlockStream

/-! ## Words in memory -/

/-- A word as the machine reads it; `little` is what `isLittleEndian` says. -/
def loadWord (little : Bool) (b : Bytes) : UInt32 := (unpackInt (if little then b.reverse else b)).toUInt32

/-- A word as the machine writes it. -/
def storeWord (little : Bool) (w : UInt32) : Bytes := if little then (packInt w.toNat).reverse else packInt w.toNat

def loadWords (little : Bool) : Bytes → List UInt32
  | a :: b :: c :: d :: l => loadWord little [a, b, c, d] :: loadWords little l
  | _ => []

/-- The loop of `maybe_byte_reverse`. -/
def byteReverse : Bytes → Bytes
  | a :: b :: c :: d :: l => d :: c :: b :: a :: byteReverse l
  | l => l

/-- `maybe_byte_reverse` -/
def maybeByteReverse (little : Bool) (buffer : Bytes) : Bytes := if little then byteReverse buffer else buffer

/-- `memcpy` to an offset in `data`. -/
def overwrite (offset : Nat) (bytes data : Bytes) : Bytes :=
  data.take offset ++ bytes ++ data.drop (offset + bytes.length)

/-! ## The context -/

/-- `RDFSTORE_AP_SHA1_CTX`, with words of 32 bits; `amount` is `local`. -/
structure Ctx where
  digest : Digest5
  countLo : UInt32
  countHi : UInt32
  data : Bytes
  amount : Nat

/-- `rdfstore_ap_SHA1Init`; `data` is what the memory holds. -/
def sha1Init (data : Bytes) : Ctx := ⟨init, 0, 0, data, 0⟩

/-- `sha_transform` -/
def shaTransform (little : Bool) (info : Ctx) : Ctx :=
  let h := info.digest
  let s := rounds 0 h (schedule 64 (loadWords little info.data).reverse).reverse
  { info with digest := ⟨h.a + s.a, h.b + s.b, h.c + s.c, h.d + s.d, h.e + s.e⟩ }

/-- `maybe_byte_reverse` and `sha_transform` -/
def takeBlock (little : Bool) (info : Ctx) : Ctx :=
  shaTransform little { info with data := maybeByteReverse little info.data }

/-- The loop over full blocks, and what is left behind it. -/
def updateBlocks (little : Bool) (info : Ctx) (buffer : Bytes) : Ctx :=
  if 64 ≤ buffer.length then
    updateBlocks little (takeBlock little { info with data := overwrite 0 (buffer.take 64) info.data })
      (buffer.drop 64)
  else { info with data := overwrite 0 buffer info.data, amount := buffer.length }
termination_by buffer.length
decreasing_by
  rw [List.length_drop]
  omega

/-- The count of bits in two words. -/
def addCount (info : Ctx) (count : UInt32) : Ctx :=
  { info with
    countHi := (if info.countLo + count <<< 3 < info.countLo then info.countHi + 1 else info.countHi) + count >>> 29
    countLo := info.countLo + count <<< 3 }

/-- `rdfstore_ap_SHA1Update_binary` -/
def sha1Update (little : Bool) (info : Ctx) (buffer : Bytes) : Ctx :=
  let info := addCount info buffer.length.toUInt32
  if info.amount ≠ 0 then
    let i := min (64 - info.amount) buffer.length
    let info := { info with data := overwrite info.amount (buffer.take i) info.data, amount := info.amount + i }
    if info.amount = 64 then updateBlocks little (takeBlock little info) (buffer.drop i) else info
  else updateBlocks little info buffer

/-- `(k >> n) & 0xff` -/
def highByte (k n : UInt32) : UInt8 := (k >>> n &&& 0xff).toUInt8

/-- The loop of `rdfstore_ap_SHA1Final` over the words, high bytes first. -/
def digestOf (h : Digest5) : Digest :=
  #v[highByte h.a 24, highByte h.a 16, highByte h.a 8, highByte h.a 0,
    highByte h.b 24, highByte h.b 16, highByte h.b 8, highByte h.b 0,
    highByte h.c 24, highByte h.c 16, highByte h.c 8, highByte h.c 0,
    highByte h.d 24, highByte h.d 16, highByte h.d 8, highByte h.d 0,
    highByte h.e 24, highByte h.e 16, highByte h.e 8, highByte h.e 0]

/-- `memset` of zeroes from an offset in `data`. -/
def Ctx.memset (info : Ctx) (offset n : Nat) : Ctx :=
  { info with data := overwrite offset (List.replicate n 0) info.data }

/-- The last block, with the count of bits. -/
def lastBlock (little : Bool) (info : Ctx) : Ctx :=
  let data := overwrite 56 (storeWord little info.countHi) (maybeByteReverse little info.data)
  shaTransform little { info with data := overwrite 60 (storeWord little info.countLo) data }

/-- `rdfstore_ap_SHA1Final` -/
def sha1Final (little : Bool) (info : Ctx) : Digest :=
  let count := (info.countLo >>> 3 &&& 0x3f).toNat
  let info := { info with data := overwrite count [0x80] info.data }
  let count := count + 1
  let info :=
    if 64 - 8 < count then (takeBlock little (info.memset count (64 - count))).memset 0 (64 - 8)
    else info.memset count (64 - 8 - count)
  digestOf (lastBlock little info).digest

/-! ## Either byte order -/

theorem loadWords_maybeByteReverse (little : Bool) (l : Bytes) : loadWords little (maybeByteReverse little l) = words l := by
  cases little with
  | false =>
    show loadWords false l = words l
    induction l using words.induct with
    | case1 a b c d l ih => rw [loadWords, words, ih]; rfl
    | case2 l h =>
      rw [words]
      · rw [loadWords]
        exact h
      · exact h
  | true =>
    show loadWords true (byteReverse l) = words l
    induction l using words.induct with
    | case1 a b c d l ih => rw [byteReverse, loadWords, words, ih]; rfl
    | case2 l h =>
      rw [byteReverse, words]
      · rw [loadWords]
        exact h
      · exact h
      · exact h

theorem length_byteReverse (l : Bytes) : (byteReverse l).length = l.length := by
  fun_induction byteReverse l with
  | case1 a b c d l ih => simp [ih]
  | case2 l h => rfl

@[simp] theorem length_maybeByteReverse (little : Bool) (l : Bytes) : (maybeByteReverse little l).length = l.length := by
  cases little with
  | false => rfl
  | true => exact length_byteReverse l

theorem byteReverse_append {k : Nat} {l : Bytes} (hl : l.length = 4 * k) (m : Bytes) :
    byteReverse (l ++ m) = byteReverse l ++ byteReverse m := by
  induction k generalizing l with
  | zero =>
    rw [List.length_eq_zero_iff.1 hl]
    rfl
  | succ k ih =>
    match l, hl with
    | a :: b :: c :: d :: l, hl =>
      simp only [List.cons_append, byteReverse]
      rw [ih (by simp only [List.length_cons] at hl; omega)]

theorem maybeByteReverse_append (little : Bool) {k : Nat} {l : Bytes} (hl : l.length = 4 * k) (m : Bytes) :
    maybeByteReverse little (l ++ m) = maybeByteReverse little l ++ maybeByteReverse little m := by
  cases little with
  | false => rfl
  | true => exact byteReverse_append hl m

theorem storeWord_eq (little : Bool) (w : UInt32) : storeWord little w = maybeByteReverse little (packInt w.toNat) := by
  cases little with
  | false => rfl
  | true => rfl

/-! ## Bytes written into a block -/

theorem length_overwrite {offset : Nat} {bytes data : Bytes} (h : offset + bytes.length ≤ data.length) :
    (overwrite offset bytes data).length = data.length := by
  simp only [overwrite, List.length_append, List.length_take, List.length_drop]
  omega

theorem take_overwrite {offset : Nat} {bytes data : Bytes} (h : offset ≤ data.length) :
    (overwrite offset bytes data).take (offset + bytes.length) = data.take offset ++ bytes := by
  refine List.take_left' ?_
  rw [List.length_append, List.length_take, Nat.min_eq_left h]

/-- Bytes up to the end. -/
theorem overwrite_end {offset : Nat} {bytes data : Bytes} (h : offset + bytes.length = data.length) :
    overwrite offset bytes data = data.take offset ++ bytes := by
  rw [overwrite, h, List.drop_length, List.append_nil]

/-- The count of bits behind 56 bytes, on either machine. -/
theorem loadWords_lastBlock (little : Bool) {l t : Bytes} (hl : l.length = 56) (ht : t.length = 8) (hi lo : UInt32) :
    loadWords little (overwrite 60 (storeWord little lo)
      (overwrite 56 (storeWord little hi) (maybeByteReverse little (l ++ t)))) =
      words (l ++ packInt hi.toNat ++ packInt lo.toNat) := by
  have hstore : ∀ w, (storeWord little w).length = 4 := fun w => by
    rw [storeWord_eq, length_maybeByteReverse, length_packInt]
  have hlength : (l ++ packInt hi.toNat).length = 60 := by
    rw [List.length_append, hl, length_packInt]
  have hhi : (overwrite 56 (storeWord little hi) (maybeByteReverse little (l ++ t))).take 60 =
      maybeByteReverse little (l ++ packInt hi.toNat) := by
    have hle : 56 ≤ (maybeByteReverse little (l ++ t)).length := by simp [hl]
    have h := @take_overwrite 56 (storeWord little hi) _ hle
    rw [hstore] at h
    rw [h, maybeByteReverse_append little (k := 14) hl, List.take_left' (by simp [hl]),
      maybeByteReverse_append little (k := 14) hl, storeWord_eq]
  rw [overwrite_end, hhi, storeWord_eq, ← maybeByteReverse_append little (k := 15) hlength, loadWords_maybeByteReverse]
  rw [hstore, length_overwrite]
  · simp [hl, ht]
  · rw [hstore]
    simp [hl, ht]

theorem takeBlock_digest (little : Bool) (info : Ctx) :
    (takeBlock little info).digest = transform info.digest info.data := by
  simp only [takeBlock, shaTransform, loadWords_maybeByteReverse, transform]

/-! ## What a context has taken -/

/-- The chaining value and the bytes left over, after the bytes `l`. -/
structure Kept (l : Bytes) (info : Ctx) : Prop where
  digest : info.digest = state 64 transform init l
  room : info.data.length = 64
  amount : info.amount = (rest 64 l).length
  data : info.data.take info.amount = rest 64 l

/-- The number of bits of `n` bytes. -/
def Counted (n : Nat) (info : Ctx) : Prop := info.countLo.toNat + 2 ^ 32 * info.countHi.toNat = n * 8 % 2 ^ 64

theorem blocks_eq (k : Nat) (h : Digest5) (l : Bytes) : blocks k h l = absorb 64 transform k h l := by
  induction k generalizing h l with
  | zero => rfl
  | succ k ih => rw [blocks, absorb, ih]

theorem updateBlocks_spec (little : Bool) (info : Ctx) (hroom : info.data.length = 64) (buffer : Bytes) :
    ∃ data, updateBlocks little info buffer =
        ⟨state 64 transform info.digest buffer, info.countLo, info.countHi, data, (rest 64 buffer).length⟩ ∧
      data.length = 64 ∧ data.take (rest 64 buffer).length = rest 64 buffer := by
  fun_induction updateBlocks little info buffer with
  | case1 info buffer h ih =>
    have hlength : (buffer.take 64).length = 64 := by rw [List.length_take, Nat.min_eq_left h]
    have hdata : overwrite 0 (buffer.take 64) info.data = buffer.take 64 := by
      rw [overwrite_end (by rw [hlength, hroom])]
      rfl
    obtain ⟨data, hrun, hdone⟩ := ih (by
      show (maybeByteReverse little (overwrite 0 (buffer.take 64) info.data)).length = 64
      rw [hdata, length_maybeByteReverse, hlength])
    rw [takeBlock_digest, hdata] at hrun
    rw [← state_block transform (by omega) info.digest hlength, ← rest_block (by omega) hlength,
      List.take_append_drop] at hrun
    rw [← rest_block (by omega) hlength, List.take_append_drop] at hdone
    refine ⟨data, ?_, hdone⟩
    rw [hdata]
    exact hrun
  | case2 info buffer h =>
    have hlt : buffer.length < 64 := Nat.lt_of_not_le h
    rw [state_of_lt transform _ hlt, rest_of_lt hlt]
    refine ⟨_, rfl, ?_, ?_⟩
    · rw [length_overwrite (by omega), hroom]
    · have h := @take_overwrite 0 buffer info.data (Nat.zero_le _)
      rwa [Nat.zero_add] at h

/-- The carry between the two words. -/
theorem addCount_spec {info : Ctx} {n count : Nat} (h : Counted n info) (hcount : count < 2 ^ 32) :
    Counted (n + count) (addCount info count.toUInt32) := by
  unfold Counted at h ⊢
  have hlo := info.countLo.toNat_lt
  have hhi := info.countHi.toNat_lt
  have hshift : (count.toUInt32 <<< 3).toNat = count * 8 % 2 ^ 32 := by
    simp [UInt32.toNat_shiftLeft, Nat.shiftLeft_eq]
  have hover : (count.toUInt32 >>> 29).toNat = count / 2 ^ 29 := by
    have hmod : count % 4294967296 = count := Nat.mod_eq_of_lt hcount
    simp [UInt32.toNat_shiftRight, Nat.shiftRight_eq_div_pow, hmod]
  unfold addCount
  simp only [UInt32.lt_iff_toNat_lt, UInt32.toNat_add, hshift, hover]
  split
  · rw [UInt32.toNat_add]
    have hone : (1 : UInt32).toNat = 1 := rfl
    rw [hone]
    omega
  · omega

/-- A piece goes behind the bytes left over. -/
def Ctx.put (info : Ctx) (piece : Bytes) : Ctx :=
  { info with data := overwrite info.amount piece info.data, amount := info.amount + piece.length }

section

variable {l : Bytes} {info : Ctx}

theorem Kept.lt (h : Kept l info) : info.amount < 64 := h.amount ▸ length_rest_lt (by omega) l

/-- A piece that does not fill the block. -/
theorem Kept.put (h : Kept l info) {piece : Bytes} (hlt : info.amount + piece.length < 64) :
    Kept (l ++ piece) (info.put piece) := by
  have hle : info.amount ≤ info.data.length := by
    rw [h.room]
    omega
  have hshort : (rest 64 l ++ piece).length < 64 := by rwa [List.length_append, ← h.amount]
  have hrest : rest 64 (l ++ piece) = rest 64 l ++ piece := by rw [rest_append (by omega), rest_of_lt hshort]
  refine ⟨?_, ?_, ?_, ?_⟩
  · rw [state_append transform (by omega), state_of_lt transform _ hshort]
    exact h.digest
  · rw [Ctx.put, length_overwrite, h.room]
    rw [h.room]
    omega
  · rw [hrest, List.length_append, ← h.amount]
    rfl
  · rw [hrest, ← h.data]
    exact take_overwrite hle

/-- Full blocks, and what is left behind them. -/
theorem updateBlocks_kept (little : Bool) (hdigest : info.digest = state 64 transform init l)
    (hroom : info.data.length = 64) (hrest : rest 64 l = []) (buffer : Bytes) :
    Kept (l ++ buffer) (updateBlocks little info buffer) := by
  obtain ⟨data, hrun, hdata, htaken⟩ := updateBlocks_spec little info hroom buffer
  have hstate := state_append transform (n := 64) (by omega) init l buffer
  have hleft := rest_append (n := 64) (by omega) l buffer
  rw [hrest, List.nil_append] at hstate hleft
  rw [hrun]
  refine ⟨?_, hdata, ?_, ?_⟩
  · rw [hstate, hdigest]
  · rw [hleft]
  · rw [hleft]
    exact htaken

/-- A piece that fills the block. -/
theorem Kept.fill (h : Kept l info) (little : Bool) {piece : Bytes} (hfull : info.amount + piece.length = 64) :
    (takeBlock little (info.put piece)).digest = state 64 transform init (l ++ piece) ∧
      (takeBlock little (info.put piece)).data.length = 64 ∧ rest 64 (l ++ piece) = [] := by
  have hblock : (info.put piece).data = rest 64 l ++ piece := by
    rw [Ctx.put, overwrite_end (by rw [hfull, h.room]), h.data]
  have hsize : (rest 64 l ++ piece).length = 64 := by rw [List.length_append, ← h.amount, hfull]
  have hstate := state_block transform (by omega) (state 64 transform init l) hsize []
  have hrest := rest_block (by omega) hsize []
  rw [List.append_nil] at hstate hrest
  refine ⟨?_, ?_, ?_⟩
  · rw [takeBlock_digest, hblock, state_append transform (by omega), hstate, ← h.digest]
    rfl
  · show (maybeByteReverse little (info.put piece).data).length = 64
    rw [length_maybeByteReverse, hblock, hsize]
  · rw [rest_append (by omega), hrest]
    rfl

theorem updateBlocks_counts (little : Bool) (hroom : info.data.length = 64) (buffer : Bytes) :
    (updateBlocks little info buffer).countLo = info.countLo ∧
      (updateBlocks little info buffer).countHi = info.countHi := by
  obtain ⟨data, hrun, -⟩ := updateBlocks_spec little info hroom buffer
  rw [hrun]
  exact ⟨rfl, rfl⟩

/-- One more piece. -/
theorem sha1Update_spec (little : Bool) (h : Kept l info) (hcount : Counted l.length info) {buffer : Bytes}
    (hbuffer : buffer.length < 2 ^ 32) :
    Kept (l ++ buffer) (sha1Update little info buffer) ∧
      Counted (l ++ buffer).length (sha1Update little info buffer) := by
  have hadd := addCount_spec hcount hbuffer
  have hkept : Kept l (addCount info buffer.length.toUInt32) := ⟨h.digest, h.room, h.amount, h.data⟩
  rw [← List.length_append] at hadd
  generalize hinfo : addCount info buffer.length.toUInt32 = info' at hadd hkept
  have hlt := hkept.lt
  unfold sha1Update
  simp only [hinfo]
  split
  · have hlength : (buffer.take (min (64 - info'.amount) buffer.length)).length =
        min (64 - info'.amount) buffer.length := by
      rw [List.length_take]
      omega
    have hput : ({ info' with
        data := overwrite info'.amount (buffer.take (min (64 - info'.amount) buffer.length)) info'.data
        amount := info'.amount + min (64 - info'.amount) buffer.length } : Ctx) =
        info'.put (buffer.take (min (64 - info'.amount) buffer.length)) := by
      rw [Ctx.put, hlength]
    rw [hput]
    split
    · next hfull =>
      have hfull : info'.amount + min (64 - info'.amount) buffer.length = 64 := hfull
      obtain ⟨hdigest, hroom, hrest⟩ := hkept.fill little (hlength.symm ▸ hfull)
      obtain ⟨hlo, hhi⟩ := updateBlocks_counts little hroom (buffer.drop (min (64 - info'.amount) buffer.length))
      have hblocks := updateBlocks_kept little hdigest hroom hrest
        (buffer.drop (min (64 - info'.amount) buffer.length))
      rw [List.append_assoc, List.take_append_drop] at hblocks
      refine ⟨hblocks, ?_⟩
      rw [Counted, hlo, hhi]
      exact hadd
    · next hshort =>
      have hshort : info'.amount + min (64 - info'.amount) buffer.length ≠ 64 := hshort
      have hall : min (64 - info'.amount) buffer.length = buffer.length := by omega
      rw [hall] at hshort ⊢
      rw [List.take_length]
      exact ⟨hkept.put (by omega), hadd⟩
  · next hzero =>
    have hnil : rest 64 l = [] := List.length_eq_zero_iff.1 (hkept.amount.symm.trans (of_not_not hzero))
    obtain ⟨hlo, hhi⟩ := updateBlocks_counts little hkept.room buffer
    refine ⟨updateBlocks_kept little hkept.digest hkept.room hnil buffer, ?_⟩
    rw [Counted, hlo, hhi]
    exact hadd

/-! ## The end -/

/-- Zeroes behind what was there. -/
theorem memset_data {b : Bytes} {offset : Nat} (hb : info.data.take offset = b) (n : Nat) :
    (info.memset offset n).data = b ++ List.replicate n 0 ++ info.data.drop (offset + n) := by
  rw [Ctx.memset, overwrite, hb, List.length_replicate]

theorem lastBlock_digest (little : Bool) {b t : Bytes} (hdata : info.data = b ++ t) (hb : b.length = 56)
    (ht : t.length = 8) : (lastBlock little info).digest =
      transform info.digest (b ++ packInt info.countHi.toNat ++ packInt info.countLo.toNat) := by
  simp only [lastBlock, shaTransform, hdata, loadWords_lastBlock little hb ht, transform]

theorem Counted.amount (h : Counted l.length info) : (info.countLo >>> 3 &&& 0x3f).toNat = (rest 64 l).length := by
  have hlo := info.countLo.toNat_lt
  unfold Counted at h
  rw [length_rest, UInt32.toNat_and, UInt32.toNat_shiftRight]
  have hmask : (0x3f : UInt32).toNat = 2 ^ 6 - 1 := rfl
  have hthree : (3 : UInt32).toNat % 32 = 3 := rfl
  rw [hmask, Nat.and_two_pow_sub_one_eq_mod, hthree, Nat.shiftRight_eq_div_pow]
  omega

theorem Counted.packInt_eq {n : Nat} (h : Counted n info) :
    packInt info.countHi.toNat = packInt (n * 8 / 2 ^ 32) ∧ packInt info.countLo.toNat = packInt (n * 8) := by
  have hlo := info.countLo.toNat_lt
  have hhi := info.countHi.toNat_lt
  unfold Counted at h
  constructor
  · refine packInt_congr ?_
    omega
  · refine packInt_congr ?_
    omega

theorem highByte_eq (k n : UInt32) : highByte k n = (k >>> n).toUInt8 := by
  rw [highByte, UInt32.toUInt8_and]
  exact UInt8.and_neg_one

theorem sha1_eq (l : Bytes) :
    sha1 l = digestOf (state 64 transform (state 64 transform init l) (rest 64 l ++ padding l.length)) := by
  rw [← state_append transform (by omega), state, ← blocks_eq, sha1]
  simp only [digestOf, highByte_eq, UInt32.shiftRight_zero]

/-- What is left over, and the padding, are one block or two. -/
theorem state_padding (d : Digest5) {r : Bytes} (hlt : r.length < 64) {n : Nat} (hn : n % 64 = r.length) :
    state 64 transform d (r ++ padding n) =
      if 64 - 8 < r.length + 1 then
        transform (transform d (r ++ [0x80] ++ List.replicate (64 - (r.length + 1)) 0))
          (List.replicate 56 0 ++ packInt (n * 8 / 2 ^ 32) ++ packInt (n * 8))
      else transform d (r ++ [0x80] ++ List.replicate (56 - (r.length + 1)) 0 ++ packInt (n * 8 / 2 ^ 32) ++
        packInt (n * 8)) := by
  have hone : ∀ (d : Digest5) {b : Bytes}, b.length = 64 → state 64 transform d b = transform d b := by
    intro d b hb
    have h := state_block transform (by omega) d hb []
    rw [List.append_nil] at h
    rw [h]
    exact state_of_lt transform _ (by simp)
  rw [padding, hn]
  split
  · next hlong =>
    have hzeroes : List.replicate ((119 - r.length) % 64) (0 : UInt8) =
        List.replicate (64 - (r.length + 1)) 0 ++ List.replicate 56 0 := by
      rw [List.replicate_append_replicate]
      congr 1
      omega
    have hsplit : r ++ ([0x80] ++ List.replicate ((119 - r.length) % 64) 0 ++ packInt (n * 8 / 2 ^ 32) ++
        packInt (n * 8)) = r ++ [0x80] ++ List.replicate (64 - (r.length + 1)) 0 ++
        (List.replicate 56 0 ++ packInt (n * 8 / 2 ^ 32) ++ packInt (n * 8)) := by
      rw [hzeroes]
      simp only [List.append_assoc]
    rw [hsplit, state_block transform (by omega)]
    · exact hone _ rfl
    · simp only [List.length_append, List.length_cons, List.length_nil, List.length_replicate]
      omega
  · next hshort =>
    have hzeroes : (119 - r.length) % 64 = 56 - (r.length + 1) := by omega
    rw [hzeroes, hone]
    · simp only [List.append_assoc]
    · simp only [List.length_append, List.length_cons, List.length_nil, List.length_replicate, length_packInt]
      omega

/-- The end of a context whose first `count` bytes are `b`. -/
theorem lastBlock_memset (little : Bool) {b : Bytes} {count : Nat} (hb : info.data.take count = b)
    (hroom : info.data.length = 64) (hcount : count ≤ 64) :
    (lastBlock little
      (if 64 - 8 < count then (takeBlock little (info.memset count (64 - count))).memset 0 (64 - 8)
      else info.memset count (64 - 8 - count))).digest =
      if 64 - 8 < count then
        transform (transform info.digest (b ++ List.replicate (64 - count) 0))
          (List.replicate 56 0 ++ packInt info.countHi.toNat ++ packInt info.countLo.toNat)
      else transform info.digest (b ++ List.replicate (56 - count) 0 ++ packInt info.countHi.toNat ++
        packInt info.countLo.toNat) := by
  have hlen : b.length = count := by
    rw [← hb, List.length_take]
    omega
  split
  · next hlong =>
    have hblock : (info.memset count (64 - count)).data = b ++ List.replicate (64 - count) 0 := by
      rw [memset_data hb, List.drop_eq_nil_of_le (by omega), List.append_nil]
    have hsize : (takeBlock little (info.memset count (64 - count))).data.length = 64 := by
      show (maybeByteReverse little (info.memset count (64 - count)).data).length = 64
      rw [length_maybeByteReverse, hblock, List.length_append, List.length_replicate]
      omega
    rw [lastBlock_digest little (memset_data List.take_zero _) List.length_replicate]
    · show transform (takeBlock little (info.memset count (64 - count))).digest _ = _
      rw [takeBlock_digest, hblock]
      rfl
    · rw [List.length_drop, hsize]
  · next hshort =>
    rw [lastBlock_digest little (memset_data hb _)]
    · rfl
    · rw [List.length_append, List.length_replicate]
      omega
    · rw [List.length_drop, hroom]
      omega

theorem sha1Final_spec (little : Bool) (h : Kept l info) (hcount : Counted l.length info) :
    sha1Final little info = sha1 l := by
  have hlt := h.lt
  have hamount := hcount.amount.trans h.amount.symm
  have hmod : l.length % 64 = (rest 64 l).length := (length_rest 64 l).symm
  obtain ⟨hhi, hlo⟩ := hcount.packInt_eq
  have hput : (overwrite info.amount [0x80] info.data).take (info.amount + 1) = rest 64 l ++ [0x80] := by
    have hle : info.amount ≤ info.data.length := by
      rw [h.room]
      omega
    have htake := @take_overwrite info.amount [0x80] info.data hle
    rwa [h.data] at htake
  have hroom : (overwrite info.amount [0x80] info.data).length = 64 := by
    rw [length_overwrite, h.room]
    rw [h.room]
    exact hlt
  rw [sha1_eq, ← h.digest, state_padding _ (h.amount ▸ hlt) hmod, ← h.amount, ← hhi, ← hlo]
  unfold sha1Final
  simp only [hamount]
  exact congrArg digestOf (lastBlock_memset little (show ({ info with
    data := overwrite info.amount [0x80] info.data } : Ctx).data.take (info.amount + 1) = _ from hput) hroom hlt)

end

/-! ## A text in pieces -/

/-- The context after some pieces. -/
def sha1Updates (little : Bool) (info : Ctx) (pieces : List Bytes) : Ctx := pieces.foldl (sha1Update little) info

theorem sha1Updates_spec (little : Bool) {pieces : List Bytes} (hpieces : ∀ piece ∈ pieces, piece.length < 2 ^ 32)
    {l : Bytes} {info : Ctx} (h : Kept l info) (hcount : Counted l.length info) :
    Kept (l ++ pieces.flatten) (sha1Updates little info pieces) ∧
      Counted (l ++ pieces.flatten).length (sha1Updates little info pieces) := by
  induction pieces generalizing l info with
  | nil =>
    rw [List.flatten_nil, List.append_nil]
    exact ⟨h, hcount⟩
  | cons piece pieces ih =>
    obtain ⟨hkept, hcounted⟩ := sha1Update_spec little h hcount (hpieces piece List.mem_cons_self)
    rw [List.flatten_cons, ← List.append_assoc]
    exact ih (fun p hp => hpieces p (List.mem_cons_of_mem _ hp)) hkept hcounted

/-- A text in pieces of any length has the digest of the whole, on either machine and whatever was in the
memory of the context. -/
theorem sha1Final_updates (little : Bool) {data : Bytes} (hdata : data.length = 64) {pieces : List Bytes}
    (hpieces : ∀ piece ∈ pieces, piece.length < 2 ^ 32) :
    sha1Final little (sha1Updates little (sha1Init data) pieces) = sha1 pieces.flatten := by
  obtain ⟨hkept, hcount⟩ := sha1Updates_spec little hpieces (l := [])
    (⟨rfl, hdata, rfl, rfl⟩ : Kept [] (sha1Init data)) rfl
  exact sha1Final_spec little hkept hcount

/-- Two pieces, the first of which is not a block. -/
theorem sha1Final_updates_two :
    sha1Final true (sha1Updates true (sha1Init (List.replicate 64 7)) [[0x61], [0x62, 0x63]]) =
      sha1 [0x61, 0x62, 0x63] :=
  sha1Final_updates true rfl (by
    intro piece hpiece
    rcases List.mem_pair.1 hpiece with rfl | rfl
    · decide
    · decide)

end RdfStore.Sha1
