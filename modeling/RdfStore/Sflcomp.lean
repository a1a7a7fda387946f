import RdfStore.Lib.ByteMem
import RdfStore.Lib.RunLength

/-!
# The codec of the index tables (`sflcomp.c`, `rdfstore_compress.c`)

`compress_nulls` cuts the bytes into runs (two zero bytes or more, four equal ones
or more) and strings of up to 127 other bytes.  The length of a long run is stored
in two bytes, so 65536 is stored as 0.

    expandNulls (compressNulls b n) = some (takeBytes n b)
      ↔ no byte comes 65536 times in a row in the first `n` bytes of `b`     (defaultCodec_lossless_iff)
-/

namespace RdfStore

open ByteMem RunLength

/-! ## `compress_nulls` -/

/-- What `compress_nulls` has in hand; `header` is where the length of the open string goes. -/
structure Nulls where
  src : Buf
  srcScan : Nat
  dst : Bytes
  header : Option Nat
  length : Nat

/-- `while (src [run_end] == cur_byte) run_end++;` -/
def runEnd (src : Buf) (curByte : UInt8) : Nat → Nat → Nat
  | 0, i => i
  | fuel + 1, i => if src i = curByte then runEnd src curByte fuel (i + 1) else i

/-- `*header = (byte) length;`, if there is an open string. -/
def Nulls.close (s : Nulls) : Nulls :=
  match s.header with
  | some h => { s with dst := s.dst.set h s.length.toUInt8, header := none }
  | none => s

/-- The bytes of a run. -/
def nullsRun (curByte : UInt8) (length : Nat) : Bytes :=
  if curByte = 0 then
    if length < 128 then [(length ||| 0x80).toUInt8]
    else if length < 256 then [0x81, length.toUInt8]
    else [0x80, (length &&& 0xff).toUInt8, (length >>> 8).toUInt8]
  else if length < 256 then [0x00, length.toUInt8, curByte]
  else [0x00, 0x00, (length &&& 0xff).toUInt8, (length >>> 8).toUInt8, curByte]

/-- A new unpacked string is started if necessary. -/
def Nulls.openString (s : Nulls) : Nulls :=
  match s.header with
  | some _ => s
  | none => { s with dst := s.dst ++ [0], header := some s.dst.length, length := 0 }

/-- A byte of an unpacked string. -/
def Nulls.putByte (s : Nulls) (curByte : UInt8) : Nulls :=
  let s := s.openString
  let s := { s with dst := s.dst ++ [curByte], length := s.length + 1 }
  if s.length = 127 then s.close else s

/-- A pass of the loop. -/
def Nulls.pass (srcSize : Nat) (s : Nulls) : Nulls :=
  let curByte := s.src s.srcScan
  let s := { s with srcScan := s.srcScan + 1 }
  if curByte = s.src s.srcScan ∧ s.srcScan < srcSize then
    let s := { s with src := poke s.src srcSize (if curByte = 0 then 1 else 0) }
    let e := runEnd s.src curByte (srcSize - s.srcScan) s.srcScan
    if 2 < e - s.srcScan ∨ curByte = 0 then
      let s := { s.close with length := e - s.srcScan + 1, srcScan := e }
      { s with dst := s.dst ++ nullsRun curByte s.length }
    else s.putByte curByte
  else s.putByte curByte

def compressNullsLoop (srcSize : Nat) : Nat → Nulls → Nulls
  | 0, s => s
  | fuel + 1, s => if s.srcScan < srcSize then compressNullsLoop srcSize fuel (s.pass srcSize) else s

/-- `compress_nulls`; the byte behind the source is written to. -/
def compressNulls (src : Buf) (srcSize : Nat) : Bytes :=
  (compressNullsLoop srcSize srcSize ⟨src, 0, [], none, 0⟩).close.dst

/-! ## `expand_nulls` -/

/-- Behind `case 0x00` and a length of 0: the length is in two bytes. -/
def expandLongBytes : Bytes → Option (Bytes × Bytes)
  | lo :: hi :: curByte :: src => some (List.replicate (lo.toNat + hi.toNat <<< 8) curByte, src)
  | _ => none

def expandShortBytes (length : Nat) : Bytes → Option (Bytes × Bytes)
  | curByte :: src => some (List.replicate length curByte, src)
  | _ => none

/-- `case 0x00`: a run of bytes that are not zero. -/
def expandBytes : Bytes → Option (Bytes × Bytes)
  | length :: src => if length = 0 then expandLongBytes src else expandShortBytes length.toNat src
  | _ => none

/-- `case 0x80`: a run of zero bytes, its length in two bytes. -/
def expandLongZeros : Bytes → Option (Bytes × Bytes)
  | lo :: hi :: src => some (List.replicate (lo.toNat + hi.toNat <<< 8) 0, src)
  | _ => none

/-- `case 0x81`: a run of zero bytes, its length in one byte. -/
def expandZeros : Bytes → Option (Bytes × Bytes)
  | length :: src => some (List.replicate length.toNat 0, src)
  | _ => none

/-- A pass of the loop: what it writes and the bytes that are left; `none` is a block that ends too early. -/
def expandNullsPass : Bytes → Option (Bytes × Bytes)
  | [] => none
  | curByte :: src =>
    if 0 < curByte ∧ curByte < 128 then
      if curByte.toNat ≤ src.length then some (src.take curByte.toNat, src.drop curByte.toNat) else none
    else if curByte = 0x00 then expandBytes src
    else if curByte = 0x80 then expandLongZeros src
    else if curByte = 0x81 then expandZeros src
    else some (List.replicate (curByte.toNat &&& 127) 0, src)

def expandNullsLoop : Nat → Bytes → Option Bytes
  | _, [] => some []
  | 0, _ :: _ => none
  | fuel + 1, src => do
    let (out, src) ← expandNullsPass src
    let rest ← expandNullsLoop fuel src
    some (out ++ rest)

def expandNulls (src : Bytes) : Option Bytes := expandNullsLoop src.length src

/-! ## `rdfstore_compress_init` -/

/-- `RDFSTORE_MAXRECORDS_BYTES_SIZE`: one bit for each of `RDFSTORE_MAXRECORDS` statements. -/
def rdfstoreMaxrecordsBytesSize : Nat := 2097152 / 8

/-- `rdfstore_compression_types` -/
inductive CompressionType
  | none
  | nulls
  | bits
  | block
  | rle
  | fraenkel
  | original
  | default
  deriving DecidableEq

/-- The value of the enumeration. -/
def CompressionType.ofInt : Int → Option CompressionType
  | 1 => some .none
  | 2 => some .nulls
  | 3 => some .bits
  | 4 => some .block
  | 5 => some .rle
  | 6 => some .fraenkel
  | 7 => some .original
  | 8 => some .default
  | _ => Option.none

/-- `func_encode` and `func_decode`; an encoder may write behind its source. -/
structure CoderPair where
  encode : Buf → Nat → Bytes
  decode : Bytes → Option Bytes

/-- `rdfstore_compress_init`, where `others` are the pairs of the other types and `override` is what
`RDFSTORE_COMPRESSION` in the environment reads as (0 if it is not set). -/
def rdfstoreCompressInit (others : CompressionType → CoderPair) (override : Int) (type : CompressionType) :
    Option CoderPair :=
  let type := if type = .default ∧ override ≠ 0 then CompressionType.ofInt override else some type
  match type with
  | Option.none => Option.none
  | some .none => some ⟨fun src n => takeBytes n src, some⟩
  | some .default | some .nulls => some ⟨compressNulls, expandNulls⟩
  | some type => some (others type)

/-! ## Tokens of the codec -/

/-- `compress_nulls` writes so many equal bytes as a run. -/
def isNullsRun (c : UInt8) (n : Nat) : Bool := 2 ≤ n ∧ (c = 0 ∨ 4 ≤ n)

def nullsTokens (lit l : Bytes) : List (Token UInt8) := tokens isNullsRun 127 lit l

/-- How a token is written. -/
def nullsBytes : Token UInt8 → Bytes
  | .lit l => l.length.toUInt8 :: l
  | .run c n => nullsRun c n

/-- What a token is read as. -/
def nullsRead : Token UInt8 → Bytes
  | .lit l => l
  | .run c n => List.replicate (if n < 256 then n else n % 2 ^ 16) c

theorem isNullsRun_iff {c : UInt8} {n : Nat} : isNullsRun c n = true ↔ 2 ≤ n ∧ (c = 0 ∨ 4 ≤ n) := by
  simp [isNullsRun]

/-! ## `compress_nulls` writes the tokens -/

theorem drop_takeBytes (b : Buf) {n i : Nat} (h : i < n) :
    (takeBytes n b).drop i = b i :: (takeBytes n b).drop (i + 1) := by
  rw [List.drop_eq_getElem_cons (by rw [length_takeBytes]; exact h)]
  simp [takeBytes]

theorem drop_takeBytes_of_ge (b : Buf) {n i : Nat} (h : n ≤ i) : (takeBytes n b).drop i = [] :=
  List.drop_eq_nil_of_le (by rw [length_takeBytes]; exact h)

theorem runEnd_eq (b : Buf) (c : UInt8) {n i fuel : Nat} (h : i + fuel = n) :
    runEnd b c fuel i = i + leading c ((takeBytes n b).drop i) := by
  induction fuel generalizing i with
  | zero =>
    rw [drop_takeBytes_of_ge b (by omega)]
    rfl
  | succ fuel ih =>
    rw [drop_takeBytes b (by omega), runEnd]
    split
    · next heq =>
      rw [ih (by omega), heq, leading_cons_self]
      omega
    · next hne =>
      rw [leading_cons_of_ne hne]
      rfl

theorem takeBytes_poke (b : Buf) (n : Nat) (c : UInt8) : takeBytes n (poke b n c) = takeBytes n b := by
  refine List.map_congr_left fun i hi => poke_of_ne ?_
  exact (List.mem_range.1 hi).ne

/-- `out` is written, and `lit` is the open string. -/
structure Nulls.Writes (n : Nat) (l out lit : Bytes) (s : Nulls) : Prop where
  src : takeBytes n s.src = l
  room : lit.length < 127
  shut : lit = [] → s.header = none ∧ s.dst = out
  opened : lit ≠ [] → s.header = some out.length ∧ s.length = lit.length ∧ ∃ x, s.dst = out ++ x :: lit

section

variable {n : Nat} {l out lit : Bytes} {s : Nulls}

theorem Nulls.Writes.close (h : s.Writes n l out lit) :
    s.close.src = s.src ∧ s.close.srcScan = s.srcScan ∧ s.close.header = none ∧
      s.close.dst = out ++ (RunLength.close lit).flatMap nullsBytes := by
  by_cases hlit : lit = []
  · obtain ⟨hheader, hdst⟩ := h.shut hlit
    subst hlit
    unfold Nulls.close
    rw [hheader]
    exact ⟨rfl, rfl, hheader, hdst.trans (List.append_nil _).symm⟩
  · obtain ⟨hheader, hlength, x, hdst⟩ := h.opened hlit
    unfold Nulls.close
    rw [hheader]
    refine ⟨rfl, rfl, rfl, ?_⟩
    show s.dst.set out.length s.length.toUInt8 = _
    rw [hdst, hlength, List.set_append_right _ _ (Nat.le_refl _), Nat.sub_self]
    cases lit with
    | nil => exact absurd rfl hlit
    | cons c lit => simp [RunLength.close, nullsBytes]

theorem Nulls.Writes.openString (h : s.Writes n l out lit) :
    s.openString.src = s.src ∧ s.openString.srcScan = s.srcScan ∧ s.openString.header = some out.length ∧
      s.openString.length = lit.length ∧ ∃ x, s.openString.dst = out ++ x :: lit := by
  by_cases hlit : lit = []
  · obtain ⟨hheader, hdst⟩ := h.shut hlit
    subst hlit
    unfold Nulls.openString
    rw [hheader]
    exact ⟨rfl, rfl, congrArg (fun d : Bytes => some d.length) hdst, rfl, 0, congrArg (· ++ [0]) hdst⟩
  · obtain ⟨hheader, hlength, x, hdst⟩ := h.opened hlit
    unfold Nulls.openString
    rw [hheader]
    exact ⟨rfl, rfl, hheader, hlength, x, hdst⟩

/-- A byte that is no run joins the open string, which is closed when it is full. -/
theorem Nulls.Writes.putByte (h : s.Writes n l out lit) (c : UInt8) :
    (s.putByte c).srcScan = s.srcScan ∧
      if lit.length + 1 = 127 then (s.putByte c).Writes n l (out ++ nullsBytes (.lit (lit ++ [c]))) []
      else (s.putByte c).Writes n l out (lit ++ [c]) := by
  obtain ⟨hsrc, hscan, hheader, hlength, x, hdst⟩ := h.openString
  have hput : (s.openString.dst ++ [c]) = out ++ x :: (lit ++ [c]) := by
    rw [hdst, List.append_assoc, List.cons_append]
  unfold Nulls.putByte
  simp only [hlength]
  split
  · next hfull =>
    simp only [Nulls.close, hheader]
    refine ⟨hscan, hsrc.symm ▸ h.src, by decide, fun _ => ⟨rfl, ?_⟩, fun hne => absurd rfl hne⟩
    rw [hput, List.set_append_right _ _ (Nat.le_refl _), Nat.sub_self]
    simp [nullsBytes, hfull]
  · next hroom =>
    have hlen : (lit ++ [c]).length = lit.length + 1 := by simp
    refine ⟨hscan, hsrc.symm ▸ h.src, ?_, fun hnil => by simp at hnil, fun _ => ⟨hheader, hlen.symm, x, hput⟩⟩
    have := h.room
    omega

/-- A pass writes the token that the list starts with, or takes its first byte into the open string. -/
theorem Nulls.Writes.pass (h : s.Writes n l out lit) (hscan : s.srcScan < n) :
    ∃ out' lit', (s.pass n).Writes n l out' lit' ∧ s.srcScan < (s.pass n).srcScan ∧
      out' ++ (nullsTokens lit' (l.drop (s.pass n).srcScan)).flatMap nullsBytes =
        out ++ (nullsTokens lit (l.drop s.srcScan)).flatMap nullsBytes := by
  have hdrop : l.drop s.srcScan = s.src s.srcScan :: l.drop (s.srcScan + 1) := by
    rw [← h.src]
    exact drop_takeBytes s.src hscan
  generalize hc : s.src s.srcScan = c at hdrop
  rw [hdrop]
  -- a second equal byte is a leading run of the rest
  have hnext : (c = s.src (s.srcScan + 1) ∧ s.srcScan + 1 < n) ↔ 1 ≤ leading c (l.drop (s.srcScan + 1)) := by
    rw [← h.src]
    by_cases hin : s.srcScan + 1 < n
    · rw [drop_takeBytes s.src hin]
      by_cases heq : c = s.src (s.srcScan + 1)
      · rw [← heq, leading_cons_self]
        exact iff_of_true ⟨rfl, hin⟩ (Nat.le_add_left 1 _)
      · rw [leading_cons_of_ne (Ne.symm heq)]
        exact iff_of_false (fun hc => heq hc.1) (by decide)
    · rw [drop_takeBytes_of_ge s.src (by omega)]
      exact iff_of_false (fun hc => hin hc.2) (by simp [leading])
  have hliteral : ∀ s' : Nulls, s'.Writes n l out lit → s'.srcScan = s.srcScan + 1 →
      isNullsRun c (leading c (l.drop (s.srcScan + 1)) + 1) = false →
      ∃ out' lit', (s'.putByte c).Writes n l out' lit' ∧ s.srcScan < (s'.putByte c).srcScan ∧
        out' ++ (nullsTokens lit' (l.drop (s'.putByte c).srcScan)).flatMap nullsBytes =
          out ++ (nullsTokens lit (c :: l.drop (s.srcScan + 1))).flatMap nullsBytes := by
    intro s' hs' hscan' hno
    obtain ⟨hput, hcases⟩ := hs'.putByte c
    rw [hput, hscan']
    unfold nullsTokens
    split at hcases
    · next hfull =>
      refine ⟨_, _, hcases, Nat.lt_succ_self _, ?_⟩
      rw [tokens_full hno hfull, List.flatMap_cons, List.append_assoc]
    · next hroom =>
      refine ⟨_, _, hcases, Nat.lt_succ_self _, ?_⟩
      rw [tokens_lit hno hroom]
  unfold Nulls.pass
  simp only [hc]
  split
  · next htwo =>
    have hpoke : ({ s with srcScan := s.srcScan + 1, src := poke s.src n (if c = 0 then 1 else 0) } : Nulls).Writes
        n l out lit := ⟨(takeBytes_poke s.src n _).trans h.src, h.room, h.shut, h.opened⟩
    have hend : runEnd (poke s.src n (if c = 0 then 1 else 0)) c (n - (s.srcScan + 1)) (s.srcScan + 1) =
        s.srcScan + 1 + leading c (l.drop (s.srcScan + 1)) := by
      rw [runEnd_eq _ c (show s.srcScan + 1 + (n - (s.srcScan + 1)) = n by omega), takeBytes_poke, h.src]
    have htwo := hnext.1 htwo
    simp only [hend, Nat.add_sub_cancel_left]
    split
    · next hrun =>
      have hasked : isNullsRun c (leading c (l.drop (s.srcScan + 1)) + 1) = true := by
        rw [isNullsRun_iff]
        exact ⟨by omega, hrun.symm.imp id fun hlong => by omega⟩
      obtain ⟨hsrc, -, hheader, hdst⟩ := hpoke.close
      refine ⟨out ++ (RunLength.close lit).flatMap nullsBytes ++
        nullsRun c (leading c (l.drop (s.srcScan + 1)) + 1), [], ⟨?_, by decide, fun _ => ⟨hheader, ?_⟩,
        fun hne => absurd rfl hne⟩, ?_, ?_⟩
      · show takeBytes n (Nulls.close _).src = l
        rw [hsrc]
        exact hpoke.src
      · show (Nulls.close _).dst ++ _ = _
        rw [hdst]
      · show s.srcScan < s.srcScan + 1 + _
        omega
      · show _ ++ (nullsTokens [] (l.drop (s.srcScan + 1 + leading c (l.drop (s.srcScan + 1))))).flatMap nullsBytes = _
        unfold nullsTokens
        rw [tokens_run hasked, List.flatMap_append, List.flatMap_cons, List.drop_drop]
        simp only [List.append_assoc, nullsBytes]
    · next hno =>
      refine hliteral _ hpoke rfl ?_
      rw [Bool.eq_false_iff, ne_eq, isNullsRun_iff]
      rintro ⟨-, hzero | hlong⟩
      · exact hno (Or.inr hzero)
      · exact hno (Or.inl (by omega))
  · next hone =>
    refine hliteral { s with srcScan := s.srcScan + 1 } ⟨h.src, h.room, h.shut, h.opened⟩ rfl ?_
    rw [Bool.eq_false_iff, ne_eq, isNullsRun_iff]
    rintro ⟨htwo, -⟩
    exact hone (hnext.2 (by omega))

theorem compressNullsLoop_eq {fuel : Nat} (h : s.Writes n l out lit) (hscan : n ≤ s.srcScan + fuel) :
    (compressNullsLoop n fuel s).close.dst = out ++ (nullsTokens lit (l.drop s.srcScan)).flatMap nullsBytes := by
  have hdone : n ≤ s.srcScan →
      s.close.dst = out ++ (nullsTokens lit (l.drop s.srcScan)).flatMap nullsBytes := by
    intro hle
    rw [h.close.2.2.2, ← h.src, drop_takeBytes_of_ge s.src hle, nullsTokens, tokens_nil]
  induction fuel generalizing s out lit with
  | zero => exact hdone hscan
  | succ fuel ih =>
    unfold compressNullsLoop
    split
    · next hlt =>
      obtain ⟨out', lit', hpass, hmore, hsame⟩ := h.pass hlt
      rw [← hsame]
      refine ih hpass (by omega) fun hle => ?_
      rw [hpass.close.2.2.2, ← hpass.src, drop_takeBytes_of_ge _ hle, nullsTokens, tokens_nil]
    · next hge => exact hdone (by omega)

end

theorem compressNulls_eq (src : Buf) (n : Nat) :
    compressNulls src n = (nullsTokens [] (takeBytes n src)).flatMap nullsBytes := by
  have hstart : (⟨src, 0, [], none, 0⟩ : Nulls).Writes n (takeBytes n src) [] [] :=
    ⟨rfl, by decide, fun _ => ⟨rfl, rfl⟩, fun hne => absurd rfl hne⟩
  exact compressNullsLoop_eq hstart (Nat.le_add_left n 0 |>.trans (by simp))

/-! ## `expand_nulls` reads the tokens -/

/-- A token that `compress_nulls` writes. -/
def NullsToken : Token UInt8 → Prop
  | .lit l => 0 < l.length ∧ l.length ≤ 127
  | .run c n => isNullsRun c n = true

theorem nullsToken_of_mem {l : Bytes} {t : Token UInt8} (h : t ∈ nullsTokens [] l) : NullsToken t := by
  cases t with
  | lit l' => exact length_lit_of_mem _ _ (by decide) h
  | run c n => exact isRun_of_mem _ _ h

/-- A length in two bytes. -/
theorem toNat_lo_hi (n : Nat) : (n &&& 0xff).toUInt8.toNat + (n >>> 8).toUInt8.toNat <<< 8 = n % 2 ^ 16 := by
  rw [show (0xff : Nat) = 2 ^ 8 - 1 from rfl, Nat.and_two_pow_sub_one_eq_mod, Nat.shiftRight_eq_div_pow,
    Nat.shiftLeft_eq, toNat_toUInt8, toNat_toUInt8]
  omega

theorem expandNullsPass_lit {l : Bytes} (hpos : 0 < l.length) (hmax : l.length ≤ 127) (rest : Bytes) :
    expandNullsPass (l.length.toUInt8 :: (l ++ rest)) = some (l, rest) := by
  have hlen : l.length.toUInt8.toNat = l.length := toNat_toUInt8_of_lt (by omega)
  have hrange : 0 < l.length.toUInt8 ∧ l.length.toUInt8 < 128 := by
    rw [UInt8.lt_iff_toNat_lt, UInt8.lt_iff_toNat_lt, hlen]
    exact ⟨hpos, Nat.lt_succ_of_le hmax⟩
  rw [expandNullsPass, if_pos hrange, hlen, if_pos (by simp), List.take_left, List.drop_left]

/-- Up to 127 zero bytes are one byte, with the high bit set. -/
theorem expandNullsPass_fewZeros {n : Nat} (hn : 2 ≤ n) (hshort : n < 128) (rest : Bytes) :
    expandNullsPass ((n ||| 0x80).toUInt8 :: rest) = some (List.replicate n 0, rest) := by
  have hor : n ||| 0x80 = n + 128 := by
    rw [Nat.or_comm, show (0x80 : Nat) = 2 ^ 7 * 1 from rfl, ← Nat.two_pow_add_eq_or_of_lt hshort]
    omega
  have hnat : (n + 128).toUInt8.toNat = n + 128 := toNat_toUInt8_of_lt (by omega)
  have hne : ∀ c : UInt8, c.toNat < 130 → (n + 128).toUInt8 ≠ c := by
    intro c hc heq
    rw [← heq, hnat] at hc
    omega
  have hbig : ¬ (0 < (n + 128).toUInt8 ∧ (n + 128).toUInt8 < 128) := by
    rw [UInt8.lt_iff_toNat_lt, UInt8.lt_iff_toNat_lt, hnat, show (128 : UInt8).toNat = 128 from rfl]
    omega
  have hmask : (n + 128) &&& 127 = n := by
    rw [show (127 : Nat) = 2 ^ 7 - 1 from rfl, Nat.and_two_pow_sub_one_eq_mod]
    omega
  rw [hor, expandNullsPass, if_neg hbig, if_neg (hne 0 (by decide)), if_neg (hne 0x80 (by decide)),
    if_neg (hne 0x81 (by decide)), hnat, hmask]

theorem expandNullsPass_zeros {n : Nat} (hbyte : n < 256) (rest : Bytes) :
    expandNullsPass (0x81 :: n.toUInt8 :: rest) = some (List.replicate n 0, rest) := by
  rw [expandNullsPass, if_neg (by decide), if_neg (by decide), if_neg (by decide), if_pos rfl, expandZeros,
    toNat_toUInt8_of_lt hbyte]

theorem expandNullsPass_longZeros (n : Nat) (rest : Bytes) :
    expandNullsPass (0x80 :: (n &&& 0xff).toUInt8 :: (n >>> 8).toUInt8 :: rest) =
      some (List.replicate (n % 2 ^ 16) 0, rest) := by
  rw [expandNullsPass, if_neg (by decide), if_neg (by decide), if_pos rfl, expandLongZeros, toNat_lo_hi]

theorem expandNullsPass_bytes {n : Nat} (hpos : 0 < n) (hbyte : n < 256) (c : UInt8) (rest : Bytes) :
    expandNullsPass (0x00 :: n.toUInt8 :: c :: rest) = some (List.replicate n c, rest) := by
  have hnat := toNat_toUInt8_of_lt hbyte
  have hne : n.toUInt8 ≠ 0 := by
    intro heq
    rw [heq, show (0 : UInt8).toNat = 0 from rfl] at hnat
    omega
  rw [expandNullsPass, if_neg (by decide), if_pos rfl, expandBytes, if_neg hne, hnat, expandShortBytes]

theorem expandNullsPass_longBytes (n : Nat) (c : UInt8) (rest : Bytes) :
    expandNullsPass (0x00 :: 0x00 :: (n &&& 0xff).toUInt8 :: (n >>> 8).toUInt8 :: c :: rest) =
      some (List.replicate (n % 2 ^ 16) c, rest) := by
  rw [expandNullsPass, if_neg (by decide), if_pos rfl, expandBytes, if_pos rfl, expandLongBytes, toNat_lo_hi]

theorem expandNullsPass_token {t : Token UInt8} (h : NullsToken t) (rest : Bytes) :
    expandNullsPass (nullsBytes t ++ rest) = some (nullsRead t, rest) := by
  cases t with
  | lit l => exact expandNullsPass_lit h.1 h.2 rest
  | run c n =>
    obtain ⟨htwo, hrun⟩ := isNullsRun_iff.1 h
    show expandNullsPass (nullsRun c n ++ rest) = some (List.replicate (if n < 256 then n else n % 2 ^ 16) c, rest)
    unfold nullsRun
    by_cases hbyte : n < 256
    · have hread : (if n < 256 then n else n % 2 ^ 16) = n := if_pos hbyte
      rw [hread]
      by_cases hc : c = 0
      · subst hc
        rw [if_pos rfl]
        by_cases hshort : n < 128
        · rw [if_pos hshort]
          exact expandNullsPass_fewZeros htwo hshort rest
        · rw [if_neg hshort, if_pos hbyte]
          exact expandNullsPass_zeros hbyte rest
      · rw [if_neg hc, if_pos hbyte]
        exact expandNullsPass_bytes (by omega) hbyte c rest
    · have hread : (if n < 256 then n else n % 2 ^ 16) = n % 2 ^ 16 := if_neg hbyte
      rw [hread]
      by_cases hc : c = 0
      · subst hc
        rw [if_pos rfl, if_neg (by omega), if_neg hbyte]
        exact expandNullsPass_longZeros n rest
      · rw [if_neg hc, if_neg hbyte]
        exact expandNullsPass_longBytes n c rest

theorem nullsBytes_ne_nil (t : Token UInt8) : nullsBytes t ≠ [] := by
  cases t with
  | lit l => exact List.cons_ne_nil _ _
  | run c n =>
    show nullsRun c n ≠ []
    unfold nullsRun
    split_ifs <;> exact List.cons_ne_nil _ _

theorem expandNullsLoop_tokens {ts : List (Token UInt8)} (h : ∀ t ∈ ts, NullsToken t) {fuel : Nat}
    (hfuel : (ts.flatMap nullsBytes).length ≤ fuel) :
    expandNullsLoop fuel (ts.flatMap nullsBytes) = some (ts.flatMap nullsRead) := by
  induction ts generalizing fuel with
  | nil => cases fuel <;> rfl
  | cons t ts ih =>
    have hpass := expandNullsPass_token (h t List.mem_cons_self) (ts.flatMap nullsBytes)
    rw [List.flatMap_cons, List.length_append] at hfuel
    rw [List.flatMap_cons]
    cases ht : nullsBytes t with
    | nil => exact absurd ht (nullsBytes_ne_nil t)
    | cons c bytes =>
      rw [ht] at hpass hfuel
      rw [List.length_cons] at hfuel
      cases fuel with
      | zero => omega
      | succ fuel =>
        show (expandNullsPass (c :: bytes ++ ts.flatMap nullsBytes)).bind _ = _
        rw [hpass]
        show (expandNullsLoop fuel (ts.flatMap nullsBytes)).bind _ = _
        rw [ih (fun t ht => h t (List.mem_cons_of_mem _ ht)) (by omega)]
        rfl

theorem expandNulls_compressNulls (src : Buf) (n : Nat) : expandNulls (compressNulls src n) =
    some ((nullsTokens [] (takeBytes n src)).flatMap nullsRead) := by
  rw [compressNulls_eq]
  exact expandNullsLoop_tokens (fun t ht => nullsToken_of_mem ht) (Nat.le_refl _)

/-! ## What gets lost -/

theorem length_nullsRead_le (t : Token UInt8) : (nullsRead t).length ≤ t.content.length := by
  cases t with
  | lit l => exact Nat.le_refl _
  | run c n =>
    show (List.replicate _ c).length ≤ (List.replicate n c).length
    rw [List.length_replicate, List.length_replicate]
    split
    · exact Nat.le_refl _
    · exact Nat.mod_le _ _

theorem nullsRead_eq_iff (t : Token UInt8) : nullsRead t = t.content ↔ ∀ c n, t = .run c n → n < 2 ^ 16 := by
  cases t with
  | lit l => exact iff_of_true rfl nofun
  | run c n =>
    have hlen : nullsRead (.run c n) = Token.content (.run c n) ↔ (if n < 256 then n else n % 2 ^ 16) = n := by
      refine ⟨fun h => ?_, fun h => congrArg (List.replicate · c) h⟩
      have := congrArg List.length h
      rwa [nullsRead, Token.content, List.length_replicate, List.length_replicate] at this
    rw [hlen]
    constructor
    · intro h c' n' heq
      cases heq
      split at h
      · omega
      · rw [← h]
        exact Nat.mod_lt _ (by decide)
    · intro h
      have := h c n rfl
      split
      · rfl
      · exact Nat.mod_eq_of_lt this

/-- The default codec of the index tables gives back what it was given exactly when no byte comes 65536
times in a row. -/
theorem defaultCodec_lossless_iff (others : CompressionType → CoderPair) (src : Buf) (n : Nat) :
    ∃ codec, rdfstoreCompressInit others 0 .default = some codec ∧
      (codec.decode (codec.encode src n) = some (takeBytes n src) ↔
        ∀ c, ¬ List.replicate (2 ^ 16) c <:+: takeBytes n src) := by
  refine ⟨⟨compressNulls, expandNulls⟩, rfl, ?_⟩
  show expandNulls (compressNulls src n) = _ ↔ _
  have hrun : ∀ c m, 2 ^ 16 ≤ m → isNullsRun c m = true := fun c m hm =>
    isNullsRun_iff.2 ⟨by omega, Or.inr (by omega)⟩
  have hcontent : (nullsTokens [] (takeBytes n src)).flatMap Token.content = takeBytes n src :=
    contents_tokens _ _ [] _
  rw [expandNulls_compressNulls, Option.some_inj]
  calc (nullsTokens [] (takeBytes n src)).flatMap nullsRead = takeBytes n src
      ↔ ∀ t ∈ nullsTokens [] (takeBytes n src), nullsRead t = t.content := by
        conv_lhs => rhs; rw [← hcontent]
        exact flatMap_eq_iff fun t _ => length_nullsRead_le t
    _ ↔ ¬ ∃ c m, 2 ^ 16 ≤ m ∧ Token.run c m ∈ nullsTokens [] (takeBytes n src) := by
        simp only [nullsRead_eq_iff]
        push Not
        constructor
        · intro h c m hm hmem
          exact absurd (h _ hmem c m rfl) (Nat.not_lt.2 hm)
        · rintro h t ht c m rfl
          exact Nat.lt_of_not_le fun hm => h c m hm ht
    _ ↔ ∀ c, ¬ List.replicate (2 ^ 16) c <:+: takeBytes n src := by
        rw [nullsTokens, run_mem_tokens_iff _ _ (by decide) hrun, not_exists]

/-- 65536 zero bytes are read as none. -/
theorem expandNulls_long_zeros : 65536 ≤ rdfstoreMaxrecordsBytesSize ∧
    (takeBytes 65536 fun _ => 0).length = 65536 ∧ expandNulls (compressNulls (fun _ => 0) 65536) = some [] := by
  refine ⟨by decide, length_takeBytes _ _, ?_⟩
  have hzeros : takeBytes 65536 (fun _ => 0) = List.replicate (65535 + 1) 0 := by
    unfold takeBytes
    rw [List.map_const', List.length_range]
  have hrun : isNullsRun 0 (65535 + 1) = true := by decide
  rw [expandNulls_compressNulls, hzeros, nullsTokens, tokens_replicate hrun]
  rfl

end RdfStore
