import RdfStore.Sflcomp

/-!
# The run-length codecs (`sflcomp.c`)

`compress_rle` and `compress_bits` cut the bytes into runs and strings as
`compress_nulls` does, each with its own codes.  A run of a byte with one bit is
written byte after byte by `compress_bits`, every other run of 65536 or more
loses its high bits.

    expandRle (compressRle b n) = some (takeBytes n b)
      ↔ no byte comes 65536 times in a row                                  (expandRle_compressRle_iff)
    expandBits (compressBits b n) = some (takeBytes n b)
      ↔ no byte but those with one bit comes 65536 times in a row           (expandBits_compressBits_iff)
-/

namespace RdfStore

open ByteMem RunLength

/-! ## What the two have in common -/

/-- The runs of a codec, the longest string, what its header has more than the length, and how a run is
written. -/
structure RunCode where
  isRun : UInt8 → Nat → Bool
  cap : Nat
  shift : UInt8
  run : UInt8 → Nat → Bytes

/-- What an encoder has in hand; `header` is where the length of the open string goes. -/
structure Packer where
  src : Buf
  srcScan : Nat
  dst : Bytes
  header : Option Nat
  length : Nat

/-- The open string is closed, if there is one. -/
def Packer.close (k : RunCode) (s : Packer) : Packer :=
  match s.header with
  | some h => { s with dst := s.dst.set h (s.length.toUInt8 + k.shift), header := none }
  | none => s

/-- A new unpacked string is started if necessary. -/
def Packer.openString (s : Packer) : Packer :=
  match s.header with
  | some _ => s
  | none => { s with dst := s.dst ++ [0], header := some s.dst.length, length := 0 }

/-- A byte of an unpacked string. -/
def Packer.putByte (k : RunCode) (s : Packer) (curByte : UInt8) : Packer :=
  let s := s.openString
  let s := { s with dst := s.dst ++ [curByte], length := s.length + 1 }
  if s.length = k.cap then s.close k else s

/-- The bytes from `srcScan - 1` on are a run, which ends at a sentinel if not before. -/
def Packer.putRun (k : RunCode) (srcSize : Nat) (s : Packer) (curByte sentinel : UInt8) : Packer :=
  let s := { s with src := poke s.src srcSize sentinel }
  let e := runEnd s.src curByte (srcSize - s.srcScan) s.srcScan
  let s := { s.close k with length := e - s.srcScan + 1, srcScan := e }
  { s with dst := s.dst ++ k.run curByte s.length }

def packLoop (pass : Packer → Packer) (srcSize : Nat) : Nat → Packer → Packer
  | 0, s => s
  | fuel + 1, s => if s.srcScan < srcSize then packLoop pass srcSize fuel (pass s) else s

/-! ## `compress_rle` and `expand_rle` -/

def rleRun (curByte : UInt8) (length : Nat) : Bytes :=
  if length < 256 ∧ curByte = 0 then [0x00, length.toUInt8]
  else if length < 256 ∧ curByte = 0x20 then [0x82, length.toUInt8]
  else if length < 128 then [length.toUInt8 ||| 0x80, curByte]
  else if length < 256 then [0x80, length.toUInt8, curByte]
  else [0x81, (length &&& 0xff).toUInt8, (length >>> 8).toUInt8, curByte]

def rleCode : RunCode where
  isRun _ n := 3 ≤ n
  cap := 127
  shift := 0
  run := rleRun

/-- A pass of the loop: three identical bytes are the start of a run. -/
def Packer.passRle (srcSize : Nat) (s : Packer) : Packer :=
  let curByte := s.src s.srcScan
  let s := { s with srcScan := s.srcScan + 1 }
  if curByte = s.src s.srcScan ∧ curByte = s.src (s.srcScan + 1) ∧ s.srcScan + 1 < srcSize then
    s.putRun rleCode srcSize curByte (if curByte = 0 then 1 else 0)
  else s.putByte rleCode curByte

/-- `compress_rle`; the byte behind the source is written to. -/
def compressRle (src : Buf) (srcSize : Nat) : Bytes :=
  ((packLoop (Packer.passRle srcSize) srcSize srcSize ⟨src, 0, [], none, 0⟩).close rleCode).dst

/-- A run whose byte is known. -/
def expandRunOf (curByte : UInt8) : Bytes → Option (Bytes × Bytes)
  | length :: src => some (List.replicate length.toNat curByte, src)
  | _ => none

/-- A run with its length in one byte. -/
def expandShortRun : Bytes → Option (Bytes × Bytes)
  | length :: curByte :: src => some (List.replicate length.toNat curByte, src)
  | _ => none

/-- A pass of the loop: what it writes and the bytes that are left; `none` is a block that ends too early. -/
def expandRlePass : Bytes → Option (Bytes × Bytes)
  | [] => none
  | curByte :: src =>
    if 0 < curByte ∧ curByte < 128 then
      if curByte.toNat ≤ src.length then some (src.take curByte.toNat, src.drop curByte.toNat) else none
    else if curByte = 0x00 then expandRunOf 0 src
    else if curByte = 0x82 then expandRunOf 0x20 src
    else if curByte = 0x80 then expandShortRun src
    else if curByte = 0x81 then expandLongBytes src
    else expandShortBytes (curByte.toNat &&& 127) src

/-- `expand_rle` -/
def expandRle (src : Bytes) : Option Bytes := readAll expandRlePass src.length src

/-! ## `compress_bits` and `expand_bits` -/

/-- `single_bits`: the bytes with one bit set. -/
def singleBits : UInt8 → UInt8
  | 1 => 1
  | 2 => 2
  | 4 => 3
  | 8 => 4
  | 16 => 5
  | 32 => 6
  | 64 => 7
  | 128 => 8
  | _ => 0

/-- A run of binary zeroes, of four or more other bytes, or of bytes with one bit, which are written one by one. -/
def bitsRun (curByte : UInt8) (length : Nat) : Bytes :=
  if curByte = 0 then
    if length < 127 then [(length + 1 ||| 0x80).toUInt8]
    else if length < 381 then [0x81, length.toUInt8 - 127]
    else [0x80, (length &&& 0xff).toUInt8, (length >>> 8).toUInt8]
  else if singleBits curByte ≠ 0 then List.replicate length (singleBits curByte - 1)
  else if length < 256 then [0x81, 0xFE, length.toUInt8, curByte]
  else [0x81, 0xFF, (length &&& 0xff).toUInt8, (length >>> 8).toUInt8, curByte]

def bitsCode : RunCode where
  isRun c n := c = 0 ∨ singleBits c ≠ 0 ∨ 4 ≤ n
  cap := 120
  shift := 7
  run := bitsRun

/-- A pass of the loop. -/
def Packer.passBits (srcSize : Nat) (s : Packer) : Packer :=
  let curByte := s.src s.srcScan
  let s := { s with srcScan := s.srcScan + 1 }
  if curByte = 0 then s.putRun bitsCode srcSize curByte 0xff
  else if singleBits curByte ≠ 0 then
    { s with dst := s.dst ++ [singleBits curByte - 1] }.close bitsCode
  -- `src_size - 2` is a word, so that a source of one byte has no end here
  else if curByte = s.src s.srcScan ∧ curByte = s.src (s.srcScan + 1) ∧ curByte = s.src (s.srcScan + 2) ∧
      s.srcScan < (srcSize + (2 ^ 32 - 2)) % 2 ^ 32 then
    s.putRun bitsCode srcSize curByte 0
  else s.putByte bitsCode curByte

/-- `compress_bits`; the byte behind the source is written to. -/
def compressBits (src : Buf) (srcSize : Nat) : Bytes :=
  ((packLoop (Packer.passBits srcSize) srcSize srcSize ⟨src, 0, [], none, 0⟩).close bitsCode).dst

/-- `case 0x81` -/
def expandBitsLong : Bytes → Option (Bytes × Bytes)
  | length :: src =>
    if length = 0xFE then expandShortRun src
    else if length = 0xFF then expandLongBytes src
    else some (List.replicate (length.toNat + 127) 0, src)
  | _ => none

def expandBitsPass : Bytes → Option (Bytes × Bytes)
  | [] => none
  | curByte :: src =>
    if curByte < 8 then some ([1 <<< curByte], src)
    else if curByte < 128 then
      if curByte.toNat - 7 ≤ src.length then some (src.take (curByte.toNat - 7), src.drop (curByte.toNat - 7)) else none
    else if curByte = 0x80 then expandLongZeros src
    else if curByte = 0x81 then expandBitsLong src
    else some (List.replicate (curByte.toNat - 1 &&& 127) 0, src)

/-- `expand_bits` -/
def expandBits (src : Bytes) : Option Bytes := readAll expandBitsPass src.length src

/-! ## Tokens -/

def RunCode.tokens (k : RunCode) (lit l : Bytes) : List (Token UInt8) := RunLength.tokens k.isRun k.cap lit l

/-- How a token is written. -/
def RunCode.bytes (k : RunCode) : Token UInt8 → Bytes
  | .lit l => (l.length.toUInt8 + k.shift) :: l
  | .run c n => k.run c n

/-- `out` is written, and `lit` is the open string. -/
structure Packer.Writes (k : RunCode) (n : Nat) (l out lit : Bytes) (s : Packer) : Prop where
  src : takeBytes n s.src = l
  room : lit.length < k.cap
  shut : lit = [] → s.header = none ∧ s.dst = out
  opened : lit ≠ [] → s.header = some out.length ∧ s.length = lit.length ∧ ∃ x, s.dst = out ++ x :: lit

/-- What is written and what is still to be written are together what they were, from a later position on. -/
def Packer.Advances (k : RunCode) (n : Nat) (l out lit : Bytes) (s s' : Packer) : Prop :=
  ∃ out' lit', s'.Writes k n l out' lit' ∧ s.srcScan < s'.srcScan ∧
    out' ++ (k.tokens lit' (l.drop s'.srcScan)).flatMap k.bytes = out ++ (k.tokens lit (l.drop s.srcScan)).flatMap k.bytes

section

variable {k : RunCode} {n : Nat} {l out lit : Bytes} {s : Packer}

theorem Packer.Writes.close (h : s.Writes k n l out lit) :
    (s.close k).src = s.src ∧ (s.close k).srcScan = s.srcScan ∧ (s.close k).header = none ∧
      (s.close k).dst = out ++ (RunLength.close lit).flatMap k.bytes := by
  by_cases hlit : lit = []
  · obtain ⟨hheader, hdst⟩ := h.shut hlit
    subst hlit
    unfold Packer.close
    rw [hheader]
    exact ⟨rfl, rfl, hheader, hdst.trans (List.append_nil _).symm⟩
  · obtain ⟨hheader, hlength, x, hdst⟩ := h.opened hlit
    unfold Packer.close
    rw [hheader]
    refine ⟨rfl, rfl, rfl, ?_⟩
    show s.dst.set out.length (s.length.toUInt8 + k.shift) = _
    rw [hdst, hlength, List.set_append_right _ _ (Nat.le_refl _), Nat.sub_self]
    cases lit with
    | nil => exact absurd rfl hlit
    | cons c lit => simp [RunLength.close, RunCode.bytes]

theorem Packer.Writes.openString (h : s.Writes k n l out lit) :
    s.openString.src = s.src ∧ s.openString.srcScan = s.srcScan ∧ s.openString.header = some out.length ∧
      s.openString.length = lit.length ∧ ∃ x, s.openString.dst = out ++ x :: lit := by
  by_cases hlit : lit = []
  · obtain ⟨hheader, hdst⟩ := h.shut hlit
    subst hlit
    unfold Packer.openString
    rw [hheader]
    exact ⟨rfl, rfl, congrArg (fun d : Bytes => some d.length) hdst, rfl, 0, congrArg (· ++ [0]) hdst⟩
  · obtain ⟨hheader, hlength, x, hdst⟩ := h.opened hlit
    unfold Packer.openString
    rw [hheader]
    exact ⟨rfl, rfl, hheader, hlength, x, hdst⟩

/-- A byte that is no run joins the open string, which is closed when it is full. -/
theorem Packer.Writes.putByte (h : s.Writes k n l out lit) (c : UInt8) :
    (s.putByte k c).srcScan = s.srcScan ∧
      if lit.length + 1 = k.cap then (s.putByte k c).Writes k n l (out ++ k.bytes (.lit (lit ++ [c]))) []
      else (s.putByte k c).Writes k n l out (lit ++ [c]) := by
  obtain ⟨hsrc, hscan, hheader, hlength, x, hdst⟩ := h.openString
  have hroom := h.room
  have hlen : (lit ++ [c]).length = lit.length + 1 := by simp
  have hput : (s.openString.dst ++ [c]) = out ++ x :: (lit ++ [c]) := by
    rw [hdst, List.append_assoc, List.cons_append]
  unfold Packer.putByte
  simp only [hlength]
  split
  · next hfull =>
    simp only [Packer.close, hheader]
    refine ⟨hscan, hsrc.symm ▸ h.src, Nat.zero_lt_of_lt hroom, fun _ => ⟨rfl, ?_⟩, fun hne => absurd rfl hne⟩
    rw [hput, List.set_append_right _ _ (Nat.le_refl _), Nat.sub_self, List.set_cons_zero, RunCode.bytes, hlen]
  · next hroom' =>
    refine ⟨hscan, hsrc.symm ▸ h.src, by omega, fun hnil => by simp at hnil, fun _ => ⟨hheader, hlen.symm, x, hput⟩⟩

theorem drop_of_lt (hsrc : takeBytes n s.src = l) (hscan : s.srcScan < n) :
    l.drop s.srcScan = s.src s.srcScan :: l.drop (s.srcScan + 1) := by
  rw [← hsrc]
  exact drop_takeBytes s.src hscan

theorem Packer.Writes.literal (h : s.Writes k n l out lit) (hscan : s.srcScan < n)
    (hno : k.isRun (s.src s.srcScan) (leading (s.src s.srcScan) (l.drop (s.srcScan + 1)) + 1) = false) :
    s.Advances k n l out lit ({ s with srcScan := s.srcScan + 1 }.putByte k (s.src s.srcScan)) := by
  have hs : ({ s with srcScan := s.srcScan + 1 } : Packer).Writes k n l out lit := ⟨h.src, h.room, h.shut, h.opened⟩
  obtain ⟨hput, hcases⟩ := hs.putByte (s.src s.srcScan)
  unfold Packer.Advances
  rw [hput, drop_of_lt h.src hscan]
  unfold RunCode.tokens
  split at hcases
  · next hfull =>
    refine ⟨_, _, hcases, Nat.lt_succ_self _, ?_⟩
    rw [tokens_full hno hfull, List.flatMap_cons, List.append_assoc]
  · next hroom =>
    refine ⟨_, _, hcases, Nat.lt_succ_self _, ?_⟩
    rw [tokens_lit hno hroom]

theorem Packer.Writes.run (h : s.Writes k n l out lit) (hscan : s.srcScan < n) (sentinel : UInt8)
    (hrun : k.isRun (s.src s.srcScan) (leading (s.src s.srcScan) (l.drop (s.srcScan + 1)) + 1) = true) :
    s.Advances k n l out lit ({ s with srcScan := s.srcScan + 1 }.putRun k n (s.src s.srcScan) sentinel) := by
  have hpoke : ({ s with srcScan := s.srcScan + 1, src := poke s.src n sentinel } : Packer).Writes k n l out lit :=
    ⟨(takeBytes_poke s.src n _).trans h.src, h.room, h.shut, h.opened⟩
  have hend : runEnd (poke s.src n sentinel) (s.src s.srcScan) (n - (s.srcScan + 1)) (s.srcScan + 1) =
      s.srcScan + 1 + leading (s.src s.srcScan) (l.drop (s.srcScan + 1)) := by
    rw [runEnd_eq _ _ (show s.srcScan + 1 + (n - (s.srcScan + 1)) = n by omega), takeBytes_poke, h.src]
  unfold Packer.putRun
  simp only [hend, Nat.add_sub_cancel_left]
  generalize hc : s.src s.srcScan = c at *
  obtain ⟨hsrc, -, hheader, hdst⟩ := hpoke.close
  refine ⟨out ++ (RunLength.close lit).flatMap k.bytes ++ k.run c (leading c (l.drop (s.srcScan + 1)) + 1), [],
    ⟨?_, Nat.zero_lt_of_lt h.room, fun _ => ⟨hheader, ?_⟩, fun hne => absurd rfl hne⟩, ?_, ?_⟩
  · show takeBytes n (Packer.close k _).src = l
    rw [hsrc]
    exact hpoke.src
  · show (Packer.close k _).dst ++ _ = _
    rw [hdst]
  · show s.srcScan < s.srcScan + 1 + _
    omega
  · show _ ++ (k.tokens [] (l.drop (s.srcScan + 1 + leading c (l.drop (s.srcScan + 1))))).flatMap k.bytes = _
    rw [drop_of_lt h.src hscan, hc]
    unfold RunCode.tokens
    rw [tokens_run hrun, List.flatMap_append, List.flatMap_cons, List.drop_drop]
    simp only [List.append_assoc, RunCode.bytes]

/-- Passes that advance write the tokens. -/
theorem packLoop_eq {pass : Packer → Packer} (hpass : ∀ {s : Packer} {out lit : Bytes}, s.Writes k n l out lit →
      s.srcScan < n → s.Advances k n l out lit (pass s)) {fuel : Nat} (h : s.Writes k n l out lit)
    (hscan : n ≤ s.srcScan + fuel) :
    ((packLoop pass n fuel s).close k).dst = out ++ (k.tokens lit (l.drop s.srcScan)).flatMap k.bytes := by
  have hdone : ∀ {s : Packer} {out lit : Bytes}, s.Writes k n l out lit → n ≤ s.srcScan →
      (s.close k).dst = out ++ (k.tokens lit (l.drop s.srcScan)).flatMap k.bytes := by
    intro s out lit h hle
    rw [h.close.2.2.2, ← h.src, drop_takeBytes_of_ge s.src hle, RunCode.tokens, tokens_nil]
  induction fuel generalizing s out lit with
  | zero => exact hdone h hscan
  | succ fuel ih =>
    unfold packLoop
    split
    · next hlt =>
      obtain ⟨out', lit', hnext, hmore, hsame⟩ := hpass h hlt
      rw [← hsame]
      exact ih hnext (by omega)
    · next hge => exact hdone h (by omega)

theorem packer_start (hcap : 0 < k.cap) (src : Buf) (n : Nat) :
    (⟨src, 0, [], none, 0⟩ : Packer).Writes k n (takeBytes n src) [] [] :=
  ⟨rfl, hcap, fun _ => ⟨rfl, rfl⟩, fun hne => absurd rfl hne⟩

end

/-- So many equal bytes follow. -/
theorem le_leading_iff (b : Buf) (c : UInt8) {n i j : Nat} (hj : 0 < j) :
    j ≤ leading c ((takeBytes n b).drop i) ↔ i + j ≤ n ∧ ∀ m < j, b (i + m) = c := by
  induction j, hj using Nat.le_induction generalizing i with
  | base =>
    by_cases hin : i < n
    · rw [drop_takeBytes b hin]
      by_cases heq : b i = c
      · rw [heq, leading_cons_self]
        refine iff_of_true (Nat.le_add_left 1 _) ⟨hin, fun m hm => ?_⟩
        rwa [Nat.lt_one_iff.1 hm]
      · rw [leading_cons_of_ne heq]
        exact iff_of_false (by decide) fun h => heq (h.2 0 Nat.one_pos)
    · rw [drop_takeBytes_of_ge b (by omega)]
      exact iff_of_false (by simp [leading]) fun h => hin h.1
  | succ j hj ih =>
    by_cases hin : i < n
    · rw [drop_takeBytes b hin]
      by_cases heq : b i = c
      · rw [heq, leading_cons_self, Nat.add_le_add_iff_right, ih]
        constructor
        · rintro ⟨hroom, hall⟩
          refine ⟨by omega, fun m hm => ?_⟩
          cases m with
          | zero => exact heq
          | succ m =>
            have hm := hall m (by omega)
            rwa [show i + 1 + m = i + (m + 1) by omega] at hm
        · rintro ⟨hroom, hall⟩
          refine ⟨by omega, fun m hm => ?_⟩
          have hm := hall (m + 1) (by omega)
          rwa [show i + (m + 1) = i + 1 + m by omega] at hm
      · rw [leading_cons_of_ne heq]
        exact iff_of_false (by omega) fun h => heq (h.2 0 (Nat.succ_pos j))
    · rw [drop_takeBytes_of_ge b (by omega)]
      exact iff_of_false (by simp [leading]) fun h => hin (by omega)

/-! ## What gets lost -/

/-- What a token is read as, where the runs of some bytes have no length of two bytes. -/
def runRead (whole : UInt8 → Bool) : Token UInt8 → Bytes
  | .lit l => l
  | .run c n => List.replicate (if whole c then n else n % 2 ^ 16) c

theorem length_runRead_le (whole : UInt8 → Bool) (t : Token UInt8) :
    (runRead whole t).length ≤ t.content.length := by
  cases t with
  | lit l => exact Nat.le_refl _
  | run c n =>
    show (List.replicate _ c).length ≤ (List.replicate n c).length
    rw [List.length_replicate, List.length_replicate]
    split
    · exact Nat.le_refl _
    · exact Nat.mod_le _ _

theorem runRead_eq_iff (whole : UInt8 → Bool) (t : Token UInt8) :
    runRead whole t = t.content ↔ ∀ c n, t = .run c n → whole c = false → n < 2 ^ 16 := by
  cases t with
  | lit l => exact iff_of_true rfl nofun
  | run c n =>
    have hlen : runRead whole (.run c n) = Token.content (.run c n) ↔ (if whole c then n else n % 2 ^ 16) = n := by
      refine ⟨fun h => ?_, fun h => congrArg (List.replicate · c) h⟩
      have := congrArg List.length h
      rwa [runRead, Token.content, List.length_replicate, List.length_replicate] at this
    rw [hlen]
    constructor
    · intro h c' n' heq hc
      cases heq
      rw [if_neg (by simp [hc])] at h
      rw [← h]
      exact Nat.mod_lt _ (by decide)
    · intro h
      split
      · rfl
      · next hc => exact Nat.mod_eq_of_lt (h c n rfl (by simpa using hc))

/-- The tokens are read as what they are exactly when no run is too long. -/
theorem flatMap_runRead_iff {k : RunCode} {whole : UInt8 → Bool}
    (hrun : ∀ c, whole c = false → ∀ m, 2 ^ 16 ≤ m → k.isRun c m = true) (l : Bytes) :
    (k.tokens [] l).flatMap (runRead whole) = l ↔ ∀ c, whole c = false → ¬ List.replicate (2 ^ 16) c <:+: l := by
  have hcontent : (k.tokens [] l).flatMap Token.content = l := contents_tokens _ _ [] _
  calc (k.tokens [] l).flatMap (runRead whole) = l
      ↔ ∀ t ∈ k.tokens [] l, runRead whole t = t.content := by
        conv_lhs => rhs; rw [← hcontent]
        exact flatMap_eq_iff fun t _ => length_runRead_le whole t
    _ ↔ ∀ c m, whole c = false → 2 ^ 16 ≤ m → Token.run c m ∉ k.tokens [] l := by
        simp only [runRead_eq_iff]
        constructor
        · intro h c m hc hm hmem
          exact absurd (h _ hmem c m rfl hc) (Nat.not_lt.2 hm)
        · rintro h t ht c m rfl hc
          exact Nat.lt_of_not_le fun hm => h c m hc hm ht
    _ ↔ ∀ c, whole c = false → ¬ List.replicate (2 ^ 16) c <:+: l := by
        constructor
        · intro h c hc hin
          obtain ⟨m, hm, hmem⟩ := exists_run_tokens k.isRun k.cap (by decide) (hrun c hc) hin
          exact h c m hc hm hmem
        · intro h c m hc hm hmem
          exact h c hc (replicate_infix_of_mem k.isRun k.cap hm hmem)

/-! ## `compress_rle` -/

section

variable {n : Nat} {l out lit : Bytes} {s : Packer}

theorem Packer.Writes.passRle (h : s.Writes rleCode n l out lit) (hscan : s.srcScan < n) :
    s.Advances rleCode n l out lit (s.passRle n) := by
  have hthree : (s.src s.srcScan = s.src (s.srcScan + 1) ∧ s.src s.srcScan = s.src (s.srcScan + 1 + 1) ∧
      s.srcScan + 1 + 1 < n) ↔ 2 ≤ leading (s.src s.srcScan) (l.drop (s.srcScan + 1)) := by
    rw [← h.src, le_leading_iff _ _ (by decide)]
    constructor
    · rintro ⟨h1, h2, hin⟩
      refine ⟨hin, fun m hm => ?_⟩
      obtain rfl | rfl : m = 0 ∨ m = 1 := by omega
      · exact h1.symm
      · exact h2.symm
    · rintro ⟨hin, hall⟩
      exact ⟨(hall 0 (by decide)).symm, (hall 1 (by decide)).symm, hin⟩
  have hasked : rleCode.isRun (s.src s.srcScan) (leading (s.src s.srcScan) (l.drop (s.srcScan + 1)) + 1) = true ↔
      2 ≤ leading (s.src s.srcScan) (l.drop (s.srcScan + 1)) := by
    simp [rleCode]
  unfold Packer.passRle
  simp only [hthree]
  split
  · next hrun => exact h.run hscan _ (hasked.2 hrun)
  · next hno => exact h.literal hscan (Bool.eq_false_iff.2 fun hc => hno (hasked.1 hc))

end

theorem compressRle_eq (src : Buf) (n : Nat) :
    compressRle src n = (rleCode.tokens [] (takeBytes n src)).flatMap rleCode.bytes :=
  packLoop_eq (fun h hscan => h.passRle hscan) (packer_start (by decide) src n) (Nat.le_add_left n 0)

theorem tokens_fit {k : RunCode} (hcap : 0 < k.cap) {l : Bytes} {t : Token UInt8} (h : t ∈ k.tokens [] l) :
    match t with
    | .lit l => 0 < l.length ∧ l.length ≤ k.cap
    | .run c n => k.isRun c n = true := by
  cases t with
  | lit l' => exact length_lit_of_mem _ _ hcap h
  | run c n => exact isRun_of_mem _ _ h

theorem expandRlePass_lit {l : Bytes} (hpos : 0 < l.length) (hmax : l.length ≤ 127) (rest : Bytes) :
    expandRlePass (l.length.toUInt8 :: (l ++ rest)) = some (l, rest) := by
  have hlen : l.length.toUInt8.toNat = l.length := toNat_toUInt8_of_lt (by omega)
  have hrange : 0 < l.length.toUInt8 ∧ l.length.toUInt8 < 128 := by
    rw [UInt8.lt_iff_toNat_lt, UInt8.lt_iff_toNat_lt, hlen]
    exact ⟨hpos, Nat.lt_succ_of_le hmax⟩
  rw [expandRlePass, if_pos hrange, hlen, if_pos (by simp), List.take_left, List.drop_left]

/-- Up to 127 bytes have their length in seven bits of the first one. -/
theorem expandRlePass_few {n : Nat} (hn : 3 ≤ n) (hshort : n < 128) (c : UInt8) (rest : Bytes) :
    expandRlePass ((n.toUInt8 ||| 0x80) :: c :: rest) = some (List.replicate n c, rest) := by
  have hor : (n.toUInt8 ||| 0x80).toNat = n + 128 := by
    rw [UInt8.toNat_or, toNat_toUInt8_of_lt (by omega), Nat.or_comm, show (0x80 : UInt8).toNat = 2 ^ 7 * 1 from rfl,
      ← Nat.two_pow_add_eq_or_of_lt hshort]
    omega
  have hne : ∀ c : UInt8, c.toNat < 131 → n.toUInt8 ||| 0x80 ≠ c := by
    intro c hc heq
    rw [← heq, hor] at hc
    omega
  have hbig : ¬ (0 < n.toUInt8 ||| 0x80 ∧ n.toUInt8 ||| 0x80 < 128) := by
    rw [UInt8.lt_iff_toNat_lt, UInt8.lt_iff_toNat_lt, hor, show (128 : UInt8).toNat = 128 from rfl]
    omega
  have hmask : (n + 128) &&& 127 = n := by
    rw [show (127 : Nat) = 2 ^ 7 - 1 from rfl, Nat.and_two_pow_sub_one_eq_mod]
    omega
  rw [expandRlePass, if_neg hbig, if_neg (hne 0 (by decide)), if_neg (hne 0x82 (by decide)),
    if_neg (hne 0x80 (by decide)), if_neg (hne 0x81 (by decide)), hor, hmask, expandShortBytes]

theorem expandRlePass_run {n : Nat} (hn : 3 ≤ n) (c : UInt8) (rest : Bytes) :
    expandRlePass (rleRun c n ++ rest) = some (List.replicate (n % 2 ^ 16) c, rest) := by
  have hread : n < 256 → n % 2 ^ 16 = n := fun hbyte => Nat.mod_eq_of_lt (by omega)
  unfold rleRun
  split
  · next hzero =>
    obtain ⟨hbyte, rfl⟩ := hzero
    rw [hread hbyte, List.cons_append, List.cons_append, List.nil_append, expandRlePass, if_neg (by decide), if_pos rfl,
      expandRunOf, toNat_toUInt8_of_lt hbyte]
  · split
    · next hspace =>
      obtain ⟨hbyte, rfl⟩ := hspace
      rw [hread hbyte, List.cons_append, List.cons_append, List.nil_append, expandRlePass, if_neg (by decide),
        if_neg (by decide), if_pos rfl, expandRunOf, toNat_toUInt8_of_lt hbyte]
    · split
      · next hshort =>
        rw [hread (by omega)]
        exact expandRlePass_few hn hshort c rest
      · split
        · next hbyte =>
          rw [hread hbyte, List.cons_append, List.cons_append, List.cons_append, List.nil_append, expandRlePass,
            if_neg (by decide), if_neg (by decide), if_neg (by decide), if_pos rfl, expandShortRun,
            toNat_toUInt8_of_lt hbyte]
        · show expandRlePass (0x81 :: _ :: _ :: c :: rest) = _
          rw [expandRlePass, if_neg (by decide), if_neg (by decide), if_neg (by decide), if_neg (by decide), if_pos rfl,
            expandLongBytes, toNat_lo_hi]

theorem rleRun_ne_nil (c : UInt8) (n : Nat) : rleRun c n ≠ [] := by
  unfold rleRun
  split_ifs <;> exact List.cons_ne_nil _ _

theorem decodes_rle {l : Bytes} {t : Token UInt8} (h : t ∈ rleCode.tokens [] l) :
    Decodes expandRlePass (rleCode.bytes t) (runRead (fun _ => false) t) := by
  have hfit := tokens_fit (by decide) h
  cases t with
  | lit l =>
    refine decodes_pass (List.cons_ne_nil _ _) fun rest => ?_
    show expandRlePass ((l.length.toUInt8 + 0) :: (l ++ rest)) = _
    rw [UInt8.add_zero]
    exact expandRlePass_lit hfit.1 hfit.2 rest
  | run c n =>
    have hn : 3 ≤ n := of_decide_eq_true hfit
    exact decodes_pass (rleRun_ne_nil c n) fun rest => expandRlePass_run hn c rest

/-- `expand_rle` gives back what `compress_rle` was given exactly when no byte comes 65536 times in a row. -/
theorem expandRle_compressRle_iff (src : Buf) (n : Nat) :
    expandRle (compressRle src n) = some (takeBytes n src) ↔ ∀ c, ¬ List.replicate (2 ^ 16) c <:+: takeBytes n src := by
  have hread : expandRle (compressRle src n) =
      some ((rleCode.tokens [] (takeBytes n src)).flatMap (runRead fun _ => false)) := by
    rw [compressRle_eq]
    exact (decodes_flatMap fun t ht => decodes_rle ht).readAll_eq
  have hrun : ∀ c : UInt8, (fun _ : UInt8 => false) c = false → ∀ m, 2 ^ 16 ≤ m → rleCode.isRun c m = true :=
    fun c _ m hm => decide_eq_true (show 3 ≤ m by omega)
  rw [hread, Option.some_inj, flatMap_runRead_iff hrun]
  exact forall_congr' fun c => forall_prop_of_true rfl

/-! ## `compress_bits` -/

theorem isRun_bits {c : UInt8} {n : Nat} : bitsCode.isRun c n = true ↔ c = 0 ∨ singleBits c ≠ 0 ∨ 4 ≤ n := by
  simp [bitsCode]

theorem bitsRun_single {c : UInt8} (hc : singleBits c ≠ 0) (n : Nat) :
    bitsRun c n = List.replicate n (singleBits c - 1) := by
  have hzero : c ≠ 0 := by
    rintro rfl
    exact hc rfl
  unfold bitsRun
  rw [if_neg hzero, if_pos hc]

/-- A byte with one bit is written by itself, wherever it stands in its run. -/
theorem bytes_tokens_single {c : UInt8} (hc : singleBits c ≠ 0) (lit rest : Bytes) :
    (bitsCode.tokens lit (c :: rest)).flatMap bitsCode.bytes =
      (RunLength.close lit).flatMap bitsCode.bytes ++
        (singleBits c - 1) :: (bitsCode.tokens [] rest).flatMap bitsCode.bytes := by
  have hrun : ∀ m, bitsCode.isRun c m = true := fun m => isRun_bits.2 (Or.inr (Or.inl hc))
  have hbytes : ∀ m, bitsCode.bytes (.run c m) = List.replicate m (singleBits c - 1) := bitsRun_single hc
  unfold RunCode.tokens
  rw [tokens_run (hrun _), List.flatMap_append, List.flatMap_cons, hbytes, List.replicate_succ, List.cons_append]
  refine congrArg (_ ++ _ :: ·) ?_
  cases rest with
  | nil => rfl
  | cons a rest =>
    by_cases ha : a = c
    · subst ha
      rw [leading_cons_self, List.drop_succ_cons, tokens_run (hrun _), RunLength.close, List.nil_append,
        List.flatMap_cons, hbytes]
    · rw [leading_cons_of_ne ha]
      rfl

section

variable {n : Nat} {l out lit : Bytes} {s : Packer}

/-- What is written behind the open string stays there when it is closed. -/
theorem Packer.Writes.close_append {k : RunCode} (h : s.Writes k n l out lit) (bytes : Bytes) :
    ({ s with dst := s.dst ++ bytes }.close k).dst = (s.close k).dst ++ bytes := by
  by_cases hlit : lit = []
  · obtain ⟨hheader, -⟩ := h.shut hlit
    unfold Packer.close
    simp only [hheader]
  · obtain ⟨hheader, -, x, hdst⟩ := h.opened hlit
    unfold Packer.close
    simp only [hheader]
    refine List.set_append_left _ _ ?_
    rw [hdst, List.length_append, List.length_cons]
    omega

theorem Packer.Writes.single (h : s.Writes bitsCode n l out lit) (hscan : s.srcScan < n)
    (hc : singleBits (s.src s.srcScan) ≠ 0) : s.Advances bitsCode n l out lit
      ({ s with srcScan := s.srcScan + 1, dst := s.dst ++ [singleBits (s.src s.srcScan) - 1] }.close bitsCode) := by
  have hs : ({ s with srcScan := s.srcScan + 1 } : Packer).Writes bitsCode n l out lit :=
    ⟨h.src, h.room, h.shut, h.opened⟩
  have hdst := (hs.close_append [singleBits (s.src s.srcScan) - 1]).trans (congrArg (· ++ _) hs.close.2.2.2)
  have hsame : ∀ t : Packer, (t.close bitsCode).src = t.src ∧ (t.close bitsCode).srcScan = t.srcScan ∧
      (t.close bitsCode).header = none := by
    intro t
    unfold Packer.close
    split
    · exact ⟨rfl, rfl, rfl⟩
    · next hheader => exact ⟨rfl, rfl, hheader⟩
  obtain ⟨hsrc, hscan', hheader⟩ :=
    hsame { s with srcScan := s.srcScan + 1, dst := s.dst ++ [singleBits (s.src s.srcScan) - 1] }
  refine ⟨out ++ (RunLength.close lit).flatMap bitsCode.bytes ++ [singleBits (s.src s.srcScan) - 1], [],
    ⟨?_, by decide, fun _ => ⟨hheader, hdst⟩, fun hne => absurd rfl hne⟩, ?_, ?_⟩
  · rw [hsrc]
    exact h.src
  · rw [hscan']
    exact Nat.lt_succ_self _
  · rw [hscan', drop_of_lt h.src hscan, bytes_tokens_single hc]
    simp only [List.append_assoc, List.cons_append, List.nil_append]

theorem Packer.Writes.passBits (h : s.Writes bitsCode n l out lit) (hn : 2 ≤ n) (hword : n < 2 ^ 32)
    (hscan : s.srcScan < n) : s.Advances bitsCode n l out lit (s.passBits n) := by
  have hend : (n + (2 ^ 32 - 2)) % 2 ^ 32 = n - 2 := by omega
  have hfour : (s.src s.srcScan = s.src (s.srcScan + 1) ∧ s.src s.srcScan = s.src (s.srcScan + 1 + 1) ∧
      s.src s.srcScan = s.src (s.srcScan + 1 + 2) ∧ s.srcScan + 1 < n - 2) ↔
        3 ≤ leading (s.src s.srcScan) (l.drop (s.srcScan + 1)) := by
    rw [← h.src, le_leading_iff _ _ (by decide)]
    constructor
    · rintro ⟨h1, h2, h3, hin⟩
      refine ⟨by omega, fun m hm => ?_⟩
      obtain rfl | rfl | rfl : m = 0 ∨ m = 1 ∨ m = 2 := by omega
      · exact h1.symm
      · exact h2.symm
      · exact h3.symm
    · rintro ⟨hin, hall⟩
      exact ⟨(hall 0 (by decide)).symm, (hall 1 (by decide)).symm, (hall 2 (by decide)).symm, by omega⟩
  unfold Packer.passBits
  simp only [hend, hfour]
  split
  · next hzero => exact h.run hscan _ (isRun_bits.2 (Or.inl hzero))
  · next hzero =>
    split
    · next hc => exact h.single hscan hc
    · next hc =>
      split
      · next hrun => exact h.run hscan _ (isRun_bits.2 (Or.inr (Or.inr (Nat.succ_le_succ hrun))))
      · next hno =>
        refine h.literal hscan (Bool.eq_false_iff.2 fun hasked => ?_)
        rcases isRun_bits.1 hasked with hasked | hasked | hasked
        · exact hzero hasked
        · exact hc hasked
        · exact hno (Nat.le_of_succ_le_succ hasked)

end

theorem compressBits_eq (src : Buf) {n : Nat} (hn : 2 ≤ n) (hword : n < 2 ^ 32) :
    compressBits src n = (bitsCode.tokens [] (takeBytes n src)).flatMap bitsCode.bytes :=
  packLoop_eq (fun h hscan => h.passBits hn hword hscan) (packer_start (by decide) src n) (Nat.le_add_left n 0)

/-! ## `expand_bits` -/

theorem single_bits_code : ∀ c : UInt8, singleBits c ≠ 0 → singleBits c - 1 < 8 ∧ 1 <<< (singleBits c - 1) = c := by
  refine forall_byte ?_
  decide +kernel

theorem decodes_bits_lit {l : Bytes} (hpos : 0 < l.length) (hmax : l.length ≤ 120) :
    Decodes expandBitsPass ((l.length.toUInt8 + 7) :: l) l := by
  refine decodes_pass (List.cons_ne_nil _ _) fun rest => ?_
  have hlen : (l.length.toUInt8 + 7).toNat = l.length + 7 := by
    rw [UInt8.toNat_add, toNat_toUInt8_of_lt (by omega), show (7 : UInt8).toNat = 7 from rfl]
    omega
  rw [List.cons_append, expandBitsPass, if_neg, if_pos, hlen, Nat.add_sub_cancel, if_pos, List.take_left, List.drop_left]
  · rw [List.length_append]
    omega
  · rw [UInt8.lt_iff_toNat_lt, hlen, show (128 : UInt8).toNat = 128 from rfl]
    omega
  · rw [UInt8.lt_iff_toNat_lt, hlen, show (8 : UInt8).toNat = 8 from rfl]
    omega

theorem decodes_bits_single {c : UInt8} (hc : singleBits c ≠ 0) (n : Nat) :
    Decodes expandBitsPass (List.replicate n (singleBits c - 1)) (List.replicate n c) := by
  obtain ⟨hlt, hbit⟩ := single_bits_code c hc
  induction n with
  | zero => exact decodes_nil
  | succ n ih =>
    have hone : Decodes expandBitsPass [singleBits c - 1] [c] := by
      refine decodes_pass (List.cons_ne_nil _ _) fun rest => ?_
      rw [List.cons_append, List.nil_append, expandBitsPass, if_pos hlt, hbit]
    exact hone.append ih

/-- Up to 126 zeroes are one byte, which holds one more than the length. -/
theorem expandBitsPass_few {n : Nat} (hpos : 0 < n) (hshort : n < 127) (rest : Bytes) :
    expandBitsPass ((n + 1 ||| 0x80).toUInt8 :: rest) = some (List.replicate n 0, rest) := by
  have hor : n + 1 ||| 0x80 = n + 129 := by
    rw [Nat.or_comm, show (0x80 : Nat) = 2 ^ 7 * 1 from rfl, ← Nat.two_pow_add_eq_or_of_lt (by omega)]
    omega
  have hnat : (n + 129).toUInt8.toNat = n + 129 := toNat_toUInt8_of_lt (by omega)
  have hne : ∀ c : UInt8, c.toNat < 130 → (n + 129).toUInt8 ≠ c := by
    intro c hc heq
    rw [← heq, hnat] at hc
    omega
  have hbig : ∀ c : UInt8, c.toNat ≤ 128 → ¬ (n + 129).toUInt8 < c := by
    intro c hc
    rw [UInt8.lt_iff_toNat_lt, hnat]
    omega
  have hmask : n + 129 - 1 &&& 127 = n := by
    rw [show (127 : Nat) = 2 ^ 7 - 1 from rfl, Nat.and_two_pow_sub_one_eq_mod]
    omega
  rw [hor, expandBitsPass, if_neg (hbig 8 (by decide)), if_neg (hbig 128 (by decide)), if_neg (hne 0x80 (by decide)),
    if_neg (hne 0x81 (by decide)), hnat, hmask]

theorem expandBitsPass_long (src : Bytes) : expandBitsPass (0x81 :: src) = expandBitsLong src := by
  rw [expandBitsPass, if_neg (by decide), if_neg (by decide), if_neg (by decide), if_pos rfl]

theorem expandBitsPass_zeros {n : Nat} (hpos : 0 < n) (rest : Bytes) :
    expandBitsPass (bitsRun 0 n ++ rest) = some (List.replicate (n % 2 ^ 16) 0, rest) := by
  unfold bitsRun
  rw [if_pos rfl]
  split
  · next hshort =>
    rw [Nat.mod_eq_of_lt (show n < 2 ^ 16 by omega)]
    exact expandBitsPass_few hpos hshort rest
  · split
    · next hlong hmore =>
      have hnat : (n.toUInt8 - 127).toNat = n - 127 := by
        rw [UInt8.toNat_sub, toNat_toUInt8, show (127 : UInt8).toNat = 127 from rfl]
        omega
      have hne : ∀ c : UInt8, 254 ≤ c.toNat → n.toUInt8 - 127 ≠ c := by
        intro c hc heq
        rw [← heq, hnat] at hc
        omega
      rw [List.cons_append, List.cons_append, List.nil_append, expandBitsPass_long, expandBitsLong,
        if_neg (hne 0xFE (by decide)), if_neg (hne 0xFF (by decide)), hnat, Nat.mod_eq_of_lt (show n < 2 ^ 16 by omega),
        Nat.sub_add_cancel (by omega)]
    · show expandBitsPass (0x80 :: _ :: _ :: rest) = _
      rw [expandBitsPass, if_neg (by decide), if_neg (by decide), if_pos rfl, expandLongZeros, toNat_lo_hi]

theorem expandBitsPass_bytes {c : UInt8} (hzero : c ≠ 0) (hc : singleBits c = 0) (n : Nat) (rest : Bytes) :
    expandBitsPass (bitsRun c n ++ rest) = some (List.replicate (n % 2 ^ 16) c, rest) := by
  unfold bitsRun
  rw [if_neg hzero, if_neg (not_not_intro hc)]
  split
  · next hbyte =>
    rw [Nat.mod_eq_of_lt (show n < 2 ^ 16 by omega)]
    show expandBitsPass (0x81 :: 0xFE :: _ :: c :: rest) = _
    rw [expandBitsPass_long, expandBitsLong, if_pos rfl, expandShortRun, toNat_toUInt8_of_lt hbyte]
  · show expandBitsPass (0x81 :: 0xFF :: _ :: _ :: c :: rest) = _
    rw [expandBitsPass_long, expandBitsLong, if_neg (by decide), if_pos rfl, expandLongBytes, toNat_lo_hi]

theorem bitsRun_ne_nil {c : UInt8} (hc : singleBits c = 0) (n : Nat) : bitsRun c n ≠ [] := by
  unfold bitsRun
  rw [if_neg (not_not_intro hc)]
  split_ifs <;> exact List.cons_ne_nil _ _

theorem decodes_bits_run {c : UInt8} {n : Nat} (hpos : 0 < n) :
    Decodes expandBitsPass (bitsRun c n) (runRead (fun c => singleBits c ≠ 0) (.run c n)) := by
  by_cases hc : singleBits c = 0
  · have hread : runRead (fun c => singleBits c ≠ 0) (.run c n) = List.replicate (n % 2 ^ 16) c := by
      simp [runRead, hc]
    rw [hread]
    refine decodes_pass (bitsRun_ne_nil hc n) fun rest => ?_
    by_cases hzero : c = 0
    · subst hzero
      exact expandBitsPass_zeros hpos rest
    · exact expandBitsPass_bytes hzero hc n rest
  · have hread : runRead (fun c => singleBits c ≠ 0) (.run c n) = List.replicate n c := by
      simp [runRead, hc]
    rw [hread, bitsRun_single hc]
    exact decodes_bits_single hc n

theorem decodes_bits {l : Bytes} {t : Token UInt8} (h : t ∈ bitsCode.tokens [] l) :
    Decodes expandBitsPass (bitsCode.bytes t) (runRead (fun c => singleBits c ≠ 0) t) := by
  cases t with
  | lit l =>
    have hfit := tokens_fit (by decide) h
    exact decodes_bits_lit hfit.1 hfit.2
  | run c n => exact decodes_bits_run (run_pos_of_mem _ _ h)

/-- A source of one byte is one item, whatever stands behind it. -/
theorem expandBits_compressBits_one (src : Buf) : expandBits (compressBits src 1) = some (takeBytes 1 src) := by
  show _ = some [src 0]
  have hone : compressBits src 1 = ((Packer.passBits 1 ⟨src, 0, [], none, 0⟩).close bitsCode).dst := rfl
  rw [hone]
  unfold Packer.passBits
  simp only
  split
  · next hzero =>
    rw [hzero]
    show expandBits (bitsRun 0 1) = some [0]
    decide
  · next hzero =>
    split
    · next hc =>
      obtain ⟨hlt, hbit⟩ := single_bits_code (src 0) hc
      show readAll expandBitsPass 1 [singleBits (src 0) - 1] = _
      rw [readAll, expandBitsPass, if_pos hlt, hbit]
      rfl
    · next hc =>
      split
      · show expandBits (bitsRun (src 0) 1) = _
        unfold bitsRun
        rw [if_neg hzero, if_neg hc, if_pos (by decide)]
        rfl
      · rfl

/-- `expand_bits` gives back what `compress_bits` was given exactly when no byte comes 65536 times in a row but
those with one bit. -/
theorem expandBits_compressBits_iff (src : Buf) {n : Nat} (hn : n < 2 ^ 32) :
    expandBits (compressBits src n) = some (takeBytes n src) ↔
      ∀ c, singleBits c = 0 → ¬ List.replicate (2 ^ 16) c <:+: takeBytes n src := by
  have hshort : n < 2 → ∀ c, singleBits c = 0 → ¬ List.replicate (2 ^ 16) c <:+: takeBytes n src := by
    intro hlt c hc hin
    have hle := hin.length_le
    rw [List.length_replicate, length_takeBytes] at hle
    omega
  obtain rfl | rfl | htwo : n = 0 ∨ n = 1 ∨ 2 ≤ n := by omega
  · exact iff_of_true rfl (hshort (by decide))
  · exact iff_of_true (expandBits_compressBits_one src) (hshort (by decide))
  have hread : expandBits (compressBits src n) =
      some ((bitsCode.tokens [] (takeBytes n src)).flatMap (runRead fun c => singleBits c ≠ 0)) := by
    rw [compressBits_eq src htwo hn]
    exact (decodes_flatMap fun t ht => decodes_bits ht).readAll_eq
  have hrun : ∀ c : UInt8, decide (singleBits c ≠ 0) = false → ∀ m, 2 ^ 16 ≤ m → bitsCode.isRun c m = true :=
    fun c _ m hm => isRun_bits.2 (Or.inr (Or.inr (by omega)))
  rw [hread, Option.some_inj, flatMap_runRead_iff hrun]
  exact forall_congr' fun c => imp_congr_left (decide_eq_false_iff_not.trans not_not)

/-- 65536 bytes with the same one bit are kept. -/
theorem expandBits_compressBits_ones :
    expandBits (compressBits (fun _ => 1) 65536) = some (takeBytes 65536 fun _ => 1) := by
  refine (expandBits_compressBits_iff (fun _ => 1) (by decide)).2 fun c hc hin => ?_
  have hmem : c ∈ takeBytes 65536 fun _ => 1 := hin.subset (List.mem_replicate.2 ⟨by decide, rfl⟩)
  obtain ⟨i, -, rfl⟩ := List.mem_map.1 hmem
  exact absurd hc (by decide)

end RdfStore
