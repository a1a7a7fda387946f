import RdfStore.Sflcomp
import RdfStore.Lib.BackReferences
import Mathlib.Data.Nat.Bitwise
import Mathlib.Tactic.Ring

/-!
# The block codec (`sflcomp.c`)

`compress_block` writes literals, runs and copies in groups of up to 16, each
group behind two bytes that say which of its items are literals.  The hash table
only proposes where a copy might be; the bytes are compared.  What does not get
shorter is stored as it is, behind one byte.

    expandBlock (compressBlock src n) = some (takeBytes n src)      (expandBlock_compressBlock)
-/

namespace RdfStore

open ByteMem BackReferences

/-! ## `compress_block` -/

/-- What `compress_block` has in hand; the hash table holds `short`s. -/
structure Block where
  srcIndex : Nat
  dst : Bytes
  headerIndex : Nat
  bit : Nat
  command : UInt32
  hash : Nat → Int

/-- A position kept in a `short`. -/
def toShort (p : Nat) : Int := ((p + 32768) % 65536 : Nat) - 32768

/-- The value as a `word`, of 32 bits. -/
def toWord (i : Int) : Nat := (i % 2 ^ 32).toNat

/-- `for (Size = 1;; Size++)` -/
def runSize (src : Buf) (n i : Nat) : Nat → Nat → Nat
  | 0, size => size
  | fuel + 1, size =>
    if n ≤ i + size ∨ src i ≠ src (i + size) ∨ 0x0fff ≤ size then size else runSize src n i fuel (size + 1)

/-- `for (*size = 0;; (*size)++)` -/
def matchSize (src : Buf) (n ptr : Nat) (pos : Int) : Nat → Nat → Nat
  | 0, size => size
  | fuel + 1, size =>
    if 18 ≤ size ∨ n ≤ ptr + size ∨ src (ptr + size) ≠ src (toWord (pos + size)) then size
    else matchSize src n ptr pos fuel (size + 1)

/-- The hash value of three bytes, which may be behind the source. -/
def hashValue (src : Buf) (ptr : Nat) : Nat :=
  (40543 * ((((src ptr).toNat <<< 4 ^^^ (src (ptr + 1)).toNat) <<< 4) ^^^ (src (ptr + 2)).toNat)) >>> 4 &&& 0xfff

/-- `get_match`: the size of the match and its position, if there is one. -/
def getMatch (src : Buf) (ptr n : Nat) (hash : Nat → Int) : Option (Nat × Int) :=
  let pos := hash (hashValue src ptr)
  if pos ≠ -1 ∧ toWord (ptr - pos) < 4096 then
    let size := matchSize src n ptr pos 18 0
    if 3 ≤ size then some (size, pos) else none
  else none

/-- The two bytes of the header are written. -/
def Block.flush (s : Block) : Block :=
  let dst := s.dst.set s.headerIndex (s.command >>> 8 &&& 0xff).toUInt8
  { s with dst := dst.set (s.headerIndex + 1) (s.command &&& 0xff).toUInt8 }

/-- After 16 items there is a new header. -/
def Block.newHeader (s : Block) : Block :=
  if 15 < s.bit then
    let s := s.flush
    { s with headerIndex := s.dst.length, dst := s.dst ++ [0, 0], bit := 0 }
  else s

/-- An item with its bit. -/
def Block.put (s : Block) (bytes : Bytes) (size : Nat) (flag : UInt32) : Block :=
  { s with dst := s.dst ++ bytes, srcIndex := s.srcIndex + size, command := s.command <<< 1 + flag, bit := s.bit + 1 }

/-- A pass of the loop. -/
def Block.pass (src : Buf) (n : Nat) (s : Block) : Block :=
  let s := s.newHeader
  let size := runSize src n s.srcIndex 0x0fff 1
  if 16 ≤ size then
    s.put [0, ((size - 16) >>> 8 &&& 0xff).toUInt8, (size - 16 &&& 0xff).toUInt8, src s.srcIndex] size 1
  else
    let found := getMatch src s.srcIndex n s.hash
    let s := { s with hash := Function.update s.hash (hashValue src s.srcIndex) (toShort s.srcIndex) }
    match found with
    | some (size, symbolAddress) =>
      let key := toWord (s.srcIndex - symbolAddress) <<< 4 + (size - 3)
      s.put [(key >>> 8 &&& 0xff).toUInt8, (key &&& 0xff).toUInt8] size 1
    | none => s.put [src s.srcIndex] 1 0

def compressBlockLoop (src : Buf) (n : Nat) : Nat → Block → Block
  | 0, s => s
  | fuel + 1, s =>
    if s.srcIndex < n ∧ s.dst.length ≤ n then compressBlockLoop src n fuel (s.pass src n) else s

/-- `compress_block` -/
def compressBlock (src : Buf) (n : Nat) : Bytes :=
  let s := compressBlockLoop src n n ⟨0, [0x40, 0, 0], 1, 0, 0, fun _ => -1⟩
  let s := { s with command := s.command <<< (16 - s.bit).toUInt32 }.flush
  if n < s.dst.length then 0x80 :: takeBytes n src else s.dst

/-! ## `expand_block` -/

/-- What `expand_block` has in hand: the bytes to be read and those written. -/
structure Expander where
  src : Bytes
  out : Bytes
  command : UInt32
  bit : Nat

def Expander.refill (s : Expander) : Option Expander :=
  if s.bit = 0 then
    match s.src with
    | hi :: lo :: src => some { s with src, command := hi.toUInt32 <<< 8 + lo.toUInt32, bit := 16 }
    | _ => none
  else some s

/-- An item; `none` is a block that ends too early, or that refers to what was never written. -/
def Expander.item (s : Expander) : Option Expander :=
  if s.command &&& 0x8000 ≠ 0 then
    match s.src with
    | a :: b :: src =>
      let symbolAddress := a.toNat <<< 4 + b.toNat >>> 4
      if symbolAddress ≠ 0 then
        (copyBack symbolAddress ((b.toNat &&& 0x0f) + 3) s.out).map fun out => { s with src, out }
      else
        match src with
        | lo :: c :: src => some { s with src, out := s.out ++ List.replicate (b.toNat <<< 8 + (lo.toNat + 16)) c }
        | _ => none
    | _ => none
  else
    match s.src with
    | c :: src => some { s with src, out := s.out ++ [c] }
    | [] => none

def Expander.pass (s : Expander) : Option Expander := do
  let s ← s.refill
  let s ← s.item
  some { s with command := s.command <<< 1, bit := s.bit - 1 }

def expandBlockLoop : Nat → Expander → Option Bytes
  | _, ⟨[], out, _, _⟩ => some out
  | 0, _ => none
  | fuel + 1, s => s.pass.bind (expandBlockLoop fuel)

/-- `expand_block` -/
def expandBlock : Bytes → Option Bytes
  | [] => none
  | flag :: src => if flag = 0x80 then some src else expandBlockLoop src.length ⟨src, [], 0, 0⟩

/-! ## Items -/

/-- How an item is written. -/
def itemBytes : Token UInt8 → Bytes
  | .lit c => [c]
  | .run c n => [0, ((n - 16) >>> 8 &&& 0xff).toUInt8, (n - 16 &&& 0xff).toUInt8, c]
  | .copy dist n => [((dist <<< 4 + (n - 3)) >>> 8 &&& 0xff).toUInt8, (dist <<< 4 + (n - 3) &&& 0xff).toUInt8]

/-- The bit of an item in the header of its group. -/
def itemFlag : Token UInt8 → Nat
  | .lit _ => 0
  | .run _ _ => 1
  | .copy _ _ => 1

/-- The sizes fit their bytes. -/
def ItemFits : Token UInt8 → Prop
  | .lit _ => True
  | .run _ n => 16 ≤ n ∧ n ≤ 0x0fff
  | .copy dist n => 0 < dist ∧ dist < 4096 ∧ 3 ≤ n ∧ n ≤ 18

/-- The bits of some items, the last one lowest. -/
def flagsValue (ts : List (Token UInt8)) : Nat := ts.foldl (fun v t => 2 * v + itemFlag t) 0

/-- What the two bytes of a header hold. -/
def headerValue (ts : List (Token UInt8)) : Nat := flagsValue ts * 2 ^ (16 - ts.length)

def groupBytes (ts : List (Token UInt8)) : Bytes :=
  (headerValue ts >>> 8 &&& 0xff).toUInt8 :: (headerValue ts &&& 0xff).toUInt8 :: ts.flatMap itemBytes

theorem itemBytes_ne_nil (t : Token UInt8) : itemBytes t ≠ [] := by
  cases t <;> exact List.cons_ne_nil _ _

theorem itemFlag_le (t : Token UInt8) : itemFlag t ≤ 1 := by
  cases t
  · exact Nat.zero_le 1
  · exact Nat.le_refl 1
  · exact Nat.le_refl 1

theorem flagsValue_snoc (ts : List (Token UInt8)) (t : Token UInt8) :
    flagsValue (ts ++ [t]) = 2 * flagsValue ts + itemFlag t := by
  unfold flagsValue
  rw [List.foldl_append]
  rfl

theorem foldl_flags (ts : List (Token UInt8)) (v : Nat) :
    ts.foldl (fun v t => 2 * v + itemFlag t) v = v * 2 ^ ts.length + flagsValue ts := by
  induction ts generalizing v with
  | nil => simp [flagsValue]
  | cons t ts ih =>
    have hzero : flagsValue (t :: ts) = (2 * 0 + itemFlag t) * 2 ^ ts.length + flagsValue ts := ih _
    rw [List.foldl_cons, ih, hzero, List.length_cons, Nat.pow_succ]
    ring

theorem flagsValue_cons (t : Token UInt8) (ts : List (Token UInt8)) :
    flagsValue (t :: ts) = itemFlag t * 2 ^ ts.length + flagsValue ts := by
  have h := foldl_flags ts (2 * 0 + itemFlag t)
  rw [Nat.mul_zero, Nat.zero_add] at h
  rw [← h, flagsValue, List.foldl_cons, Nat.mul_zero, Nat.zero_add]

theorem flagsValue_lt (ts : List (Token UInt8)) : flagsValue ts < 2 ^ ts.length := by
  induction ts with
  | nil => decide
  | cons t ts ih =>
    have hle := Nat.mul_le_mul_right (2 ^ ts.length) (itemFlag_le t)
    rw [flagsValue_cons, List.length_cons, Nat.pow_succ]
    omega

/-- The first bit of a header is that of its first item, and the others follow when it is shifted
out. -/
theorem headerValue_cons {t : Token UInt8} {ts : List (Token UInt8)} (h : ts.length < 16) :
    headerValue (t :: ts) = itemFlag t * 2 ^ 15 + headerValue ts / 2 ∧ 2 ∣ headerValue ts ∧
      headerValue ts < 2 ^ 16 := by
  obtain ⟨m, hm⟩ : ∃ m, 16 - ts.length = m + 1 := ⟨15 - ts.length, by omega⟩
  have hcons : 16 - (t :: ts).length = m := by
    rw [List.length_cons]
    omega
  have hpow : 2 ^ ts.length * 2 ^ m = 2 ^ 15 := by
    rw [← Nat.pow_add]
    congr 1
    omega
  have htwice : headerValue ts = 2 * (flagsValue ts * 2 ^ m) := by
    rw [headerValue, hm, Nat.pow_succ]
    ring
  refine ⟨?_, ⟨_, htwice⟩, ?_⟩
  · rw [htwice, Nat.mul_div_cancel_left _ (by decide), headerValue, hcons, flagsValue_cons, Nat.add_mul,
      Nat.mul_assoc, hpow]
  · have hlt := Nat.mul_lt_mul_of_pos_right (flagsValue_lt ts) (Nat.two_pow_pos m)
    rw [hpow] at hlt
    rw [htwice]
    omega

theorem headerValue_lt {ts : List (Token UInt8)} (h : ts.length ≤ 16) : headerValue ts < 2 ^ 16 := by
  calc headerValue ts < 2 ^ ts.length * 2 ^ (16 - ts.length) :=
        Nat.mul_lt_mul_of_pos_right (flagsValue_lt ts) (Nat.two_pow_pos _)
    _ = 2 ^ 16 := by rw [← Nat.pow_add, Nat.add_sub_cancel' h]

/-- A number of 16 bits in two bytes. -/
theorem toNat_highByte (v : Nat) : (v >>> 8 &&& 0xff).toUInt8.toNat = v / 256 % 256 := by
  rw [show (0xff : Nat) = 2 ^ 8 - 1 from rfl, Nat.and_two_pow_sub_one_eq_mod, Nat.shiftRight_eq_div_pow, toNat_toUInt8]
  omega

theorem toNat_lowByte (v : Nat) : (v &&& 0xff).toUInt8.toNat = v % 256 := by
  rw [show (0xff : Nat) = 2 ^ 8 - 1 from rfl, Nat.and_two_pow_sub_one_eq_mod, toNat_toUInt8]
  omega

/-! ## `expand_block` reads the items -/

theorem topBit_iff (command : UInt32) : command &&& 0x8000 ≠ 0 ↔ command.toNat / 2 ^ 15 % 2 = 1 := by
  have hbit : command.toNat.testBit 15 = decide (command.toNat / 2 ^ 15 % 2 = 1) := Nat.testBit_eq_decide_div_mod_eq
  have hand : (command &&& 0x8000).toNat = (command.toNat.testBit 15).toNat * 2 ^ 15 := by
    rw [UInt32.toNat_and, show (0x8000 : UInt32).toNat = 2 ^ 15 from rfl, Nat.and_two_pow]
  rw [Ne, ← UInt32.toNat_inj, hand, hbit]
  simp

theorem Expander.item_token {s : Expander} {t : Token UInt8} {rest out : Bytes} (hfits : ItemFits t)
    (hflag : s.command.toNat / 2 ^ 15 % 2 = itemFlag t) (hsrc : s.src = itemBytes t ++ rest)
    (hout : t.append s.out = some out) : s.item = some { s with src := rest, out := out } := by
  unfold Expander.item
  cases t with
  | lit c =>
    have hclear : ¬ s.command &&& 0x8000 ≠ 0 := by
      rw [topBit_iff, hflag]
      exact Nat.zero_ne_one
    rw [if_neg hclear, hsrc]
    cases hout
    rfl
  | run c n =>
    obtain ⟨hlow, hhigh⟩ := hfits
    rw [if_pos ((topBit_iff _).2 hflag), hsrc]
    have hzero : (0 : UInt8).toNat <<< 4 + ((n - 16) >>> 8 &&& 0xff).toUInt8.toNat >>> 4 = 0 := by
      rw [toNat_highByte, Nat.shiftRight_eq_div_pow, show (0 : UInt8).toNat = 0 from rfl, Nat.zero_shiftLeft]
      omega
    have hsize : ((n - 16) >>> 8 &&& 0xff).toUInt8.toNat <<< 8 + ((n - 16 &&& 0xff).toUInt8.toNat + 16) = n := by
      rw [toNat_highByte, toNat_lowByte, Nat.shiftLeft_eq]
      omega
    simp only [itemBytes, List.cons_append, List.nil_append, hzero, hsize]
    cases hout
    rfl
  | copy dist n =>
    obtain ⟨hpos, hdist, hlow, hhigh⟩ := hfits
    rw [if_pos ((topBit_iff _).2 hflag), hsrc]
    have hkey : dist <<< 4 = 16 * dist := by
      rw [Nat.shiftLeft_eq]
      omega
    have haddress : ((dist <<< 4 + (n - 3)) >>> 8 &&& 0xff).toUInt8.toNat <<< 4 +
        (dist <<< 4 + (n - 3) &&& 0xff).toUInt8.toNat >>> 4 = dist := by
      rw [toNat_highByte, toNat_lowByte, Nat.shiftRight_eq_div_pow, Nat.shiftLeft_eq, hkey]
      omega
    have hsize : ((dist <<< 4 + (n - 3) &&& 0xff).toUInt8.toNat &&& 0x0f) + 3 = n := by
      rw [toNat_lowByte, show (0x0f : Nat) = 2 ^ 4 - 1 from rfl, Nat.and_two_pow_sub_one_eq_mod, hkey]
      omega
    simp only [itemBytes, List.cons_append, List.nil_append, haddress, hsize]
    rw [if_pos (by omega)]
    have hcopy : copyBack dist n s.out = some out := hout
    rw [hcopy]
    rfl

theorem expandBlockLoop_nil (fuel : Nat) (out : Bytes) (command : UInt32) (bit : Nat) :
    expandBlockLoop fuel ⟨[], out, command, bit⟩ = some out := by
  unfold expandBlockLoop
  rfl

theorem expandBlockLoop_pass {s : Expander} (h : s.src ≠ []) (fuel : Nat) :
    expandBlockLoop (fuel + 1) s = s.pass.bind (expandBlockLoop fuel) := by
  obtain ⟨src, out, command, bit⟩ := s
  cases src with
  | nil => exact absurd rfl h
  | cons c src => rfl

/-- The items that are left of a group. -/
theorem expandBlockLoop_items {ts : List (Token UInt8)} (hfits : ∀ t ∈ ts, ItemFits t) {s : Expander}
    {rest out : Bytes} (hsrc : s.src = ts.flatMap itemBytes ++ rest) (hbit : ts.length ≤ s.bit) (hmax : ts.length ≤ 16)
    (hcommand : s.command.toNat % 2 ^ 16 = headerValue ts) (hout : BackReferences.expand ts s.out = some out) :
    ∃ command, ∀ fuel, expandBlockLoop (ts.length + fuel) s =
      expandBlockLoop fuel ⟨rest, out, command, s.bit - ts.length⟩ := by
  induction ts generalizing s with
  | nil =>
    obtain ⟨src, out', command, bit⟩ := s
    cases hout
    cases hsrc
    exact ⟨command, fun fuel => by rw [List.length_nil, Nat.zero_add]; rfl⟩
  | cons t ts ih =>
    rw [List.length_cons] at hbit hmax
    obtain ⟨hhead, ⟨m, hm⟩, hlt⟩ := headerValue_cons (t := t) (show ts.length < 16 by omega)
    rw [hhead, hm, Nat.mul_div_cancel_left _ (by decide)] at hcommand
    have hle := itemFlag_le t
    obtain ⟨out', happend, hrest⟩ := Option.bind_eq_some_iff.1 hout
    have hflag : s.command.toNat / 2 ^ 15 % 2 = itemFlag t := by omega
    rw [List.flatMap_cons, List.append_assoc] at hsrc
    have hitem := Expander.item_token (hfits t List.mem_cons_self) hflag hsrc happend
    have hrefill : s.refill = some s := if_neg (by omega)
    have hpass : s.pass = some ⟨ts.flatMap itemBytes ++ rest, out', s.command <<< 1, s.bit - 1⟩ := by
      unfold Expander.pass
      rw [hrefill]
      show s.item.bind _ = _
      rw [hitem]
      rfl
    have hshift : (s.command <<< 1).toNat % 2 ^ 16 = headerValue ts := by
      rw [UInt32.toNat_shiftLeft, show (1 : UInt32).toNat % 32 = 1 from rfl, Nat.shiftLeft_eq, hm]
      omega
    obtain ⟨command, hloop⟩ := ih (s := ⟨ts.flatMap itemBytes ++ rest, out', s.command <<< 1, s.bit - 1⟩)
      (fun t ht => hfits t (List.mem_cons_of_mem _ ht)) rfl (show ts.length ≤ s.bit - 1 by omega) (by omega) hshift hrest
    refine ⟨command, fun fuel => ?_⟩
    have hne : s.src ≠ [] := by
      rw [hsrc]
      exact List.append_ne_nil_of_left_ne_nil (itemBytes_ne_nil t) _
    rw [List.length_cons, show ts.length + 1 + fuel = ts.length + fuel + 1 by omega, expandBlockLoop_pass hne, hpass]
    refine (hloop fuel).trans ?_
    rw [Nat.sub_sub, Nat.add_comm 1]

/-- A group with its header. -/
theorem expandBlockLoop_group {ts : List (Token UInt8)} (hfits : ∀ t ∈ ts, ItemFits t) (hne : ts ≠ [])
    (hmax : ts.length ≤ 16) {out out' : Bytes} (hout : BackReferences.expand ts out = some out') (rest : Bytes)
    (command : UInt32) : ∃ command', ∀ fuel, expandBlockLoop (ts.length + fuel) ⟨groupBytes ts ++ rest, out, command, 0⟩ =
      expandBlockLoop fuel ⟨rest, out', command', 16 - ts.length⟩ := by
  have hlt := headerValue_lt hmax
  obtain ⟨header, hheader⟩ : ∃ header : UInt32, (headerValue ts >>> 8 &&& 0xff).toUInt8.toUInt32 <<< 8 +
      (headerValue ts &&& 0xff).toUInt8.toUInt32 = header := ⟨_, rfl⟩
  have hvalue : header.toNat = headerValue ts := by
    rw [← hheader, UInt32.toNat_add, UInt32.toNat_shiftLeft, UInt8.toNat_toUInt32, UInt8.toNat_toUInt32,
      toNat_highByte, toNat_lowByte, show (8 : UInt32).toNat % 32 = 8 from rfl, Nat.shiftLeft_eq]
    omega
  obtain ⟨command', hitems⟩ := expandBlockLoop_items hfits (s := ⟨ts.flatMap itemBytes ++ rest, out, header, 16⟩) rfl
    hmax hmax (by rw [hvalue, Nat.mod_eq_of_lt hlt]) hout
  refine ⟨command', fun fuel => (Eq.trans ?_ (hitems fuel))⟩
  obtain ⟨t, ts', rfl⟩ := List.exists_cons_of_ne_nil hne
  have hfull : (t :: ts').flatMap itemBytes ++ rest ≠ [] := by
    rw [List.flatMap_cons, List.append_assoc]
    exact List.append_ne_nil_of_left_ne_nil (itemBytes_ne_nil t) _
  rw [List.length_cons, show ts'.length + 1 + fuel = ts'.length + fuel + 1 by omega,
    expandBlockLoop_pass (s := ⟨groupBytes (t :: ts') ++ rest, out, command, 0⟩) (List.cons_ne_nil _ _),
    expandBlockLoop_pass (s := ⟨(t :: ts').flatMap itemBytes ++ rest, out, header, 16⟩) hfull]
  rw [← hheader]
  rfl

/-- All but the last group are full. -/
def FullGroups : List (List (Token UInt8)) → Prop
  | [] => True
  | [ts] => ts ≠ [] ∧ ts.length ≤ 16
  | ts :: groups => ts.length = 16 ∧ FullGroups groups

theorem expandBlockLoop_groups {groups : List (List (Token UInt8))} (hfull : FullGroups groups)
    (hfits : ∀ ts ∈ groups, ∀ t ∈ ts, ItemFits t) {out out' : Bytes}
    (hout : BackReferences.expand groups.flatten out = some out') (command : UInt32) (fuel : Nat) :
    expandBlockLoop (groups.flatten.length + fuel) ⟨groups.flatMap groupBytes, out, command, 0⟩ = some out' := by
  induction groups generalizing out command with
  | nil =>
    cases hout
    exact expandBlockLoop_nil _ _ _ _
  | cons ts groups ih =>
    rw [List.flatten_cons, expand_append] at hout
    obtain ⟨mid, hmid, hrest⟩ := Option.bind_eq_some_iff.1 hout
    have hts := hfits ts List.mem_cons_self
    rw [List.flatMap_cons, List.flatten_cons, List.length_append, Nat.add_assoc]
    cases groups with
    | nil =>
      obtain ⟨command', hgroup⟩ := expandBlockLoop_group hts hfull.1 hfull.2 hmid [] command
      cases hrest
      exact (hgroup _).trans (expandBlockLoop_nil _ _ _ _)
    | cons ts' groups =>
      obtain ⟨hlen, hfull'⟩ := hfull
      have hne : ts ≠ [] := by
        rintro rfl
        exact absurd hlen (by decide)
      obtain ⟨command', hgroup⟩ := expandBlockLoop_group hts hne hlen.le hmid ((ts' :: groups).flatMap groupBytes) command
      rw [hgroup, hlen]
      exact ih hfull' (fun ts hts => hfits ts (List.mem_cons_of_mem _ hts)) hrest command'

/-! ## `compress_block` writes items that stand in the source -/

section

variable {src : Buf} {n : Nat}

theorem getElem?_takeBytes {i : Nat} (h : i < n) : (takeBytes n src)[i]? = some (src i) := by
  simp [takeBytes, h]

theorem runSize_spec {i fuel size : Nat} (hfuel : 0x0fff ≤ size + fuel) (hpos : 1 ≤ size) (hmax : size ≤ 0x0fff)
    (hin : i + size ≤ n) (hrun : ∀ k < size, src (i + k) = src i) :
    1 ≤ runSize src n i fuel size ∧ runSize src n i fuel size ≤ 0x0fff ∧ i + runSize src n i fuel size ≤ n ∧
      ∀ k < runSize src n i fuel size, src (i + k) = src i := by
  induction fuel generalizing size with
  | zero => exact ⟨hpos, hmax, hin, hrun⟩
  | succ fuel ih =>
    unfold runSize
    split
    · exact ⟨hpos, hmax, hin, hrun⟩
    · next hmore =>
      push Not at hmore
      obtain ⟨hlt, hsame, hroom⟩ := hmore
      refine ih (by omega) (by omega) (by omega) (by omega) fun k hk => ?_
      obtain hk | rfl := Nat.lt_succ_iff_lt_or_eq.1 hk
      · exact hrun k hk
      · exact hsame.symm

theorem matchSize_spec {ptr : Nat} {pos : Int} {fuel size : Nat} (hmax : size ≤ 18) (hin : ptr + size ≤ n)
    (hsame : ∀ k < size, src (ptr + k) = src (toWord (pos + k))) :
    matchSize src n ptr pos fuel size ≤ 18 ∧ ptr + matchSize src n ptr pos fuel size ≤ n ∧
      ∀ k < matchSize src n ptr pos fuel size, src (ptr + k) = src (toWord (pos + k)) := by
  induction fuel generalizing size with
  | zero => exact ⟨hmax, hin, hsame⟩
  | succ fuel ih =>
    unfold matchSize
    split
    · exact ⟨hmax, hin, hsame⟩
    · next hmore =>
      push Not at hmore
      obtain ⟨hroom, hlt, heq⟩ := hmore
      refine ih (by omega) (by omega) fun k hk => ?_
      obtain hk | rfl := Nat.lt_succ_iff_lt_or_eq.1 hk
      · exact hsame k hk
      · exact heq

/-- The table holds nothing but positions before this one. -/
def HashBelow (hash : Nat → Int) (i : Nat) : Prop := ∀ k, hash k = -1 ∨ ∃ p < i, hash k = toShort p

theorem HashBelow.update {hash : Nat → Int} {i j : Nat} (h : HashBelow hash i) (hij : i < j) (k : Nat) :
    HashBelow (Function.update hash k (toShort i)) j := by
  intro k'
  by_cases hk : k' = k
  · subst hk
    exact Or.inr ⟨i, hij, Function.update_self _ _ _⟩
  · rw [Function.update_of_ne hk]
    exact (h k').imp id fun ⟨p, hp, heq⟩ => ⟨p, hp.trans hij, heq⟩

theorem HashBelow.mono {hash : Nat → Int} {i j : Nat} (h : HashBelow hash i) (hij : i ≤ j) : HashBelow hash j :=
  fun k => (h k).imp id fun ⟨p, hp, heq⟩ => ⟨p, lt_of_lt_of_le hp hij, heq⟩

/-- A value of the table that is near is a position before this one, wherever it came from. -/
theorem toShort_near {p ptr : Nat} (hp : p < ptr) (hptr : ptr < 2 ^ 31) (h : toWord (ptr - toShort p) < 4096) :
    ∃ q < ptr, toShort p = q ∧ ptr - q < 4096 := by
  unfold toWord toShort at *
  refine ⟨((p + 32768) % 65536 - 32768 : Nat), ?_, ?_, ?_⟩
  · omega
  · omega
  · omega

theorem getMatch_spec {ptr size : Nat} {pos : Int} {hash : Nat → Int} (hn : n < 2 ^ 31) (hptr : ptr < n)
    (hhash : HashBelow hash ptr) (h : getMatch src ptr n hash = some (size, pos)) :
    ItemFits (.copy (toWord (ptr - pos)) size) ∧
      (Token.copy (toWord (ptr - pos)) size).StandsAt (takeBytes n src) ptr := by
  unfold getMatch at h
  simp only at h
  split at h
  · next hnear =>
    obtain ⟨hsome, hnear⟩ := hnear
    split at h
    · next hsize =>
      cases h
      obtain ⟨p, hp, hshort⟩ := (hhash (hashValue src ptr)).resolve_left hsome
      rw [hshort] at hnear hsize ⊢
      obtain ⟨q, hq, hqeq, hdist⟩ := toShort_near hp (by omega) hnear
      rw [hqeq] at hsize ⊢
      have hword : ∀ k : Nat, ptr + k < 2 ^ 31 → toWord ((q : Int) + k) = q + k := by
        intro k hk
        unfold toWord
        omega
      have hback : toWord ((ptr : Int) - q) = ptr - q := by
        unfold toWord
        omega
      obtain ⟨hmax, hin, hsame⟩ := @matchSize_spec src n ptr q 18 0
        (Nat.zero_le 18) (show ptr + 0 ≤ n by omega) fun k hk => absurd hk (Nat.not_lt_zero k)
      rw [hback]
      refine ⟨⟨by omega, hdist, hsize, hmax⟩, by omega, by omega, by rw [length_takeBytes]; exact hin, fun k hk => ?_⟩
      rw [show ptr - (ptr - q) + k = q + k by omega, getElem?_takeBytes (by omega), getElem?_takeBytes (by omega),
        hsame k hk, hword k (by omega)]
    · cases h
  · cases h

/-- Groups that are written, and the items behind the open header. -/
structure Block.Writes (src : Buf) (n : Nat) (groups : List (List (Token UInt8))) (ts : List (Token UInt8))
    (s : Block) : Prop where
  expands : BackReferences.expand (groups.flatten ++ ts) [] = some ((takeBytes n src).take s.srcIndex)
  fits : ∀ t ∈ groups.flatten ++ ts, ItemFits t
  full : ∀ ts ∈ groups, ts.length = 16
  length : ts.length ≤ 16
  bit : s.bit = ts.length
  command : s.command.toNat % 2 ^ ts.length = flagsValue ts
  header : s.headerIndex = (0x40 :: groups.flatMap groupBytes).length
  dst : ∃ x y, s.dst = 0x40 :: groups.flatMap groupBytes ++ (x :: y :: ts.flatMap itemBytes)
  index : s.srcIndex ≤ n
  hash : HashBelow s.hash s.srcIndex

variable {groups : List (List (Token UInt8))} {ts : List (Token UInt8)} {s : Block}

/-- The header of the open group is written over what stands in its place. -/
theorem Block.Writes.flush (h : s.Writes src n groups ts) {command : UInt32}
    (hcommand : command.toNat % 2 ^ 16 = headerValue ts) :
    ({ s with command := command }.flush).dst = 0x40 :: (groups ++ [ts]).flatMap groupBytes := by
  obtain ⟨x, y, hdst⟩ := h.dst
  have hhigh : (command >>> 8 &&& 0xff).toUInt8 = (headerValue ts >>> 8 &&& 0xff).toUInt8 := by
    rw [← UInt8.toNat_inj, toNat_highByte, ← hcommand]
    have hand : (command >>> 8 &&& 0xff).toNat = command.toNat / 256 % 256 := by
      rw [UInt32.toNat_and, UInt32.toNat_shiftRight, show (0xff : UInt32).toNat = 2 ^ 8 - 1 from rfl,
        Nat.and_two_pow_sub_one_eq_mod, show (8 : UInt32).toNat % 32 = 8 from rfl, Nat.shiftRight_eq_div_pow]
    rw [UInt32.toNat_toUInt8, hand]
    omega
  have hlow : (command &&& 0xff).toUInt8 = (headerValue ts &&& 0xff).toUInt8 := by
    rw [← UInt8.toNat_inj, toNat_lowByte, ← hcommand]
    have hand : (command &&& 0xff).toNat = command.toNat % 256 := by
      rw [UInt32.toNat_and, show (0xff : UInt32).toNat = 2 ^ 8 - 1 from rfl, Nat.and_two_pow_sub_one_eq_mod]
    rw [UInt32.toNat_toUInt8, hand]
    omega
  unfold Block.flush
  simp only [hdst, hhigh, hlow]
  rw [List.set_append_right _ _ h.header.ge, h.header, Nat.sub_self, List.set_cons_zero,
    List.set_append_right _ _ (Nat.le_add_right _ 1), Nat.add_sub_cancel_left, List.set_cons_succ, List.set_cons_zero,
    List.flatMap_append, List.flatMap_singleton, groupBytes]
  rfl

theorem headerValue_full (h : ts.length = 16) : headerValue ts = flagsValue ts := by
  rw [headerValue, h, Nat.sub_self, Nat.pow_zero, Nat.mul_one]

theorem Block.Writes.newHeader (h : s.Writes src n groups ts) :
    ∃ groups' ts', s.newHeader.Writes src n groups' ts' ∧ ts'.length < 16 ∧ s.newHeader.srcIndex = s.srcIndex := by
  unfold Block.newHeader
  split
  · next hbit =>
    have hlen : ts.length = 16 := by
      have hle := h.length
      rw [h.bit] at hbit
      omega
    have hcommand := h.command
    rw [hlen, ← headerValue_full hlen] at hcommand
    have hflush := h.flush hcommand
    refine ⟨groups ++ [ts], [], ?_, by decide, rfl⟩
    refine ⟨?_, ?_, ?_, Nat.zero_le _, rfl, ?_, ?_, ⟨0, 0, ?_⟩, h.index, h.hash⟩
    · rw [List.flatten_append, List.flatten_singleton, List.append_nil]
      exact h.expands
    · rw [List.flatten_append, List.flatten_singleton, List.append_nil]
      exact h.fits
    · intro ts' hts'
      rcases List.mem_append.1 hts' with hts' | hts'
      · exact h.full ts' hts'
      · rw [List.mem_singleton.1 hts']
        exact hlen
    · exact Nat.mod_one _
    · exact congrArg List.length hflush
    · exact congrArg (· ++ [0, 0]) hflush
  · next hbit =>
    refine ⟨groups, ts, h, ?_, rfl⟩
    rw [h.bit] at hbit
    omega

/-- A bit is shifted in from below. -/
theorem shifted_mod {c f w : Nat} (hw : w * 2 ∣ 2 ^ 32) (hf : f ≤ 1) :
    (c * 2 ^ 1 % 2 ^ 32 + f) % 2 ^ 32 % (w * 2) = 2 * (c % w) + f := by
  have hpos : 0 < w := Nat.pos_of_ne_zero fun h => by simp [h] at hw
  have hlt := Nat.mod_lt c hpos
  have hsplit : c * 2 ^ 1 + f = 2 * (c % w) + f + w * 2 * (c / w) := by
    conv_lhs => rw [← Nat.div_add_mod c w]
    ring
  rw [Nat.mod_mod_of_dvd _ hw, Nat.add_mod, Nat.mod_mod_of_dvd _ hw, ← Nat.add_mod, hsplit, Nat.add_mul_mod_self_left]
  exact Nat.mod_eq_of_lt (by omega)

/-- An item that stands in the source is written. -/
theorem Block.Writes.put (h : s.Writes src n groups ts) (hroom : ts.length < 16) {t : Token UInt8} {bytes : Bytes}
    {size : Nat} {flag : UInt32} (hfits : ItemFits t) (hstands : t.StandsAt (takeBytes n src) s.srcIndex)
    (hbytes : bytes = itemBytes t) (hsize : size = t.length) (hflag : flag.toNat = itemFlag t)
    (hin : s.srcIndex + size ≤ n) {hash : Nat → Int} (hhash : HashBelow hash (s.srcIndex + size)) :
    (({ s with hash := hash } : Block).put bytes size flag).Writes src n groups (ts ++ [t]) := by
  obtain ⟨x, y, hdst⟩ := h.dst
  refine ⟨?_, ?_, h.full, ?_, ?_, ?_, h.header, ⟨x, y, ?_⟩, hin, hhash⟩
  · rw [← List.append_assoc]
    show _ = some ((takeBytes n src).take (s.srcIndex + size))
    rw [hsize]
    exact expand_snoc h.expands hstands
  · intro t' ht'
    rw [← List.append_assoc] at ht'
    rcases List.mem_append.1 ht' with ht' | ht'
    · exact h.fits t' ht'
    · rw [List.mem_singleton.1 ht']
      exact hfits
  · rw [List.length_append, List.length_singleton]
    omega
  · rw [List.length_append, List.length_singleton, ← h.bit]
    rfl
  · have hle := itemFlag_le t
    have hcommand := h.command
    show (s.command <<< 1 + flag).toNat % _ = _
    rw [UInt32.toNat_add, UInt32.toNat_shiftLeft, show (1 : UInt32).toNat % 32 = 1 from rfl, Nat.shiftLeft_eq,
      flagsValue_snoc, ← hcommand, hflag, List.length_append, List.length_singleton, Nat.pow_succ]
    refine shifted_mod (w := 2 ^ ts.length) ?_ hle
    rw [← Nat.pow_succ]
    exact Nat.pow_dvd_pow 2 (by omega)
  · show s.dst ++ bytes = _
    rw [hdst, hbytes, List.flatMap_append, List.flatMap_singleton, List.append_assoc]
    rfl

/-- What a pass leaves, at a later position. -/
structure Block.Advances (src : Buf) (n i : Nat) (s : Block) : Prop where
  writes : ∃ groups ts, s.Writes src n groups ts ∧ ts ≠ []
  index : i < s.srcIndex

theorem Block.Writes.pass (hn : n < 2 ^ 31) (h : s.Writes src n groups ts) (hlt : s.srcIndex < n) :
    (s.pass src n).Advances src n s.srcIndex := by
  obtain ⟨groups', ts', hnew, hroom, hindex⟩ := h.newHeader
  rw [← hindex] at hlt ⊢
  have hput : ∀ {t : Token UInt8} {bytes : Bytes} {size : Nat} {flag : UInt32} {hash : Nat → Int}, ItemFits t →
      t.StandsAt (takeBytes n src) s.newHeader.srcIndex → bytes = itemBytes t → size = t.length →
      flag.toNat = itemFlag t → s.newHeader.srcIndex + size ≤ n → HashBelow hash (s.newHeader.srcIndex + size) →
      0 < size → (({ s.newHeader with hash := hash } : Block).put bytes size flag).Advances src n
        s.newHeader.srcIndex := by
    intro t bytes size flag hash hfits hstands hbytes hsize hflag hin hhash hpos
    refine ⟨⟨_, _, hnew.put hroom hfits hstands hbytes hsize hflag hin hhash, by simp⟩, ?_⟩
    exact Nat.lt_add_of_pos_right hpos
  obtain ⟨hpos, hmax, hin, hrun⟩ := @runSize_spec src n s.newHeader.srcIndex 0x0fff
    1 (by decide) (Nat.le_refl 1) (by decide) hlt fun k hk => by rw [Nat.lt_one_iff.1 hk, Nat.add_zero]
  unfold Block.pass
  simp only
  generalize runSize src n s.newHeader.srcIndex 0x0fff 1 = size at hpos hmax hin hrun
  split
  · next hlong =>
    refine @hput (.run (src s.newHeader.srcIndex) size) _ _ _ s.newHeader.hash ⟨hlong, hmax⟩ (fun k hk => ?_)
      rfl rfl rfl hin (hnew.hash.mono (Nat.le_add_right _ _)) hpos
    rw [getElem?_takeBytes (by omega), hrun k hk]
  · have hhash : ∀ {size : Nat}, 0 < size → HashBelow (Function.update s.newHeader.hash
        (hashValue src s.newHeader.srcIndex) (toShort s.newHeader.srcIndex)) (s.newHeader.srcIndex + size) :=
      fun hpos => hnew.hash.update (Nat.lt_add_of_pos_right hpos) _
    cases hfound : getMatch src s.newHeader.srcIndex n s.newHeader.hash with
    | some found =>
      obtain ⟨hfits, hstands⟩ := @getMatch_spec src n _ found.1 found.2 _ hn hlt hnew.hash hfound
      have hsize : 0 < found.1 := by
        have := hfits.2.2.1
        omega
      have hroom := hstands.2.2.1
      rw [length_takeBytes] at hroom
      exact hput hfits hstands rfl rfl rfl hroom (hhash hsize) hsize
    | none =>
      exact hput (t := .lit (src s.newHeader.srcIndex)) trivial (getElem?_takeBytes hlt) rfl rfl rfl hlt
        (hhash Nat.one_pos) Nat.one_pos

/-- Where the loop ends: before it has read anything, or with items in the open group. -/
theorem compressBlockLoop_writes (hn : n < 2 ^ 31) {fuel : Nat} (hfuel : n ≤ s.srcIndex + fuel)
    (h : s.Writes src n groups ts) (hsome : ts ≠ [] ∨ s.srcIndex = 0 ∧ groups = []) :
    ∃ groups' ts', (compressBlockLoop src n fuel s).Writes src n groups' ts' ∧
      (n < (compressBlockLoop src n fuel s).dst.length ∨ (compressBlockLoop src n fuel s).srcIndex = n) ∧
      (ts' ≠ [] ∨ (compressBlockLoop src n fuel s).srcIndex = 0 ∧ groups' = []) := by
  induction fuel generalizing s groups ts with
  | zero => exact ⟨groups, ts, h, Or.inr (Nat.le_antisymm h.index hfuel), hsome⟩
  | succ fuel ih =>
    unfold compressBlockLoop
    split
    · next hmore =>
      obtain ⟨⟨groups', ts', hpass, hne⟩, hlater⟩ := h.pass hn hmore.1
      exact ih (by omega) hpass (Or.inl hne)
    · next hend =>
      refine ⟨groups, ts, h, ?_, hsome⟩
      have hindex := h.index
      by_cases hlong : s.dst.length ≤ n
      · exact Or.inr (Nat.le_antisymm hindex (Nat.le_of_not_lt fun hlt => hend ⟨hlt, hlong⟩))
      · exact Or.inl (Nat.lt_of_not_le hlong)

end

theorem fullGroups_snoc {groups : List (List (Token UInt8))} {ts : List (Token UInt8)}
    (hfull : ∀ ts ∈ groups, ts.length = 16) (hne : ts ≠ []) (hmax : ts.length ≤ 16) : FullGroups (groups ++ [ts]) := by
  induction groups with
  | nil => exact ⟨hne, hmax⟩
  | cons ts' groups ih =>
    have hrest := ih fun ts hts => hfull ts (List.mem_cons_of_mem _ hts)
    have hlen := hfull ts' List.mem_cons_self
    cases groups with
    | nil => exact ⟨hlen, hrest⟩
    | cons ts'' groups => exact ⟨hlen, hrest⟩

theorem length_le_flatMap {β γ : Type} {f : β → List γ} {ts : List β} (h : ∀ t ∈ ts, f t ≠ []) :
    ts.length ≤ (ts.flatMap f).length := by
  induction ts with
  | nil => exact Nat.le_refl 0
  | cons t ts ih =>
    have hhead := List.length_pos_iff.2 (h t List.mem_cons_self)
    have hrest := ih fun t ht => h t (List.mem_cons_of_mem _ ht)
    rw [List.flatMap_cons, List.length_append, List.length_cons]
    omega

theorem length_flatten_le (groups : List (List (Token UInt8))) :
    groups.flatten.length ≤ (groups.flatMap groupBytes).length := by
  induction groups with
  | nil => exact Nat.le_refl 0
  | cons ts groups ih =>
    have hitems := @length_le_flatMap _ _ itemBytes ts fun t _ => itemBytes_ne_nil t
    rw [List.flatten_cons, List.flatMap_cons, List.length_append, List.length_append, groupBytes, List.length_cons,
      List.length_cons]
    omega

/-- The header of a group that is not full is shifted up. -/
theorem shifted_header {ts : List (Token UInt8)} {command : UInt32} (hmax : ts.length ≤ 16)
    (h : command.toNat % 2 ^ ts.length = flagsValue ts) :
    (command <<< (16 - ts.length).toUInt32).toNat % 2 ^ 16 = headerValue ts := by
  have hshift : (16 - ts.length).toUInt32.toNat % 32 = 16 - ts.length := by
    rw [Nat.toUInt32, UInt32.toNat_ofNat']
    omega
  have hpow : 2 ^ 16 = 2 ^ ts.length * 2 ^ (16 - ts.length) := by
    rw [← Nat.pow_add, Nat.add_sub_cancel' hmax]
  rw [UInt32.toNat_shiftLeft, hshift, Nat.shiftLeft_eq, Nat.mod_mod_of_dvd _ (by decide), headerValue, ← h, hpow,
    Nat.mul_mod_mul_right]

/-- `expand_block` gives back what `compress_block` was given, and what it is given has one byte more at
most. -/
theorem expandBlock_compressBlock (src : Buf) {n : Nat} (hn : n < 2 ^ 31) :
    expandBlock (compressBlock src n) = some (takeBytes n src) ∧ (compressBlock src n).length ≤ n + 1 := by
  have hstart : (⟨0, [0x40, 0, 0], 1, 0, 0, fun _ => -1⟩ : Block).Writes src n [] [] :=
    ⟨rfl, nofun, nofun, Nat.zero_le _, rfl, rfl, rfl, ⟨0, 0, rfl⟩, Nat.zero_le n, fun _ => Or.inl rfl⟩
  obtain ⟨groups, ts, hend, hstop, hsome⟩ := @compressBlockLoop_writes src n [] []
    ⟨0, [0x40, 0, 0], 1, 0, 0, fun _ => -1⟩ hn n (Nat.le_add_left n 0) hstart (Or.inr ⟨rfl, rfl⟩)
  unfold compressBlock
  simp only
  generalize compressBlockLoop src n n ⟨0, [0x40, 0, 0], 1, 0, 0, fun _ => -1⟩ = s at hend hstop hsome
  have hflush := hend.flush (shifted_header hend.length hend.command)
  rw [← hend.bit] at hflush
  split
  · refine ⟨rfl, ?_⟩
    rw [List.length_cons, length_takeBytes]
  · next hshort =>
    have hsame : ({ s with command := s.command <<< (16 - s.bit).toUInt32 }.flush).dst.length = s.dst.length := by
      unfold Block.flush
      simp
    rw [hsame] at hshort
    have hindex : s.srcIndex = n := hstop.resolve_left hshort
    have hne : ts ≠ [] := by
      refine hsome.resolve_right fun hzero => hshort ?_
      obtain ⟨x, y, hdst⟩ := hend.dst
      rw [← hindex, hzero.1, hdst]
      simp
    have hall := hend.expands
    rw [hindex, List.take_of_length_le (by simp)] at hall
    have hflat : (groups ++ [ts]).flatten = groups.flatten ++ ts := by simp
    rw [← hflat] at hall
    refine ⟨?_, by rw [hsame]; omega⟩
    rw [hflush]
    have hitems := length_flatten_le (groups ++ [ts])
    obtain ⟨fuel, hfuel⟩ := Nat.exists_eq_add_of_le hitems
    show expandBlockLoop ((groups ++ [ts]).flatMap groupBytes).length ⟨_, [], 0, 0⟩ = _
    rw [hfuel]
    refine expandBlockLoop_groups (fullGroups_snoc hend.full hne hend.length) (fun ts' hts' t ht => ?_) hall 0 fuel
    refine hend.fits t ?_
    rw [← hflat]
    exact List.mem_flatten_of_mem hts' ht

/-- Twenty zero bytes are one run behind the header of its group. -/
theorem expandBlock_compressBlock_zeros : compressBlock (fun _ => 0) 20 = [0x40, 0x80, 0, 0, 0, 4, 0] ∧
    expandBlock (compressBlock (fun _ => 0) 20) = some (List.replicate 20 0) :=
  ⟨by decide, (expandBlock_compressBlock (fun _ => 0) (by decide)).1⟩

end RdfStore
