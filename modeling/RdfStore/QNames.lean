import RdfStore.NodeEquality

/-!
# Namespace and local name (`rdfstore_resource_get_localname`)

The local name of a URI is found by a scan from its last byte to its first.
Each suffix that is an XML name overwrites the answer, so the last one stands:
the longest.  The namespace is what lies in front of it, and
`rdfstore_resource_new_from_qname` puts the two together again.

    the scan answers its lowest hit                       (localnameLoop_of_first)
    the split of a URI                                    (rdfstoreResource_qnameSplit)
-/

namespace RdfStore

open ByteMem

/-! ## XML names -/

/-- The character classes of the locale. -/
structure CType where
  isalpha : UInt8 → Bool
  isalnum : UInt8 → Bool

variable (ct : CType)

/-- The `while` of `_rdfstore_is_xml_name`, up to the NUL. -/
def nameChars : Bytes → Bool
  | [] => true
  | c :: rest =>
    if c = 0 then true
    else if !ct.isalnum c && c ≠ 0x5f && c ≠ 0x2d && c ≠ 0x2e then false
    else nameChars rest

/-- `_rdfstore_is_xml_name`, on the bytes in front of a NUL; the NUL is no letter. -/
def rdfstoreIsXmlName : Bytes → Bool
  | [] => false
  | c :: rest => if !ct.isalpha c && c ≠ 0x5f then false else nameChars ct rest

theorem nameChars_iff {s : Bytes} (hnul : 0 ∉ s) :
    nameChars ct s = true ↔ ∀ a ∈ s, ct.isalnum a = true ∨ a = 0x5f ∨ a = 0x2d ∨ a = 0x2e := by
  induction s with
  | nil => exact iff_of_true rfl (List.forall_mem_nil _)
  | cons c rest ih =>
    obtain ⟨hc, hrest⟩ := List.ne_and_not_mem_of_not_mem_cons hnul
    rw [nameChars, if_neg hc.symm, List.forall_mem_cons, ← ih hrest]
    by_cases hchar : ct.isalnum c = true ∨ c = 0x5f ∨ c = 0x2d ∨ c = 0x2e
    · rw [if_neg (by simp only [Bool.and_eq_true, Bool.not_eq_true', decide_eq_true_eq]; grind)]
      exact (and_iff_right hchar).symm
    · rw [if_pos (by simp only [Bool.and_eq_true, Bool.not_eq_true', decide_eq_true_eq]; grind)]
      exact iff_of_false Bool.false_ne_true fun h => hchar h.1

/-- A letter or an underscore, and then letters, digits, underscores, hyphens and full stops. -/
theorem rdfstoreIsXmlName_iff {c : UInt8} {rest : Bytes} (hnul : 0 ∉ rest) :
    rdfstoreIsXmlName ct (c :: rest) = true ↔ (ct.isalpha c = true ∨ c = 0x5f) ∧
      ∀ a ∈ rest, ct.isalnum a = true ∨ a = 0x5f ∨ a = 0x2d ∨ a = 0x2e := by
  rw [← nameChars_iff ct hnul, rdfstoreIsXmlName]
  by_cases hfirst : ct.isalpha c = true ∨ c = 0x5f
  · rw [if_neg (by simp only [Bool.and_eq_true, Bool.not_eq_true', decide_eq_true_eq]; grind)]
    exact (and_iff_right hfirst).symm
  · rw [if_pos (by simp only [Bool.and_eq_true, Bool.not_eq_true', decide_eq_true_eq]; grind)]
    exact iff_of_false Bool.false_ne_true fun h => hfirst h.1

/-! ## The two parts -/

/-- A pointer into an identifier and a length. -/
structure NamePart where
  offset : ℕ
  len : ℕ
  deriving DecidableEq

def NamePart.bytes (p : NamePart) (id : Bytes) : Bytes := (id.drop p.offset).take p.len

/-- The part as an argument of a call. -/
def NamePart.buf (p : NamePart) (id : CBuf) : CBuf where
  bytes := p.bytes id.bytes
  fits := by
    have hle : (p.bytes id.bytes).length ≤ id.bytes.length := by
      unfold NamePart.bytes
      rw [List.length_take, List.length_drop]
      omega
    exact hle.trans_lt id.fits

/-- The bytes behind the part, in front of the NUL. -/
def NamePart.behind (p : NamePart) (id : Bytes) : Bytes := id.drop (p.offset + p.len)

/-- The `while` of `rdfstore_resource_get_localname`: `nc` goes down, and each name overwrites the last. -/
def localnameLoop (id : Bytes) : ℕ → Option NamePart → Option NamePart
  | 0, localname => localname
  | nc + 1, localname =>
    localnameLoop id nc (if rdfstoreIsXmlName ct (id.drop nc) then some ⟨nc, id.length - nc⟩ else localname)

/-- `rdfstore_resource_get_localname`: `some none` is NULL.  With a NULL identifier the scan starts in front
of address 0, and there is no answer. -/
def rdfstoreResourceGetLocalname (node : Option Node) : Option (Option NamePart) :=
  match node with
  | some (.resource ⟨some id, false, _⟩) =>
    some (some ((localnameLoop ct id.bytes id.bytes.length none).getD ⟨0, id.bytes.length⟩))
  | some (.resource ⟨none, false, _⟩) => none
  | _ => some none

/-- `rdfstore_resource_get_namespace`: the length is the distance of the local name from the identifier. -/
def rdfstoreResourceGetNamespace (node : Option Node) : Option (Option NamePart) :=
  (rdfstoreResourceGetLocalname ct node).map fun nc =>
    nc.bind fun nc => if 0 < nc.offset then some ⟨0, nc.offset⟩ else none

/-- `rdfstore_resource_new_from_qname`; the name is tested up to its NUL, over what lies behind the `lnl` bytes
that are copied. -/
def rdfstoreResourceNewFromQname (nameSpace localname : Option CBuf) (behind : Bytes) (type : ℤ) : Option Resource :=
  (CBuf.nonEmpty nameSpace).bind fun ns => (CBuf.nonEmpty localname).bind fun ln =>
    if type ≠ 0 then none
    else if rdfstoreIsXmlName ct (ln.bytes ++ behind) = false then none
    -- `lnl + nsl` is an `int`
    else if h : (ns.bytes ++ ln.bytes).length < 2 ^ 31 then some ⟨some ⟨ns.bytes ++ ln.bytes, h⟩, false, 0⟩
    else none

/-! ## The split -/

variable {ct}

theorem localnameLoop_of_none {id : Bytes} {n : ℕ} (l : Option NamePart)
    (h : ∀ k < n, rdfstoreIsXmlName ct (id.drop k) = false) : localnameLoop ct id n l = l := by
  induction n generalizing l with
  | zero => rfl
  | succ n ih =>
    rw [localnameLoop, h n (Nat.lt_succ_self n), if_neg Bool.false_ne_true]
    exact ih l fun k hk => h k (by omega)

/-- Whatever was found behind it is overwritten. -/
theorem localnameLoop_of_first {id : Bytes} {n k : ℕ} (l : Option NamePart) (hk : k < n)
    (hname : rdfstoreIsXmlName ct (id.drop k) = true) (hfirst : ∀ j < k, rdfstoreIsXmlName ct (id.drop j) = false) :
    localnameLoop ct id n l = some ⟨k, id.length - k⟩ := by
  induction n generalizing l with
  | zero =>
    exfalso
    omega
  | succ n ih =>
    rw [localnameLoop]
    by_cases hkn : k = n
    · rw [← hkn, if_pos hname]
      exact localnameLoop_of_none _ hfirst
    · exact ih _ (by omega)

/-- `http:u/2#a-1`, where the digits are no letters. -/
example : localnameLoop ⟨fun c => 0x61 ≤ c && c ≤ 0x7a, fun c => (0x61 ≤ c && c ≤ 0x7a) || (0x30 ≤ c && c ≤ 0x39)⟩
    (ascii "http:u/2#a-1") 12 none = some ⟨9, 3⟩ := by decide

theorem NamePart.bytes_from (id : Bytes) (k : ℕ) : (NamePart.mk k (id.length - k)).bytes id = id.drop k := by
  unfold NamePart.bytes
  rw [List.take_of_length_le (by rw [List.length_drop])]

/-- A suffix that is a name begins at a byte of the identifier. -/
theorem exists_drop_of_suffix {id s : Bytes} (hs : s <:+ id) (hname : rdfstoreIsXmlName ct s = true) :
    id.length - s.length < id.length ∧ s = id.drop (id.length - s.length) := by
  have heq := List.suffix_iff_eq_drop.1 hs
  refine ⟨?_, heq⟩
  have hle := hs.length_le
  have hne : s.length ≠ 0 := by
    intro h0
    rw [List.eq_nil_of_length_eq_zero h0] at hname
    exact Bool.false_ne_true hname
  omega

variable (ct)

/-- A node that the two parts give back: the identifier is that of the URI, and `rdfstore_node_equals` says so. -/
def Rebuilds (ext : Externals) (dd : Digest) (node : Node) (id : CBuf) (ns ln : NamePart) : Prop :=
  ∃ r, rdfstoreResourceNewFromQname ct (some (ns.buf id)) (some (ln.buf id)) (ln.behind id.bytes) 0 = some r ∧
    (Node.resource r).identity = node.identity ∧
    (rdfstoreNodeEquals ext dd (some node) (some (.resource r))).2 = some 1

/-- The parts of a URI, where NULL is no namespace. -/
structure QNameSplit (id : Bytes) (nameSpace : Option NamePart) (localname : NamePart) : Prop where
  front : ∀ ns ∈ nameSpace, ns.offset = 0 ∧ 0 < ns.len
  whole : (nameSpace.map (·.bytes id)).getD [] ++ localname.bytes id = id
  longest : ∀ s, s <:+ id → rdfstoreIsXmlName ct s = true →
    rdfstoreIsXmlName ct (localname.bytes id) = true ∧ s.length ≤ (localname.bytes id).length
  no_name : (∀ s, s <:+ id → rdfstoreIsXmlName ct s = false) → nameSpace = none ∧ localname.bytes id = id

/-- A part that begins inside the identifier and is not empty is handed over as it is. -/
theorem NamePart.nonEmpty_buf {p : NamePart} {id : CBuf} (hlen : 0 < p.len) (hoffset : p.offset < id.bytes.length) :
    CBuf.nonEmpty (some (p.buf id)) = some (p.buf id) := by
  refine Option.filter_some_pos ?_
  show decide ((p.bytes id.bytes).length > 0) = true
  unfold NamePart.bytes
  rw [List.length_take, List.length_drop]
  exact decide_eq_true (by omega)

/-- The two parts in front of and from a name on. -/
theorem rebuilds_of_name {id : CBuf} {k : ℕ} (h0 : 0 < k) (hk : k < id.bytes.length)
    (hname : rdfstoreIsXmlName ct (id.bytes.drop k) = true) (ext : Externals) (dd : Digest) (hash : UInt32) :
    Rebuilds ct ext dd (.resource ⟨some id, false, hash⟩) id ⟨0, k⟩ ⟨k, id.bytes.length - k⟩ := by
  have hns : ((NamePart.mk 0 k).buf id).bytes = id.bytes.take k := rfl
  have hln : ((NamePart.mk k (id.bytes.length - k)).buf id).bytes = id.bytes.drop k := NamePart.bytes_from id.bytes k
  have hbehind : (NamePart.mk k (id.bytes.length - k)).behind id.bytes = [] := by
    refine List.drop_of_length_le ?_
    show id.bytes.length ≤ k + (id.bytes.length - k)
    omega
  have hwhole : id.bytes.take k ++ id.bytes.drop k = id.bytes := List.take_append_drop k id.bytes
  have hcall : rdfstoreResourceNewFromQname ct (some ((NamePart.mk 0 k).buf id))
      (some ((NamePart.mk k (id.bytes.length - k)).buf id)) ((NamePart.mk k (id.bytes.length - k)).behind id.bytes) 0 =
      some ⟨some id, false, 0⟩ := by
    unfold rdfstoreResourceNewFromQname
    rw [NamePart.nonEmpty_buf h0 (by show 0 < _; omega),
      NamePart.nonEmpty_buf (by show 0 < id.bytes.length - k; omega) hk]
    simp only [Option.bind_some, hns, hln, hbehind, List.append_nil, hname, hwhole]
    rw [if_neg (not_not.2 rfl), if_neg (Ne.symm Bool.false_ne_true), dif_pos id.fits]
  exact ⟨_, hcall, rfl, rdfstoreNodeEquals_of_identity_eq rfl rfl⟩

section Found

variable {ct} {id : CBuf} {k : ℕ} (hk : k < id.bytes.length) (hname : rdfstoreIsXmlName ct (id.bytes.drop k) = true)
  (hfirst : ∀ j < k, rdfstoreIsXmlName ct (id.bytes.drop j) = false)
include hk hname hfirst

theorem rdfstoreResourceGetLocalname_of_first (hash : UInt32) :
    rdfstoreResourceGetLocalname ct (some (.resource ⟨some id, false, hash⟩)) =
      some (some ⟨k, id.bytes.length - k⟩) := by
  unfold rdfstoreResourceGetLocalname
  simp only [localnameLoop_of_first none hk hname hfirst, Option.getD_some]

theorem rdfstoreResourceGetNamespace_of_first (hash : UInt32) :
    rdfstoreResourceGetNamespace ct (some (.resource ⟨some id, false, hash⟩)) =
      some (if 0 < k then some ⟨0, k⟩ else none) := by
  unfold rdfstoreResourceGetNamespace
  rw [rdfstoreResourceGetLocalname_of_first hk hname hfirst hash]
  rfl

theorem qnameSplit_of_first :
    QNameSplit ct id.bytes (if 0 < k then some ⟨0, k⟩ else none) ⟨k, id.bytes.length - k⟩ where
  front := by
    intro ns hns
    by_cases h0 : 0 < k
    · rw [if_pos h0, Option.mem_some_iff] at hns
      rw [← hns]
      exact ⟨rfl, h0⟩
    · rw [if_neg h0] at hns
      cases hns
  whole := by
    rw [NamePart.bytes_from]
    by_cases h0 : 0 < k
    · rw [if_pos h0]
      exact List.take_append_drop k id.bytes
    · rw [if_neg h0, Nat.eq_zero_of_not_pos h0]
      rfl
  longest := by
    intro s hs hsname
    rw [NamePart.bytes_from]
    refine ⟨hname, ?_⟩
    obtain ⟨hlt, heq⟩ := exists_drop_of_suffix hs hsname
    -- a longer suffix would have been found at a lower offset
    by_contra hlong
    have hle := hs.length_le
    rw [List.length_drop] at hlong
    have hbefore := hfirst (id.bytes.length - s.length) (by omega)
    rw [← heq, hsname] at hbefore
    exact Bool.false_ne_true hbefore.symm
  no_name := by
    intro hnone
    have hno := hnone _ (List.drop_suffix k id.bytes)
    rw [hname] at hno
    exact absurd hno.symm Bool.false_ne_true

end Found

section NotFound

variable {ct} {id : CBuf} (hnone : ∀ k < id.bytes.length, rdfstoreIsXmlName ct (id.bytes.drop k) = false)
include hnone

theorem rdfstoreResourceGetLocalname_of_none (hash : UInt32) :
    rdfstoreResourceGetLocalname ct (some (.resource ⟨some id, false, hash⟩)) = some (some ⟨0, id.bytes.length⟩) := by
  unfold rdfstoreResourceGetLocalname
  simp only [localnameLoop_of_none none hnone, Option.getD_none]

theorem rdfstoreResourceGetNamespace_of_none (hash : UInt32) :
    rdfstoreResourceGetNamespace ct (some (.resource ⟨some id, false, hash⟩)) = some none := by
  unfold rdfstoreResourceGetNamespace
  rw [rdfstoreResourceGetLocalname_of_none hnone hash]
  rfl

theorem qnameSplit_of_none : QNameSplit ct id.bytes none ⟨0, id.bytes.length⟩ where
  front := by
    intro ns hns
    cases hns
  whole := NamePart.bytes_from id.bytes 0
  longest := by
    intro s hs hsname
    obtain ⟨hlt, heq⟩ := exists_drop_of_suffix hs hsname
    have hno := hnone _ hlt
    rw [← heq, hsname] at hno
    exact absurd hno.symm Bool.false_ne_true
  no_name := fun _ => ⟨rfl, NamePart.bytes_from id.bytes 0⟩

end NotFound

/-- Every URI is split, and two parts that are both there give it back. -/
theorem rdfstoreResource_qnameSplit (ext : Externals) (dd : Digest) (id : CBuf) (hash : UInt32) :
    ∃ ns ln, rdfstoreResourceGetNamespace ct (some (.resource ⟨some id, false, hash⟩)) = some ns ∧
      rdfstoreResourceGetLocalname ct (some (.resource ⟨some id, false, hash⟩)) = some (some ln) ∧
      QNameSplit ct id.bytes ns ln ∧
      ∀ p ∈ ns, Rebuilds ct ext dd (.resource ⟨some id, false, hash⟩) id p ln := by
  by_cases hsome : ∃ k, k < id.bytes.length ∧ rdfstoreIsXmlName ct (id.bytes.drop k) = true
  · obtain ⟨hk, hname⟩ := Nat.find_spec hsome
    have hfirst : ∀ j < Nat.find hsome, rdfstoreIsXmlName ct (id.bytes.drop j) = false := by
      intro j hj
      by_contra hjname
      exact Nat.find_min hsome hj ⟨hj.trans hk, by simpa using hjname⟩
    refine ⟨_, _, rdfstoreResourceGetNamespace_of_first hk hname hfirst hash,
      rdfstoreResourceGetLocalname_of_first hk hname hfirst hash, qnameSplit_of_first hk hname hfirst, ?_⟩
    intro p hp
    by_cases h0 : 0 < Nat.find hsome
    · rw [if_pos h0, Option.mem_some_iff] at hp
      rw [← hp]
      exact rebuilds_of_name ct h0 hk hname ext dd hash
    · rw [if_neg h0] at hp
      cases hp
  · have hnone : ∀ k < id.bytes.length, rdfstoreIsXmlName ct (id.bytes.drop k) = false := by
      intro k hk
      by_contra hname
      exact hsome ⟨k, hk, by simpa using hname⟩
    refine ⟨_, _, rdfstoreResourceGetNamespace_of_none hnone hash, rdfstoreResourceGetLocalname_of_none hnone hash,
      qnameSplit_of_none hnone, ?_⟩
    intro p hp
    cases hp

end RdfStore
