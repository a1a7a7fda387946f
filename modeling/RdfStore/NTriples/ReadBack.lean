import RdfStore.NTriples.Written

/-!
# Reading the terms of a line

    a plain name is read back, and no other                (scanName_of_plain, plain_of_scanName)
    a plain literal is read back, and no other             (scanLiteral_of_plain, plain_of_scanLiteral)
-/

namespace RdfStore.NTriples

open ByteMem Scan

/-! ## A line and its last full stop -/

theorem ppNTriple_eq_asserted {sSource : Option Bytes} {a : UInt8} {t : Bytes} (ha : isWhite a = false)
    (hcomment : a ≠ 0x23) {st : Option Statement} :
    ppNTriple sSource (a :: t ++ [0x2e, 0x20]) = .asserted st ↔
      (∀ b ∈ a :: t, isAllowed b = true) ∧ parseTriple sSource (unescape (a :: t)) = some st := by
  have hblank : isBlank a = false := by
    simp only [isWhite, Bool.or_eq_false_iff] at ha
    simp [isBlank, ha]
  have hlast : (a :: t ++ [0x2e, 0x20]).getLast? = some 0x20 := List.getLast?_append_of_ne_nil _ (by simp)
  have hchomp : chomp (a :: t ++ [0x2e, 0x20]) = a :: t ++ [0x2e, 0x20] := by
    unfold chomp
    rw [hlast, if_neg (by decide)]
  have hstart : trimStart (a :: t ++ [0x2e, 0x20]) = a :: t ++ [0x2e, 0x20] := by
    simp [trimStart, hblank]
  have hend : trimEnd (a :: t ++ [0x2e, 0x20]) = a :: t ++ [0x2e] := by
    have hblank' : isBlank 0x20 = true := by decide
    have hstop : isBlank 0x2e = false := by decide
    unfold trimEnd
    rw [hlast, if_neg (by decide)]
    simp [hblank', hstop]
  have hstrip : stripFullStop (a :: t ++ [0x2e]) = some (a :: t) := by
    have hrev : (a :: t ++ [0x2e]).reverse = 0x2e :: (a :: t).reverse := by simp
    unfold stripFullStop
    rw [hrev]
    simp
  have hallowed : (a :: t ++ [0x2e]).all isAllowed = (a :: t).all isAllowed := by
    have hstop : isAllowed 0x2e = true := by decide
    simp [hstop]
  have hwhite : (a :: t ++ [0x2e]).all isWhite = false := by simp [ha]
  have hhead : (a :: t ++ [0x2e]).head? ≠ some 0x23 := by simpa using hcomment
  unfold ppNTriple
  rw [hchomp, hstart, hend]
  simp only [hhead, hwhite, hallowed, hstrip, if_false, Bool.false_eq_true, Option.bind_some]
  rw [← List.all_eq_true]
  cases hall : (a :: t).all isAllowed with
  | false => simp
  | true =>
    simp only [Bool.not_true, Bool.false_eq_true, if_false, true_and]
    cases parseTriple sSource (unescape (a :: t)) <;> simp

/-! ## Names -/

/-- A URI in angle brackets, or the label of a bNode. -/
def scanName (s : Bytes) : Option (Option Resource × Bytes) :=
  (scanUriref s).map (fun t => (createResource t.1, t.2)) <|>
    (scanNodeId s).map (fun t => (createbNode t.1, t.2))

theorem scanNodeId_of_uriref {s : Bytes} (h : (scanUriref s).isSome) : scanNodeId s = none := by
  cases s with
  | nil => rfl
  | cons a s =>
    have ha : a = 0x3c := by
      by_contra hne
      rw [scanUriref, if_neg fun h => hne h.1] at h
      cases h
    subst ha
    match s with
    | [] => rfl
    | [b] => rfl
    | b :: c :: s =>
      rw [scanNodeId, if_neg]
      exact fun h => absurd h.1 (by decide)

theorem scanSubject_eq (s : Bytes) :
    scanSubject s = (scanName s).bind fun t => (blanks t.2).map fun rest => (t.1, rest) := by
  unfold scanSubject scanName
  cases hu : scanUriref s with
  | none =>
    cases scanNodeId s <;> rfl
  | some t =>
    rw [scanNodeId_of_uriref (by rw [hu]; rfl)]
    simp only [Option.bind_some, Option.map_some, Option.bind_none, Option.map_none]
    cases hb : blanks t.2 <;> simp [hb]

theorem scanObject_eq (s : Bytes) :
    scanObject s =
      match scanName s with
      | some t => some (t.1.map .resource, skipBlanks t.2)
      | none => (scanLiteral s).map fun t => (literalNode t.1, skipBlanks t.2) := by
  unfold scanObject scanName
  cases scanUriref s <;> cases scanNodeId s <;> rfl

theorem scanContext_eq (s : Bytes) :
    scanContext s =
      if s = [] then some none
      else
        match scanName s with
        | some t => some t.1
        | none => if startsWithFullStop s then some none else none := by
  unfold scanContext scanName
  cases scanUriref s <;> cases scanNodeId s <;> rfl

/-! ## Constructors -/

/-- A resource from a C string. -/
theorem contents_resourceNew {x : Bytes} {type : Int} {r : Resource}
    (h : rdfstoreResourceNew (CBuf.ofBytes (cstr x)) type = some r) :
    resourceContents r = .resource (cstr x) (decide (type = 2)) := by
  unfold rdfstoreResourceNew CBuf.ofBytes CBuf.nonEmpty at h
  split at h
  · cases h
  · split at h
    · obtain ⟨id, hid, rfl⟩ := Option.map_eq_some_iff.1 h
      obtain ⟨hsome, -⟩ := Option.filter_eq_some_iff.1 hid
      cases hsome
      rfl
    · cases h

theorem resourceNew_isSome {x : Bytes} (type : Int) (htype : type = 0 ∨ type = 2) (hne : x ≠ []) (h0 : 0 ∉ x)
    (hlen : x.length < 2 ^ 31) : ∃ r, rdfstoreResourceNew (CBuf.ofBytes (cstr x)) type = some r := by
  have hpos : 0 < x.length := List.length_pos_iff.2 hne
  have htype' : ¬ (type ≠ 0 ∧ type ≠ 2) := by omega
  refine ⟨⟨some ⟨x, hlen⟩, decide (type = 2), 0⟩, ?_⟩
  unfold rdfstoreResourceNew CBuf.ofBytes CBuf.nonEmpty
  rw [if_neg htype', cstr_of_not_mem h0, dif_pos hlen]
  simp [Option.filter, hpos]

/-- A NUL, or what stands behind a string, ends the C string. -/
theorem cstr_split (x : Bytes) (d : UInt8) (y : Bytes) :
    ∃ c z, x ++ d :: y = cstr x ++ c :: z ∧ (c = 0 ∨ (c = d ∧ x = cstr x ∧ z = y)) := by
  induction x with
  | nil => exact ⟨d, y, rfl, .inr ⟨rfl, rfl, rfl⟩⟩
  | cons a x ih =>
    by_cases ha : a = 0
    · subst ha
      exact ⟨0, x ++ d :: y, rfl, .inl rfl⟩
    · obtain ⟨c, z, hsplit, hc⟩ := ih
      have hcons : cstr (a :: x) = a :: cstr x := List.takeWhile_cons_of_pos (by simpa using ha)
      refine ⟨c, z, by rw [hcons, List.cons_append, hsplit, List.cons_append], ?_⟩
      rw [hcons, List.cons.injEq]
      exact hc.imp_right fun ⟨hcd, hx, hz⟩ => ⟨hcd, ⟨rfl, hx⟩, hz⟩

/-- What is read as a text was plain, when it ends where it should. -/
theorem plain_of_read {text : List Char} (hsmall : ∀ c ∈ text, c.toNat < 0x100000) {d : UInt8} (hd : Stops d)
    (hd0 : d ≠ 0) {x s y : Bytes} (h : unescape (escapedText text ++ d :: s) = x ++ d :: y)
    (hx : cstr x = utf8 text) : Unharmed text ∧ x = utf8 text ∧ y = unescape s := by
  obtain ⟨c, z, hsplit, hc⟩ := cstr_split x d y
  have hbackslash : c ≠ 0x5c := by
    rcases hc with rfl | ⟨rfl, -⟩
    · decide
    · exact hd.noBackslash
  rw [hsplit, hx] at h
  obtain ⟨hplain, hcd, hz⟩ := plain_of_unescape hsmall hd hbackslash h
  rcases hc with rfl | ⟨-, hx', rfl⟩
  · exact absurd hcd.symm hd0
  · exact ⟨hplain, hx'.trans hx, hz⟩

/-! ## What is read as a name -/

/-- The name of a resource that is read back. -/
def Name.Plain : Name → Prop
  | .uri text => Unharmed text ∧ utf8 text ≠ ascii "0"
  | .bnode _ => True

theorem scanUriref_append {x : Bytes} (hx : 0x3e ∉ x) (y : Bytes) :
    scanUriref (0x3c :: (x ++ 0x3e :: y)) = some (x, y) := by
  rw [scanUriref, if_pos ⟨rfl, by simp⟩, takeWhile_ne_append hx, dropWhile_ne_append hx, List.tail_cons]

theorem scanUriref_cons {s : Bytes} (h : 0x3e ∈ s) :
    ∃ x y, scanUriref (0x3c :: s) = some (x, y) ∧ s = x ++ 0x3e :: y ∧ 0x3e ∉ x := by
  obtain ⟨x, y, rfl, hx⟩ := exists_first_split h
  exact ⟨x, y, scanUriref_append hx y, rfl, hx⟩

theorem scanUriref_of_ne {a : UInt8} (ha : a ≠ 0x3c) (s : Bytes) : scanUriref (a :: s) = none :=
  if_neg fun h => ha h.1

theorem unescape_of_ne {l : Bytes} (h : ∀ b ∈ l, b ≠ 0x5c) (s : Bytes) : unescape (l ++ s) = l ++ unescape s := by
  induction l with
  | nil => rfl
  | cons a l ih =>
    obtain ⟨ha, hl⟩ := List.forall_mem_cons.1 h
    rw [List.cons_append, unescape_cons ha, ih hl, List.cons_append]

theorem stops_rangle : Stops 0x3e := by decide

theorem stops_quote : Stops 0x22 := by decide

theorem stops_blank : Stops 0x20 := by decide

theorem unescape_uri (text : List Char) (s : Bytes) :
    unescape (Name.text (.uri text) ++ s) = 0x3c :: unescape (escapedText text ++ 0x3e :: s) := by
  have h : Name.text (.uri text) ++ s = 0x3c :: (escapedText text ++ 0x3e :: s) := by simp [Name.text]
  rw [h, unescape_cons (by decide)]

theorem rangle_mem_unescape (text : List Char) (s : Bytes) : 0x3e ∈ unescape (escapedText text ++ 0x3e :: s) := by
  rw [unescape_append stops_rangle]
  simp

/-- A URI in angle brackets is always read as some URI. -/
theorem scanName_uri (text : List Char) (s : Bytes) :
    ∃ x y, scanName (unescape (Name.text (.uri text) ++ s)) = some (createResource x, y) ∧
      unescape (escapedText text ++ 0x3e :: s) = x ++ 0x3e :: y ∧ 0x3e ∉ x := by
  obtain ⟨x, y, hscan, hsplit, hx⟩ := scanUriref_cons (rangle_mem_unescape text s)
  refine ⟨x, y, ?_, hsplit, hx⟩
  unfold scanName
  rw [unescape_uri, hscan]
  simp

theorem isLabelChar_ne_backslash {a : UInt8} (h : isLabelChar a = true) : a ≠ 0x5c := by
  rintro rfl
  exact absurd h (by decide)

theorem scanName_bnode {label : Bytes} (hn : (Name.bnode label).WellFormed) (s : Bytes) :
    scanName (unescape (Name.text (.bnode label) ++ 0x20 :: s)) = some (createbNode label, 0x20 :: unescape s) := by
  obtain ⟨a, l, rfl, ha, hl⟩ := hn
  have hlabel : isLabelChar a = true := by simp [isLabelChar, ha]
  have hblank : isLabelChar 0x20 = false := by decide
  have hplain : ∀ b ∈ 0x5f :: 0x3a :: a :: l, b ≠ 0x5c := by
    simp only [List.forall_mem_cons]
    exact ⟨by decide, by decide, isLabelChar_ne_backslash hlabel, fun b hb => isLabelChar_ne_backslash (hl b hb)⟩
  have htake : (l ++ 0x20 :: unescape s).takeWhile isLabelChar = l := by
    rw [List.takeWhile_append_of_pos hl]
    simp [hblank]
  have hdrop : (l ++ 0x20 :: unescape s).dropWhile isLabelChar = 0x20 :: unescape s := by
    rw [List.dropWhile_append_of_pos hl]
    simp [hblank]
  have hscan : scanNodeId (0x5f :: 0x3a :: a :: (l ++ 0x20 :: unescape s)) =
      some (a :: l, 0x20 :: unescape s) := by
    rw [scanNodeId, if_pos ⟨rfl, rfl, ha⟩, htake, hdrop]
  unfold scanName Name.text
  rw [unescape_of_ne hplain, unescape_cons (by decide)]
  simp only [List.cons_append]
  rw [scanUriref_of_ne (by decide), hscan]
  rfl

theorem Name.bytes_ne_nil {n : Name} (hn : n.WellFormed) : n.bytes ≠ [] := by
  cases n with
  | uri text => exact utf8_ne_nil hn.1
  | bnode label =>
    obtain ⟨a, s, rfl, -⟩ := hn
    simp [Name.bytes]

theorem Name.zero_not_mem_bytes {n : Name} (hn : n.WellFormed) : 0 ∉ n.bytes := by
  cases n with
  | uri text => exact not_mem_utf8 (by decide) fun c hc => (hn.2 c hc).2.2.2.2
  | bnode label =>
    have h := Name.zero_not_mem_text hn
    simp only [Name.text, List.mem_cons, not_or] at h
    exact h.2.2

/-- A plain name is read back. -/
theorem scanName_of_plain {n : Name} (hn : n.WellFormed) (hplain : n.Plain) (hlen : n.bytes.length < 2 ^ 31)
    (s : Bytes) : ∃ r, scanName (unescape (n.text ++ 0x20 :: s)) = some (some r, 0x20 :: unescape s) ∧
      resourceContents r = n.contents := by
  have hne := Name.bytes_ne_nil hn
  have h0 := Name.zero_not_mem_bytes hn
  cases n with
  | uri text =>
    obtain ⟨r, hr⟩ := resourceNew_isSome 0 (.inl rfl) hne h0 hlen
    have hcontents := contents_resourceNew hr
    rw [cstr_of_not_mem h0] at hcontents
    refine ⟨r, ?_, hcontents⟩
    have hresource : createResource (utf8 text) = some r := by
      rw [createResource, if_neg (by exact not_or.2 ⟨hne, hplain.2⟩)]
      exact hr
    have hrangle : 0x3e ∉ utf8 text := not_mem_utf8 (by decide) fun c hc => (hn.2 c hc).2.1
    unfold scanName
    rw [unescape_uri, unescape_escaped hplain.1 (stops_rangle.noHexHead _), unescape_cons (by decide),
      unescape_cons (by decide), scanUriref_append hrangle]
    simp [hresource]
  | bnode label =>
    obtain ⟨r, hr⟩ := resourceNew_isSome 2 (.inr rfl) hne h0 hlen
    have hcontents := contents_resourceNew hr
    rw [cstr_of_not_mem h0] at hcontents
    refine ⟨r, ?_, hcontents⟩
    rw [scanName_bnode hn, createbNode]
    exact congrArg (fun r => some (r, 0x20 :: unescape s)) hr

theorem contents_createResource {x : Bytes} {r : Resource} (h : createResource x = some r) :
    resourceContents r = .resource (cstr x) false ∧ x ≠ ascii "0" := by
  unfold createResource at h
  split at h
  · cases h
  · next hx => exact ⟨contents_resourceNew h, fun h0 => hx (.inr h0)⟩

/-- What is read back was plain. -/
theorem plain_of_scanName {n : Name} (hn : n.WellFormed) (hsmall : n.Small) {s rest : Bytes} {r : Resource}
    (h : scanName (unescape (n.text ++ 0x20 :: s)) = some (some r, rest)) (hr : resourceContents r = n.contents) :
    n.Plain := by
  cases n with
  | uri text =>
    obtain ⟨x, y, hscan, hsplit, -⟩ := scanName_uri text (0x20 :: s)
    rw [hscan, Option.some_inj, Prod.mk.injEq] at h
    obtain ⟨hcontents, hx0⟩ := contents_createResource h.1
    rw [hr] at hcontents
    have hx : cstr x = utf8 text := by
      injection hcontents with hbytes
      exact hbytes.symm
    obtain ⟨hplain, rfl, -⟩ := plain_of_read hsmall stops_rangle (by decide) hsplit hx
    exact ⟨hplain, hx0⟩
  | bnode label => trivial

/-! ## The subject, which may come from elsewhere -/

/-- The first character of a text that is read. -/
theorem head_of_read {a : Char} {text : List Char} (ha : a.toNat < 0x100000) {s z : Bytes} {c : UInt8}
    (hc : c < 0x80) (hbackslash : c ≠ 0x5c) (h : unescape (escapedText (a :: text) ++ s) = c :: z) :
    a.toNat = c.toNat ∧ unescape (escapedText text ++ s) = z := by
  rw [escapedText_cons, List.append_assoc] at h
  by_cases hspecial : IsSpecial a.toNat
  · obtain ⟨w, hw, -⟩ := unescape_special hspecial (escapedText text ++ s)
    rw [hw] at h
    exact absurd (List.cons.inj h).1.symm hbackslash
  by_cases hascii : a.toNat < 0x80
  · rw [escaped_ascii hascii hspecial, List.singleton_append, unescape_cons (toUInt8_ne_backslash hascii hspecial)] at h
    obtain ⟨rfl, hz⟩ := List.cons.inj h
    exact ⟨(toUInt8_eq_iff (by omega) _).1 rfl, hz⟩
  · obtain ⟨more, -, hlt, hun⟩ := unescape_wide (not_lt.1 hascii) ha (escapedText text ++ s)
    rw [hun] at h
    have hval := cpToUtf8_head hc h
    have hc' : c.toNat < 0x80 := hc
    have hpos : 0 < 16 ^ more.length := Nat.pow_pos (by decide)
    have hle : a.toNat ≤ a.toNat * 16 ^ more.length := Nat.le_mul_of_pos_right _ hpos
    omega

/-- What is read for a URI is not empty, and `0` only for `0`. -/
theorem read_ne {text : List Char} (hn : (Name.uri text).WellFormed) (hsmall : (Name.uri text).Small)
    (hzero : utf8 text ≠ ascii "0") {x s y : Bytes} (h : unescape (escapedText text ++ 0x3e :: s) = x ++ 0x3e :: y) :
    cstr x ≠ [] ∧ cstr x ≠ ascii "0" := by
  obtain ⟨c, z, hsplit, hc⟩ := cstr_split x 0x3e y
  have hc' : c < 0x80 ∧ c ≠ 0x5c ∧ (c = 0 ∨ c = 0x3e) := by
    rcases hc with rfl | ⟨rfl, -⟩
    · decide
    · decide
  have hend : ∀ (a : Char) (text' : List Char) (s z : Bytes), IsUriChar a → a.toNat < 0x100000 →
      unescape (escapedText (a :: text') ++ s) ≠ c :: z := by
    intro a text' s z ha hlt heq
    obtain ⟨hval, -⟩ := head_of_read hlt hc'.1 hc'.2.1 heq
    rcases hc'.2.2 with rfl | rfl
    · exact ha.2.2.2.2 hval
    · exact ha.2.1 hval
  rw [hsplit] at h
  obtain ⟨a, text, rfl⟩ := List.exists_cons_of_ne_nil hn.1
  obtain ⟨ha, htext⟩ := List.forall_mem_cons.1 hn.2
  obtain ⟨hlt, hsmall'⟩ := List.forall_mem_cons.1 hsmall
  refine ⟨fun hnil => ?_, fun hz => ?_⟩
  · rw [hnil, List.nil_append] at h
    exact hend a text _ _ ha hlt h
  · rw [hz] at h
    obtain ⟨hval, hrest⟩ := head_of_read (c := 0x30) hlt (by decide) (by decide) h
    cases text with
    | nil =>
      refine hzero ?_
      rw [utf8_cons, hval]
      rfl
    | cons b text =>
      obtain ⟨hb, -⟩ := List.forall_mem_cons.1 htext
      obtain ⟨hlt', -⟩ := List.forall_mem_cons.1 hsmall'
      exact hend b text _ _ hb hlt' hrest

theorem createResource_isSome {x : Bytes} (h1 : cstr x ≠ []) (h2 : cstr x ≠ ascii "0")
    (hlen : (cstr x).length < 2 ^ 31) : ∃ r, createResource x = some r ∧ r.bytes = cstr x := by
  have hx : ¬ (x = [] ∨ x = ascii "0") := by
    rintro (rfl | rfl)
    · exact h1 rfl
    · exact h2 (by decide)
  obtain ⟨r, hr⟩ := @resourceNew_isSome (cstr x) 0 (.inl rfl) h1 (not_mem_cstr x) hlen
  rw [cstr_of_not_mem (not_mem_cstr x)] at hr
  have hcontents := contents_resourceNew hr
  refine ⟨r, ?_, ?_⟩
  · rw [createResource, if_neg hx, hr]
  · injection hcontents

/-- What is read for a URI is no longer than what was written. -/
theorem length_read_le {text : List Char} {x s y : Bytes} (hx : 0x3e ∉ x)
    (h : unescape (escapedText text ++ 0x3e :: s) = x ++ 0x3e :: y) :
    (cstr x).length ≤ (Name.uri text).room - 4 := by
  rw [unescape_append stops_rangle] at h
  obtain ⟨u, hu, -⟩ := split_of_not_mem_left hx h.symm
  have h1 : (cstr x).length ≤ x.length := (List.takeWhile_sublist _).length_le
  have h2 : x.length ≤ (unescape (escapedText text)).length := by
    rw [hu, List.length_append]
    exact Nat.le_add_right _ _
  have h3 := (length_unescape_le (escapedText text)).1
  have h4 := writtenSize_le text
  rw [length_escapedText] at h3
  simp only [Name.room]
  omega

/-- A subject that is missing or false is replaced by the source; that never makes up for what was not
read. -/
theorem plain_of_subject {n : Name} (hn : n.WellFormed) (hsmall : n.Small) (hroom : n.room ≤ 2 ^ 31)
    {sSource : Option Bytes} (hsource : ∀ source ∈ sSource, 0 ∉ source) {s rest : Bytes} {o : Option Resource}
    {r : Resource} (h : scanName (unescape (n.text ++ 0x20 :: s)) = some (o, rest))
    (hr : ((o.filter fun r => r.bytes ≠ [] ∧ r.bytes ≠ ascii "0") <|> sSource.bind createResource) = some r)
    (hcontents : resourceContents r = n.contents) : n.Plain := by
  cases n with
  | bnode label => trivial
  | uri text =>
    obtain ⟨x, y, hscan, hsplit, hx⟩ := scanName_uri text (0x20 :: s)
    have hbytes : r.bytes = utf8 text := by injection hcontents
    rw [hscan, Option.some_inj, Prod.mk.injEq] at h
    obtain ⟨rfl, rfl⟩ := h
    have hzero : utf8 text ≠ ascii "0" := by
      intro hzero
      cases hf : (createResource x).filter fun r => r.bytes ≠ [] ∧ r.bytes ≠ ascii "0" with
      | some r' =>
        rw [hf] at hr
        obtain rfl : r' = r := Option.some_inj.1 hr
        have hfilter := (Option.filter_eq_some_iff.1 hf).2
        simp only [decide_eq_true_eq] at hfilter
        exact hfilter.2 (hbytes.trans hzero)
      | none =>
        rw [hf] at hr
        obtain ⟨source, hsrc, hres⟩ := Option.bind_eq_some_iff.1 (show sSource.bind createResource = some r from hr)
        obtain ⟨hcon, hne⟩ := contents_createResource hres
        rw [cstr_of_not_mem (hsource source hsrc)] at hcon
        have hsame : r.bytes = source := by injection hcon
        exact hne (hsame.symm.trans (hbytes.trans hzero))
    obtain ⟨hne, hne0⟩ := read_ne hn hsmall hzero hsplit
    have hlen := length_read_le hx hsplit
    obtain ⟨r', hr', hbytes'⟩ := createResource_isSome hne hne0 (by omega)
    have hsame : r' = r := by
      have hfilter : (some r').filter (fun r => r.bytes ≠ [] ∧ r.bytes ≠ ascii "0") = some r' := by
        rw [Option.filter_some, if_pos]
        simpa [hbytes'] using ⟨hne, hne0⟩
      rw [hr', hfilter] at hr
      exact Option.some_inj.1 hr
    rw [hr', hsame] at hscan
    exact plain_of_scanName hn hsmall hscan hcontents

end RdfStore.NTriples
