import RdfStore.SiRPAC.Regions

/-!
# The subject of a node element

An element with `rdf:about`, `rdf:ID` or `rdf:nodeID` is called by it; another one is
called by a new bNode from its first property on. One step of `processDescription`
either says nothing or calls a property with the name.
-/

namespace RdfStore.SiRPAC

open ByteMem Emission

/-! ## New bNodes -/

/-- The characters of a number written in decimal. -/
theorem decimal_chars (n : ℕ) : (decimal n).map (fun b => Char.ofNat b.toNat) = Nat.toDigits 10 n := by
  unfold decimal
  rw [List.map_map]
  refine (List.map_congr_left fun c hc => ?_).trans (List.map_id _)
  have hdigit := Nat.isDigit_of_mem_toDigits (b := 10) (by decide) (by decide) hc
  simp only [Char.isDigit, Bool.and_eq_true, decide_eq_true_eq] at hdigit
  have h9 : c.toNat ≤ 57 := UInt32.le_iff_toNat_le.mp hdigit.2
  have hlt : c.toNat < 256 := by omega
  show Char.ofNat c.toNat.toUInt8.toNat = c
  rw [ByteMem.toNat_toUInt8_of_lt hlt, Char.ofNat_toNat]

theorem decimal_injective {n m : ℕ} (h : decimal n = decimal m) : n = m := by
  have hlist : Nat.toDigits 10 n = Nat.toDigits 10 m := by rw [← decimal_chars n, ← decimal_chars m, h]
  have hv := congrArg (fun l => Nat.ofDigitChars 10 l 0) hlist
  simpa only [Nat.ofDigitChars_ten_toDigits] using hv

theorem Expat.genid_injective {x : Expat} {n m : ℕ} (h : x.genid n = x.genid m) : n = m :=
  decimal_injective (List.append_cancel_left (List.append_cancel_left h))

section

variable (x : Expat) (n : ℕ)

/-- The name of a new bNode behind the prefix. -/
def Expat.genlabel : Bytes := (x.genid n).drop nodeIDPrefix.length

theorem Expat.genid_prefix : nodeIDPrefix.isPrefixOf (x.genid n) = true := by
  rfl

theorem Expat.genid_eq : x.genid n = nodeIDPrefix ++ x.genlabel n := by
  rfl

@[simp] theorem given_genid : given (some (x.genid n)) = some (x.genid n) := rfl

@[simp] theorem normalize_genid : x.normalize (x.genid n) = x.genid n := by
  unfold Expat.normalize normalizeResourceIdentifier
  rw [if_pos (x.genid_prefix n)]

/-- The bNode with a number. -/
def Expat.gen : Resource := .bnode (x.genlabel n)

@[simp] theorem buildResource_genid : buildResource (x.genid n) = some (x.gen n) := by
  rfl

@[simp] theorem orSource_gen : orSource x (some (x.gen n)) = some (x.gen n) := by
  rfl
end

theorem Expat.gen_injective {x : Expat} {n m : ℕ} (h : x.gen n = x.gen m) : n = m := by
  have hl : x.genlabel n = x.genlabel m := Resource.bnode.inj h
  refine Expat.genid_injective (x := x) ?_
  rw [x.genid_eq, x.genid_eq, hl]

/-! ## Names -/

@[simp] theorem given_none : given none = none := rfl

theorem given_eq_some {s : Option Bytes} {t : Bytes} (h : given s = some t) : s = some t ∧ t ≠ [] := by
  obtain ⟨hs, ht⟩ := Option.filter_eq_some_iff.mp h
  exact ⟨hs, of_decide_eq_true ht⟩

theorem given_some {t : Bytes} (h : t ≠ []) : given (some t) = some t := by
  simp only [given, Option.filter_some, decide_eq_true h, if_true]

/-- What a node element is called by its attributes. -/
def Element.identity (e : Element) : Option Bytes := (given e.sAbout).or (given e.sID)

theorem identity_of_about {e : Element} {S : Bytes} (h : given e.sAbout = some S) : e.identity = some S := by
  rw [Element.identity, h, Option.some_or]

theorem identity_of_sID {e : Element} {S : Bytes} (ha : given e.sAbout = none) (h : given e.sID = some S) :
    e.identity = some S := by
  rw [Element.identity, ha, h, Option.none_or]

/-- The attributes identify the element as one, and `rdf:nodeID` and a bNode in `rdf:about` are kept in `sAbout`. -/
structure Element.Identified (e : Element) : Prop where
  one : ∀ a i, given e.sAbout = some a → given e.sID = some i → a = i
  nodeID : given e.sAbout = none → e.nodeID = none
  about : given e.sAbout = none →
    nodeIDPrefix.isPrefixOf ((getAttributeValue e.attlist (rdfms "about")).getD []) = false

/-- What the description is called when its next property comes. -/
def DescriptionState.name (st : DescriptionState) : Option Bytes := (given st.sAbout).or (given st.sID)

/-- Of two names one cannot tell which is asked for. -/
def DescriptionState.Coherent (st : DescriptionState) : Prop :=
  ∀ a i, given st.sAbout = some a → given st.sID = some i → a = i

/-- Without a name the element has not got one yet. -/
def DescriptionState.Fresh (e : Element) (st : DescriptionState) : Prop :=
  st.name = none → given st.eleID = none ∧ given e.sAbout = none

/-- The name a description is called by from the number `n` on, and the next number. -/
def Called (x : Expat) (st : DescriptionState) (n : ℕ) (S : Bytes) (k : ℕ) : Prop :=
  st.name = some S ∧ n ≤ k ∨ st.name = none ∧ S = x.genid n ∧ k = n + 1

theorem name_eq_none {st : DescriptionState} (h : st.name = none) : given st.sAbout = none ∧ given st.sID = none :=
  Option.or_eq_none_iff.mp h

section Steps

variable {x : Expat} {path : Path} {e : Element} {st st' : DescriptionState} {n m : ℕ} {l : List Assertion}

theorem runs_newReificationID {id : Bytes} :
    Runs (newReificationID x) n id m l ↔ x.genid n = id ∧ n + 1 = m ∧ l = [] := by
  unfold newReificationID
  rw [runs_bind]
  constructor
  · rintro ⟨k, m', l₁, l₂, h₁, h₂, rfl⟩
    obtain ⟨rfl, rfl, rfl⟩ := runs_draw.mp h₁
    obtain ⟨rfl, rfl, rfl⟩ := runs_pure.mp h₂
    exact ⟨rfl, rfl, rfl⟩
  · rintro ⟨rfl, rfl, rfl⟩
    exact ⟨n, n + 1, [], [], runs_draw.mpr ⟨rfl, rfl, rfl⟩, runs_pure.mpr ⟨rfl, rfl, rfl⟩, rfl⟩

theorem runs_orNew_none {id : Bytes} : Runs (orNew x none) n id m l ↔ x.genid n = id ∧ n + 1 = m ∧ l = [] :=
  runs_newReificationID

theorem runs_orNew_some {t id : Bytes} : Runs (orNew x (some t)) n id m l ↔ t = id ∧ n = m ∧ l = [] := runs_pure

/-- A member calls the description by its name, which is a new one if it had none. -/
theorem memberSubject_called (hf : st.Fresh e) (hid : e.Identified) (hco : st.Coherent)
    (h : Runs (memberSubject x e st) n st' m l) :
    ∃ S, Called x st n S m ∧ l = [] ∧ ((given st'.sID).or (given st'.sAbout)).getD [] = S ∧ st'.name = some S ∧
      st'.Coherent ∧ st'.sAbout = st.sAbout ∧ st'.eleID = (if st.name = none then some S else st.eleID) := by
  unfold memberSubject at h
  cases hn : (given st.sID).or (given st.sAbout) with
  | none =>
    obtain ⟨hsID, hsAbout⟩ := Option.or_eq_none_iff.mp hn
    have hname : st.name = none := Option.or_eq_none_iff.mpr ⟨hsAbout, hsID⟩
    obtain ⟨heleID, hAbout⟩ := hf hname
    rw [hn, hid.nodeID hAbout] at h
    obtain ⟨id, k, l₁, l₂, h₁, h₂, rfl⟩ := runs_bind.mp h
    obtain ⟨rfl, rfl, rfl⟩ := runs_orNew_none.mp h₁
    obtain ⟨rfl, rfl, rfl⟩ := runs_pure.mp h₂
    refine ⟨x.genid n, .inr ⟨hname, rfl, rfl⟩, rfl, rfl, ?_, ?_, rfl, ?_⟩
    · simp only [DescriptionState.name, hsAbout, given_genid, Option.none_or]
    · intro a i ha _
      rw [hsAbout] at ha
      exact absurd ha (Option.some_ne_none a).symm
    · rw [if_pos hname]
  | some S =>
    rw [hn] at h
    obtain ⟨rfl, rfl, rfl⟩ := runs_pure.mp h
    have hname : st.name = some S := by
      unfold DescriptionState.name
      cases ha : given st.sAbout with
      | none => rwa [ha, Option.or_none] at hn
      | some a =>
        cases hi : given st.sID with
        | none => rwa [ha, hi, Option.none_or] at hn
        | some i =>
          rw [hi, Option.some_or] at hn
          rw [Option.some_or, hco a i ha hi]
          exact hn
    refine ⟨S, .inl ⟨hname, Nat.le_refl _⟩, rfl, by rw [hn]; rfl, hname, hco, rfl, ?_⟩
    rw [hname, if_neg (Option.some_ne_none S)]

theorem Called.ne_nil {S : Bytes} (h : Called x st n S m) : S ≠ [] := by
  rcases h with ⟨hname, -⟩ | ⟨-, rfl, -⟩
  · unfold DescriptionState.name at hname
    cases ha : given st.sAbout with
    | some a =>
      rw [ha, Option.some_or] at hname
      rw [← Option.some.inj hname]
      exact (given_eq_some ha).2
    | none =>
      rw [ha, Option.none_or] at hname
      exact (given_eq_some hname).2
  · exact (given_eq_some (given_genid x n)).2

/-- With a name for the next property. -/
theorem DescriptionState.coherent_of_eq {S : Bytes} (ha : given st'.sAbout = some S) (hi : st'.sID = st.sID)
    (hco : st.Coherent) (hname : st.name = some S ∨ st.name = none) : st'.Coherent := by
  intro a i ha' hi'
  rw [ha] at ha'
  rw [← Option.some.inj ha']
  rw [hi] at hi'
  rcases hname with hname | hname
  · unfold DescriptionState.name at hname
    cases hab : given st.sAbout with
    | some b =>
      rw [hab, Option.some_or] at hname
      rw [← Option.some.inj hname]
      exact hco b i hab hi'
    | none =>
      rw [hab, Option.none_or, hi'] at hname
      exact (Option.some.inj hname).symm
  · rw [(name_eq_none hname).2] at hi'
    exact absurd hi' (Option.some_ne_none i).symm

theorem topID_runs {id : Bytes} (h : Runs (topID x e st.eleID) n id m l) : n ≤ m ∧ l = [] := by
  unfold topID at h
  split at h
  · obtain ⟨-, rfl, rfl⟩ := runs_pure.mp h
    exact ⟨Nat.le_refl _, rfl⟩
  · dsimp only at h
    split_ifs at h
    · obtain ⟨-, rfl, rfl⟩ := runs_pure.mp h
      exact ⟨Nat.le_refl _, rfl⟩
    · cases hg : given st.eleID with
      | none =>
        rw [hg] at h
        obtain ⟨-, rfl, rfl⟩ := runs_orNew_none.mp h
        exact ⟨Nat.le_succ _, rfl⟩
      | some id' =>
        rw [hg] at h
        obtain ⟨-, rfl, rfl⟩ := runs_orNew_some.mp h
        exact ⟨Nat.le_refl _, rfl⟩

/-- Outside a predicate a property calls the description by its name. -/
theorem topSubject_called (hf : st.Fresh e) (hid : e.Identified) (h : Runs (topSubject x e st) n st' m l) :
    ∃ S, Called x st n S m ∧ l = [] ∧ st'.sAbout = some S ∧ st'.sID = st.sID := by
  unfold topSubject at h
  obtain ⟨id, k, l₁, l₂, h₁, h₂, rfl⟩ := runs_bind.mp h
  obtain ⟨rfl, rfl, rfl⟩ := runs_pure.mp h₂
  cases hname : st.name with
  | none =>
    obtain ⟨ha, hi⟩ := name_eq_none hname
    obtain ⟨heleID, hAbout⟩ := hf hname
    have hnew : Runs (orNew x none) n id k l₁ := by
      unfold topID at h₁
      rw [hid.nodeID hAbout, heleID] at h₁
      dsimp only at h₁
      rw [hid.about hAbout] at h₁
      exact h₁
    obtain ⟨rfl, rfl, rfl⟩ := runs_orNew_none.mp hnew
    refine ⟨x.genid n, .inr ⟨hname, rfl, rfl⟩, rfl, ?_, rfl⟩
    rw [ha, hi, Option.getD_none, Option.getD_none]
  | some S =>
    obtain ⟨hk, rfl⟩ := topID_runs h₁
    refine ⟨S, .inl ⟨hname, hk⟩, rfl, ?_, rfl⟩
    unfold DescriptionState.name at hname
    cases ha : given st.sAbout with
    | some a =>
      rw [ha, Option.some_or] at hname
      exact hname
    | none =>
      rw [ha, Option.none_or] at hname
      rw [Option.getD_none, hname, Option.getD_some]

/-- What the element is called inside a predicate behind a property. -/
def innerID (x : Expat) (st : DescriptionState) (S : Bytes) : Bytes :=
  match given st.sAbout, given st.sID with
  | none, some _ => x.normalize S
  | _, _ => S

/-- Inside a predicate a property calls the description by its name. -/
theorem innerSubject_called (hf : st.Fresh e) (hid : e.Identified) (h : Runs (innerSubject x e st) n st' m l) :
    ∃ S, Called x st n S m ∧ l = [] ∧ given st'.sAbout = some S ∧ st'.sID = st.sID ∧
      st'.eleID = some (innerID x st S) := by
  unfold innerSubject at h
  unfold innerID
  cases ha : given st.sAbout with
  | some a =>
    rw [ha] at h
    obtain ⟨rfl, rfl, rfl⟩ := runs_pure.mp h
    refine ⟨a, .inl ⟨?_, Nat.le_refl _⟩, rfl, ha, rfl, rfl⟩
    rw [DescriptionState.name, ha, Option.some_or]
  | none =>
    cases hi : given st.sID with
    | some i =>
      rw [ha, hi] at h
      obtain ⟨rfl, rfl, rfl⟩ := runs_pure.mp h
      refine ⟨i, .inl ⟨?_, Nat.le_refl _⟩, rfl, given_some (given_eq_some hi).2, rfl, rfl⟩
      rw [DescriptionState.name, ha, hi, Option.none_or]
    | none =>
      have hname : st.name = none := Option.or_eq_none_iff.mpr ⟨ha, hi⟩
      obtain ⟨heleID, hAbout⟩ := hf hname
      rw [ha, hi, heleID, hid.nodeID hAbout] at h
      obtain ⟨id, k, l₁, l₂, h₁, h₂, rfl⟩ := runs_bind.mp h
      obtain ⟨rfl, rfl, rfl⟩ := runs_orNew_none.mp h₁
      obtain ⟨rfl, rfl, rfl⟩ := runs_pure.mp h₂
      exact ⟨x.genid n, .inr ⟨hname, rfl, rfl⟩, rfl, given_genid x n, rfl, rfl⟩

/-- A bag changes no name. -/
theorem bagProperty_runs {sChildID : Option Bytes} (h : Runs (bagProperty x path e st sChildID) n st' m l) :
    n ≤ m ∧ (∀ a ∈ l, a.role = .bag path) ∧ st'.sID = st.sID ∧ st'.sAbout = st.sAbout ∧
      ∀ id, given st.eleID = some id → st'.eleID = some id := by
  obtain ⟨hm, hl⟩ := says_bagProperty (Q := fun a => a.role = .bag path) (fun _ => rfl) h
  refine ⟨hm, hl, ?_⟩
  unfold bagProperty at h
  split at h
  · obtain ⟨rfl, -, -⟩ := runs_pure.mp h
    exact ⟨rfl, rfl, fun id hid => (given_eq_some hid).1⟩
  · obtain ⟨st₁, k, l₁, l₂, h₁, h₂, -⟩ := runs_bind.mp h
    obtain ⟨_, k', l₃, l₄, -, h₃, -⟩ := runs_bind.mp h₂
    obtain ⟨rfl, -, -⟩ := runs_pure.mp h₃
    unfold newBag at h₁
    split_ifs at h₁
    · obtain ⟨_, k₂, l₅, l₆, -, h₄, -⟩ := runs_bind.mp h₁
      obtain ⟨_, k₃, l₇, l₈, -, h₅, -⟩ := runs_bind.mp h₄
      obtain ⟨rfl, -, -⟩ := runs_pure.mp h₅
      refine ⟨rfl, rfl, fun id hid => ?_⟩
      show (given st.eleID).or _ = some id
      rw [hid, Option.some_or]
    · obtain ⟨rfl, -, -⟩ := runs_pure.mp h₁
      exact ⟨rfl, rfl, fun id hid => (given_eq_some hid).1⟩

/-- A property is called with the name of the description, and behind it the name is the same. -/
structure Calling (x : Expat) (path : Path) (st : DescriptionState) (calls : Calls) (n : ℕ) (st' : DescriptionState)
    (m : ℕ) (l : List Assertion) (S : Bytes) : Prop where
  run : ∃ k tag reify r m' l₁ l₂, Called x st n S k ∧ Runs (calls.processPredicate tag S reify) k r m' l₁ ∧
    l = l₁ ++ l₂ ∧ (∀ a ∈ l₂, a.role = .bag path) ∧ m' ≤ m
  name : st'.name = some S
  coherent : st'.Coherent

theorem describeMember_calling (hf : st.Fresh e) (hid : e.Identified) (hco : st.Coherent) {reify : Bool} {c : Element}
    {calls : Calls} (h : Runs (describeMember x e reify st c calls) n st' m l) :
    ∃ S, Calling x path st calls n st' m l S ∧ st'.sAbout = st.sAbout ∧
      st'.eleID = (if st.name = none then some S else st.eleID) := by
  obtain ⟨st₁, k, l₁, l₂, h₁, h₂, rfl⟩ := runs_bind.mp h
  obtain ⟨r, k', l₃, l₄, h₃, h₄, rfl⟩ := runs_bind.mp h₂
  obtain ⟨rfl, rfl, rfl⟩ := runs_pure.mp h₄
  obtain ⟨S, hS, rfl, harg, hname, hco', hab, hele⟩ := memberSubject_called hf hid hco h₁
  rw [harg] at h₃
  refine ⟨S, ⟨⟨k, _, _, r, k', l₃, [], hS, h₃, ?_, fun a ha => absurd ha List.not_mem_nil, Nat.le_refl _⟩,
    hname, hco'⟩, hab, hele⟩
  rw [List.nil_append]

theorem propertySubject_called (hf : st.Fresh e) (hid : e.Identified) {inPredicate : Bool}
    (h : Runs (propertySubject x e inPredicate st) n st' m l) :
    ∃ S, Called x st n S m ∧ l = [] ∧ given st'.sAbout = some S ∧ st'.sID = st.sID ∧
      (inPredicate = true → st'.eleID = some (innerID x st S)) := by
  cases inPredicate with
  | true =>
    obtain ⟨S, hS, hl, ha, hi, he⟩ := innerSubject_called hf hid h
    exact ⟨S, hS, hl, ha, hi, fun _ => he⟩
  | false =>
    obtain ⟨S, hS, hl, ha, hi⟩ := topSubject_called hf hid h
    refine ⟨S, hS, hl, ?_, hi, fun hp => absurd hp Bool.false_ne_true⟩
    rw [ha]
    exact given_some hS.ne_nil

theorem describeProperty_calling (hf : st.Fresh e) (hid : e.Identified) (hco : st.Coherent)
    {inPredicate reify createBag : Bool} {c : Element} {calls : Calls}
    (h : Runs (describeProperty x path e inPredicate reify createBag st c calls) n st' m l) :
    ∃ S, Calling x path st calls n st' m l S ∧ given st'.sAbout = some S ∧
      (inPredicate = true → given e.sBagID = none ∨ innerID x st S ≠ [] → createBag = false →
        st'.eleID = some (innerID x st S)) := by
  unfold describeProperty at h
  by_cases hl : !inPredicate ∧ c.literalReference
  · rw [if_pos hl] at h
    exact absurd h runs_croak.mp
  · rw [if_neg hl] at h
    obtain ⟨st₁, k, l₁, l₂, h₁, h₂, rfl⟩ := runs_bind.mp h
    obtain ⟨r, k', l₃, l₄, h₃, h₄, rfl⟩ := runs_bind.mp h₂
    obtain ⟨S, hS, rfl, hab, hi, hele⟩ := propertySubject_called hf hid h₁
    rw [(given_eq_some hab).1, Option.getD_some] at h₃
    have hname : st.name = some S ∨ st.name = none := by
      rcases hS with ⟨hn, -⟩ | ⟨hn, -⟩
      · exact .inl hn
      · exact .inr hn
    split_ifs at h₄ with hbag
    · obtain ⟨hm, hl₄, hi', hab', hele'⟩ := bagProperty_runs h₄
      have hab₂ : given st'.sAbout = some S := by rw [hab', hab]
      refine ⟨S, ⟨⟨k, _, _, r, k', l₃, l₄, hS, h₃, by rw [List.nil_append], hl₄, hm⟩, ?_,
        DescriptionState.coherent_of_eq hab₂ (hi'.trans hi) hco hname⟩, hab₂, fun hp hno hcb => ?_⟩
      · rw [DescriptionState.name, hab₂, Option.some_or]
      · rcases hno with hno | hne
        · rw [hno, hcb] at hbag
          simp only [Option.isSome_none, Bool.false_eq_true, and_false, or_self] at hbag
        · refine hele' _ ?_
          rw [hele hp]
          exact given_some hne
    · obtain ⟨rfl, rfl, rfl⟩ := runs_pure.mp h₄
      refine ⟨S, ⟨⟨k, _, _, r, k', l₃, [], hS, h₃, by rw [List.nil_append],
        fun a ha => absurd ha List.not_mem_nil, Nat.le_refl _⟩, ?_,
        DescriptionState.coherent_of_eq hab hi hco hname⟩, hab, fun hp _ _ => hele hp⟩
      rw [DescriptionState.name, hab, Option.some_or]

/-! ## One step -/

/-- A child that a description takes for a member. -/
def Child.isMember : Child → Bool
  | .data _ => false
  | .element n _ _ => n.isMember

/-- A child that a description takes for a property. -/
def Child.isProperty : Child → Bool
  | .data _ => false
  | .element n _ _ => !n.isMember && n.isOther

/-- One child of a description: nothing happens, or the child is called. -/
theorem describeChild_cases (hf : st.Fresh e) (hid : e.Identified) (hco : st.Coherent)
    {inPredicate reify createBag : Bool} {c : Child}
    (h : Runs (describeChild x path e inPredicate reify createBag st c) n st' m l) :
    (c.isMember = false ∧ c.isProperty = false ∧ st = st' ∧ n = m ∧ l = []) ∨
    ∃ b q calls S, c = .element b q calls ∧ Calling x path st calls n st' m l S ∧
      ((c.isMember = true ∧ st'.sAbout = st.sAbout ∧ st'.eleID = (if st.name = none then some S else st.eleID)) ∨
       (c.isMember = false ∧ c.isProperty = true ∧ given st'.sAbout = some S ∧
        (inPredicate = true → given e.sBagID = none ∨ innerID x st S ≠ [] → createBag = false →
          st'.eleID = some (innerID x st S)))) := by
  cases c with
  | data d =>
    obtain ⟨rfl, rfl, rfl⟩ := runs_pure.mp h
    exact .inl ⟨rfl, rfl, rfl, rfl, rfl⟩
  | element b q calls =>
    simp only [describeChild] at h
    split_ifs at h with hd hmem hother
    · exact absurd h runs_croak.mp
    · obtain ⟨S, hcall, hab, hele⟩ := @describeMember_calling x path _ _ _ _ _ _ hf hid hco _ _ _ h
      exact .inr ⟨b, q, calls, S, rfl, hcall, .inl ⟨hmem, hab, hele⟩⟩
    · obtain ⟨S, hcall, hab, hele⟩ := describeProperty_calling hf hid hco h
      have hmem : b.isMember = false := Bool.eq_false_iff.mpr hmem
      refine .inr ⟨b, q, calls, S, rfl, hcall, .inr ⟨hmem, ?_, hab, hele⟩⟩
      show (!b.isMember && b.isOther) = true
      rw [hmem, hother]
      rfl
    · obtain ⟨rfl, rfl, rfl⟩ := runs_pure.mp h
      have hmem : b.isMember = false := Bool.eq_false_iff.mpr hmem
      refine .inl ⟨hmem, ?_, rfl, rfl, rfl⟩
      show (!b.isMember && b.isOther) = false
      rw [Bool.eq_false_iff.mpr hother, Bool.and_false]

/-! ## The loop -/

/-- About a node element: its type, and what its properties state. -/
def About (q : Path) (a : Assertion) : Prop := a.role = .type q ∨ ∃ s, a.role.states = some (s :: q)

/-- All that is said about the element is said of the resource with the name. -/
def AboutAll (x : Expat) (q : Path) (S : Bytes) (l : List Assertion) : Prop :=
  ∀ a ∈ l, About q a → orSource x (buildResource S) = some a.statement.subject

theorem AboutAll.append {S : Bytes} {l₁ l₂ : List Assertion} (h₁ : AboutAll x path S l₁) (h₂ : AboutAll x path S l₂) :
    AboutAll x path S (l₁ ++ l₂) := by
  intro a ha
  rcases List.mem_append.mp ha with ha | ha
  · exact h₁ a ha
  · exact h₂ a ha

/-- What a property of the element says about the element, it says of its target. -/
theorem about_of_predicate {s : Step} {S : Bytes} (hi : ∀ a ∈ l, Inside (s :: path) a)
    (hs : ∀ a ∈ l, Subject x (s :: path) S a) : AboutAll x path S l := by
  intro a ha hab
  have hin := hi a ha
  rcases hab with hab | ⟨s', hab⟩
  · have hle := List.IsSuffix.length_le hin
    rw [hab, List.length_cons] at hle
    exact absurd hle (Nat.not_succ_le_self _)
  · have hplace : a.role.place = s' :: path := place_of_states hab
    have heq : s :: path = s' :: path := by
      unfold Inside at hin
      rw [hplace] at hin
      exact List.IsSuffix.eq_of_length hin rfl
    rw [← heq] at hab
    exact hs a ha hab

theorem Calling.about {calls : Calls} {S : Bytes} {b : Element} {q : Path}
    (h : Calling x path st calls n st' m l S) (hc : (Child.element b q calls).Placed path)
    (hs : (Child.element b q calls).Stated x) : AboutAll x path S l := by
  obtain ⟨k, tag, reify, r, m', l₁, l₂, -, hrun, rfl, hbag, -⟩ := h.run
  obtain ⟨⟨s, rfl⟩, -, -, -, hp⟩ := hc
  refine (about_of_predicate (hp tag S reify hrun).2 (hs tag S reify hrun).2).append fun a ha hab => ?_
  have hrole := hbag a ha
  rcases hab with hab | ⟨s', hab⟩
  · rw [hrole] at hab
    exact absurd hab (by simp only [reduceCtorEq, not_false_eq_true])
  · rw [hrole] at hab
    exact absurd hab (Option.some_ne_none _).symm

theorem Calling.le {calls : Calls} {S : Bytes} {b : Element} {q : Path}
    (h : Calling x path st calls n st' m l S) (hc : (Child.element b q calls).Placed path) : n ≤ m := by
  obtain ⟨k, tag, reify, r, m', l₁, l₂, hcalled, hrun, rfl, -, hm⟩ := h.run
  obtain ⟨hq, -, -, -, hp⟩ := hc
  have hk := (hp tag S reify hrun).1
  rcases hcalled with ⟨-, hn⟩ | ⟨-, -, hn⟩
  · omega
  · omega

theorem Calling.ne_nil {calls : Calls} {S : Bytes} (h : Calling x path st calls n st' m l S) : S ≠ [] := by
  obtain ⟨k, tag, rf, r, m', l₁, l₂, hcalled, -⟩ := h.run
  exact hcalled.ne_nil

theorem Calling.name_eq {calls : Calls} {S : Bytes} (h : Calling x path st calls n st' m l S) (T : Bytes)
    (hT : st.name = some T) : T = S := by
  obtain ⟨k', tag, rf, r, m', l₁, l₂, hcalled, -⟩ := h.run
  rcases hcalled with ⟨hn, -⟩ | ⟨hn, -⟩
  · exact Option.some.inj (hT.symm.trans hn)
  · exact absurd (hT.symm.trans hn) (Option.some_ne_none T)

/-- How far a description has come: what it is called, and what was said about it. -/
structure Walked (x : Expat) (path : Path) (e : Element) (n : ℕ) (done : List Child) (k : ℕ) (st : DescriptionState)
    (l : List Assertion) : Prop where
  le : n ≤ k
  coherent : st.Coherent
  fresh : st.Fresh e
  about : ∀ a ∈ l, About path a → ∃ S, st.name = some S ∧ orSource x (buildResource S) = some a.statement.subject
  named : ∀ S, st.name = some S →
    e.identity = some S ∨ e.identity = none ∧ ∃ j, n ≤ j ∧ j < k ∧ S = x.genid j
  identified : ∀ S, e.identity = some S → st.name = some S
  called : st.name = none → ∀ c ∈ done, c.isMember = false ∧ c.isProperty = false
  quiet : (∀ c ∈ done, c.isMember = false ∧ c.isProperty = false) → st.name = e.identity

/-- The state that the loop begins with. -/
def DescriptionState.start (e : Element) : DescriptionState := ⟨e.sID, e.sAbout, e.sID, e.sBagID, true, 1, 1⟩

theorem walked_start (hid : e.Identified) : Walked x path e n [] n (DescriptionState.start e) [] where
  le := Nat.le_refl _
  coherent := hid.one
  fresh h := ⟨(name_eq_none h).2, (name_eq_none h).1⟩
  about _ ha := absurd ha List.not_mem_nil
  named _ h := .inl h
  identified _ h := h
  called _ _ hc := absurd hc List.not_mem_nil
  quiet _ := rfl

theorem Walked.step {done : List Child} {c : Child} {k : ℕ} {l₀ : List Assertion} (hw : Walked x path e n done k st l₀)
    (hid : e.Identified) (hc : c.Placed path) (hs : c.Stated x) {inPredicate reify createBag : Bool}
    (h : Runs (describeChild x path e inPredicate reify createBag st c) k st' m l) :
    Walked x path e n (done ++ [c]) m st' (l₀ ++ l) := by
  rcases describeChild_cases hw.fresh hid hw.coherent h with ⟨hmem, hprop, rfl, rfl, rfl⟩ | ⟨b, q, calls, S, rfl, hcall, hkind⟩
  · rw [List.append_nil]
    refine { hw with called := fun hn d hd => ?_, quiet := fun hq => hw.quiet fun d hd => hq d ?_ }
    · rcases List.mem_append.mp hd with hd | hd
      · exact hw.called hn d hd
      · rw [List.mem_singleton.mp hd]
        exact ⟨hmem, hprop⟩
    · exact List.mem_append_left _ hd
  · have hle := hcall.le hc
    have hname : ∀ T, st.name = some T → T = S := hcall.name_eq
    refine ⟨hw.le.trans hle, hcall.coherent, fun hn => ?_, fun a ha hab => ?_, fun T hT => ?_, fun T hT => ?_,
      fun hn => ?_, fun hq => ?_⟩
    · exact absurd (hcall.name.symm.trans hn) (Option.some_ne_none S)
    · rcases List.mem_append.mp ha with ha | ha
      · obtain ⟨T, hT, hsub⟩ := hw.about a ha hab
        rw [hname T hT] at hsub
        exact ⟨S, hcall.name, hsub⟩
      · exact ⟨S, hcall.name, hcall.about hc hs a ha hab⟩
    · have hTS : T = S := Option.some.inj (hT.symm.trans hcall.name)
      subst hTS
      obtain ⟨k', tag, rf, r, m', l₁, l₂, hcalled, hrun, -, -, hm'⟩ := hcall.run
      have hk' := (hc.predicate tag T rf hrun).1
      rcases hcalled with ⟨hn, hkk⟩ | ⟨hn, rfl, hkk⟩
      · rcases hw.named T hn with h | ⟨hi, j, hj, hjk, hS⟩
        · exact .inl h
        · exact .inr ⟨hi, j, hj, Nat.lt_of_lt_of_le hjk hle, hS⟩
      · refine .inr ⟨?_, k, hw.le, by omega, rfl⟩
        cases hi : e.identity with
        | none => rfl
        | some T => exact absurd ((hw.identified T hi).symm.trans hn) (Option.some_ne_none T)
    · rw [hname T (hw.identified T hT)]
      exact hcall.name
    · exact absurd (hcall.name.symm.trans hn) (Option.some_ne_none S)
    · have hquiet := hq _ (List.mem_append_right done List.mem_cons_self)
      rcases hkind with ⟨hmem, -⟩ | ⟨-, hprop, -⟩
      · exact absurd (hmem.symm.trans hquiet.1) Bool.true_eq_false.mp
      · exact absurd (hprop.symm.trans hquiet.2) Bool.true_eq_false.mp

/-- A property is called with what the attributes tell, or with a new name. -/
theorem Walked.called_as {done : List Child} {k : ℕ} {l₀ : List Assertion} {calls : Calls} {S : Bytes}
    (hw : Walked x path e n done k st l₀) (h : Calling x path st calls k st' m l S) :
    e.identity = some S ∨ ∃ j, S = x.genid j := by
  obtain ⟨k', tag, rf, r, m', l₁, l₂, hcalled, -⟩ := h.run
  rcases hcalled with ⟨hn, -⟩ | ⟨-, hS, -⟩
  · rcases hw.named S hn with h | ⟨-, j, -, -, hj⟩
    · exact .inl h
    · exact .inr ⟨j, hj⟩
  · exact .inr ⟨k, hS⟩

/-- A bag does not take the place of the identifier: there is none, or the identifier is not empty against the base. -/
def Element.Unbagged (x : Expat) (e : Element) : Prop :=
  given e.sBagID = none ∨ ∀ S, e.identity = some S → x.normalize S ≠ []

theorem Element.Unbagged.innerID {S : Bytes} (hbag : e.Unbagged x) (hS : S ≠ [])
    (hname : e.identity = some S ∨ ∃ j, S = x.genid j) : given e.sBagID = none ∨ SiRPAC.innerID x st S ≠ [] := by
  refine hbag.imp id fun hne => ?_
  have hN : x.normalize S ≠ [] := by
    rcases hname with hname | ⟨j, rfl⟩
    · exact hne S hname
    · rw [normalize_genid]
      exact hS
  unfold SiRPAC.innerID
  split
  · exact hN
  · exact hS

/-- What the element is called inside a predicate as far as the description has come. -/
structure Inner (x : Expat) (e : Element) (done : List Child) (st : DescriptionState) : Prop where
  kept : ∀ S, given e.sAbout = some S → given st.sAbout = some S
  about : ∀ S, given e.sAbout = some S → given st.eleID = none ∨ st.eleID = some S
  sID : ∀ S, given e.sAbout = none → given e.sID = some S →
    st.eleID = some (if done.countP Child.isProperty = 1 then x.normalize S else S) ∧
      (given st.sAbout = none ↔ done.countP Child.isProperty = 0)
  new : e.identity = none → ∀ S, st.name = some S → st.eleID = some S

theorem inner_start (hid : e.Identified) : Inner x e [] (DescriptionState.start e) where
  kept S h := h
  about S h := by
    cases hi : given e.sID with
    | none => exact .inl hi
    | some i =>
      rw [hid.one S i h hi]
      exact .inr (given_eq_some hi).1
  sID S ha hi := by
    refine ⟨?_, ?_⟩
    · rw [List.countP_nil, if_neg Nat.zero_ne_one]
      exact (given_eq_some hi).1
    · rw [List.countP_nil]
      exact ⟨fun _ => rfl, fun _ => ha⟩
  new h S hS := absurd (hS.symm.trans h) (Option.some_ne_none S)

theorem Inner.step {done : List Child} {c : Child} {k : ℕ} {l₀ : List Assertion} (hi : Inner x e done st)
    (hw : Walked x path e n done k st l₀) (hid : e.Identified) (hbag : e.Unbagged x) {reify : Bool}
    (h : Runs (describeChild x path e true reify false st c) k st' m l) : Inner x e (done ++ [c]) st' := by
  rcases describeChild_cases hw.fresh hid hw.coherent h with
    ⟨hmem, hprop, rfl, rfl, rfl⟩ | ⟨b, q, calls, S, rfl, hcall, hkind⟩
  · refine { hi with sID := fun S ha hs => ?_ }
    rw [List.countP_append, List.countP_singleton, hprop, if_neg Bool.false_ne_true, Nat.add_zero]
    exact hi.sID S ha hs
  · have hname : ∀ T, st.name = some T → T = S := hcall.name_eq
    rcases hkind with ⟨hmem, hab, hele⟩ | ⟨hmem, hprop, hab, hele⟩
    · have hprop : Child.isProperty (.element b q calls) = false := by
        show (!b.isMember && b.isOther) = false
        rw [show b.isMember = true from hmem, Bool.not_true, Bool.false_and]
      have hkeep : ∀ T, e.identity = some T → st'.eleID = st.eleID := by
        intro T hT
        rw [hele, if_neg]
        rw [hw.identified T hT]
        exact Option.some_ne_none T
      refine ⟨fun T hT => ?_, fun T hT => ?_, fun T ha hs => ?_, fun hno T hT => ?_⟩
      · rw [hab]
        exact hi.kept T hT
      · rw [hkeep T (identity_of_about hT)]
        exact hi.about T hT
      · rw [List.countP_append, List.countP_singleton, hprop, if_neg Bool.false_ne_true, Nat.add_zero, hab,
          hkeep T (identity_of_sID ha hs)]
        exact hi.sID T ha hs
      · have hTS : T = S := Option.some.inj (hT.symm.trans hcall.name)
        subst hTS
        rw [hele]
        split_ifs with hn
        · rfl
        · obtain ⟨U, hU⟩ := Option.ne_none_iff_exists'.mp hn
          rw [hname U hU] at hU
          exact hi.new hno T hU
    · have hele := hele rfl (hbag.innerID hcall.ne_nil (hw.called_as hcall)) rfl
      refine ⟨fun T hT => ?_, fun T hT => ?_, fun T ha hs => ?_, fun hno T hT => ?_⟩
      · rw [hab, ← hname T (hw.identified T (identity_of_about hT))]
      · right
        rw [hele, innerID, hi.kept T hT, ← hname T (hw.identified T (identity_of_about hT))]
      · have hTS := hname T (hw.identified T (identity_of_sID ha hs))
        subst hTS
        obtain ⟨hid', hcount⟩ := hi.sID T ha hs
        rw [List.countP_append, List.countP_singleton, hprop, if_pos rfl, hab, hele, innerID]
        refine ⟨?_, ?_⟩
        · cases hst : given st.sAbout with
          | none =>
            have hsID : given st.sID = some T := by
              have hn := hw.identified T (identity_of_sID ha hs)
              rwa [DescriptionState.name, hst, Option.none_or] at hn
            rw [hsID, hcount.mp hst, if_pos rfl]
          | some U =>
            have hne : done.countP Child.isProperty ≠ 0 := by
              intro h0
              rw [hcount.mpr h0] at hst
              exact absurd hst (Option.some_ne_none U).symm
            rw [if_neg (by omega)]
        · exact ⟨fun h => absurd h (Option.some_ne_none T), fun h => absurd h (Nat.succ_ne_zero _)⟩
      · have hTS : T = S := Option.some.inj (hT.symm.trans hcall.name)
        subst hTS
        rw [hele, innerID]
        cases hst : given st.sAbout with
        | some U => rfl
        | none =>
          cases hsID : given st.sID with
          | none => rfl
          | some U =>
            have hn : st.name = some U := by rw [DescriptionState.name, hst, hsID, Option.none_or]
            have hTU := hname U hn
            subst hTU
            rcases hw.named U hn with h | ⟨-, j, -, -, rfl⟩
            · exact absurd (h.symm.trans hno) (Option.some_ne_none U)
            · rw [normalize_genid]

end Steps

/-! ## Elements -/

section Elements

variable {x : Expat} {path : Path} {e : Element} {children : List Child} {n m : ℕ} {l : List Assertion}

/-- The element is called `S` in all that is said about it. -/
structure Denotes (x : Expat) (path : Path) (e : Element) (n m : ℕ) (S : Bytes) (l : List Assertion) : Prop where
  named : e.identity = some S ∨ e.identity = none ∧ ∃ j, n ≤ j ∧ j < m ∧ S = x.genid j
  about : AboutAll x path S l

/-- The children of a description: elements, and attributes. -/
def described (x : Expat) (path : Path) (e : Element) (children : List Child) : List Child :=
  children ++ expandedChildren x path children.length (expandAttributes e false none)

theorem expandedChildren_stated {i : ℕ} {as : List Expanded} (h : ∀ a ∈ as, given a.e.sResource = none) :
    ∀ c ∈ expandedChildren x path i as, c.Stated x := by
  intro c hc
  obtain ⟨k, a, ha, rfl⟩ := mem_expandedChildren hc
  exact a.child_stated x _ (h a ha)

theorem expandAttributes_sResource {predicateNode : Bool} :
    ∀ a ∈ expandAttributes e predicateNode none, given a.e.sResource = none := by
  intro a ha
  unfold expandAttributes at ha
  rw [ite_self] at ha
  obtain ⟨b, -, rfl⟩ := List.mem_map.mp ha
  rfl

theorem described_placed (hc : ∀ c ∈ children, c.Placed path) : ∀ c ∈ described x path e children, c.Placed path := by
  intro c hmem
  rcases List.mem_append.mp hmem with hmem | hmem
  · exact hc c hmem
  · exact expandedChildren_placed c hmem

theorem described_stated (hs : ∀ c ∈ children, c.Stated x) : ∀ c ∈ described x path e children, c.Stated x := by
  intro c hmem
  rcases List.mem_append.mp hmem with hmem | hmem
  · exact hs c hmem
  · exact expandedChildren_stated expandAttributes_sResource c hmem

/-- What the loop of a description comes to. -/
theorem processDescription_walked (hid : e.Identified) (hc : ∀ c ∈ children, c.Placed path)
    (hs : ∀ c ∈ children, c.Stated x) {inPredicate reify createBag : Bool} {r : Option Bytes}
    (h : Runs (processDescription x path e children inPredicate reify createBag) n r m l) :
    ∃ st, r = st.eleID ∧ Walked x path e n (described x path e children) m st l ∧
      (inPredicate = true → e.Unbagged x → createBag = false → Inner x e (described x path e children) st) := by
  unfold processDescription at h
  obtain ⟨st, k, l₁, l₂, h₁, h₂, rfl⟩ := runs_bind.mp h
  obtain ⟨rfl, rfl, rfl⟩ := runs_pure.mp h₂
  rw [List.append_nil]
  have key := h₁.foldlM_keeps
    (fun done k st l => Walked x path e n done k st l ∧
      (inPredicate = true → e.Unbagged x → createBag = false → Inner x e done st))
    ⟨walked_start hid, fun _ _ _ => inner_start hid⟩ ?_
  · exact ⟨st, rfl, key.1, key.2⟩
  · rintro done c rest hbs k st l₀ st' k' l' ⟨hw, hi⟩ hrun
    have hmem : c ∈ described x path e children := by
      unfold described
      rw [hbs]
      exact List.mem_append_right done List.mem_cons_self
    refine ⟨hw.step hid (described_placed hc c hmem) (described_stated hs c hmem) hrun, fun hp hb hcb => ?_⟩
    subst hp hcb
    exact (hi rfl hb rfl).step hw hid hb hrun

theorem Walked.denotes {done : List Child} {st : DescriptionState} {S : Bytes} (hw : Walked x path e n done m st l)
    (hS : st.name = some S) : Denotes x path e n m S l := by
  refine ⟨hw.named S hS, fun a ha hab => ?_⟩
  obtain ⟨T, hT, hsub⟩ := hw.about a ha hab
  rw [Option.some.inj (hS.symm.trans hT)]
  exact hsub

/-- What a description inside a predicate gives back: its name, or nothing where its attributes tell it. -/
def Returned (x : Expat) (e : Element) (properties : ℕ) (S : Bytes) (r : Option Bytes) : Prop :=
  (given e.sAbout = some S ∧ (given r = none ∨ r = some S)) ∨
  (given e.sAbout = none ∧ given e.sID = some S ∧ r = some (if properties = 1 then x.normalize S else S)) ∨
  (e.identity = none ∧ r = some S)

/-- A description inside a predicate: it has a name, or nothing is said of it. -/
theorem innerDescription_spec (hid : e.Identified) (hbag : e.Unbagged x) (hc : ∀ c ∈ children, c.Placed path)
    (hs : ∀ c ∈ children, c.Stated x) {reify : Bool} {r : Option Bytes}
    (h : Runs (processDescription x path e children true reify false) n r m l) :
    (∃ S, Denotes x path e n m S l ∧ Returned x e ((described x path e children).countP Child.isProperty) S r ∧
      (e.identity = none → ¬ ∀ c ∈ described x path e children, c.isMember = false ∧ c.isProperty = false)) ∨
    (e.identity = none ∧ given r = none ∧ (∀ a ∈ l, ¬ About path a) ∧
      ∀ c ∈ described x path e children, c.isMember = false ∧ c.isProperty = false) := by
  obtain ⟨st, rfl, hw, hi⟩ := processDescription_walked hid hc hs h
  have hi := hi rfl hbag rfl
  cases hname : st.name with
  | none =>
    right
    have hno : e.identity = none := by
      cases hT : e.identity with
      | none => rfl
      | some T => exact absurd ((hw.identified T hT).symm.trans hname) (Option.some_ne_none T)
    refine ⟨hno, (hw.fresh hname).1, fun a ha hab => ?_, hw.called hname⟩
    obtain ⟨S, hS, -⟩ := hw.about a ha hab
    exact absurd (hS.symm.trans hname) (Option.some_ne_none S)
  | some S =>
    left
    refine ⟨S, hw.denotes hname, ?_, fun hno hq => ?_⟩
    swap
    · exact absurd (hname.symm.trans ((hw.quiet hq).trans hno)) (Option.some_ne_none S)
    cases ha : given e.sAbout with
    | some T =>
      have hTS : T = S := Option.some.inj ((hw.identified T (identity_of_about ha)).symm.trans hname)
      subst hTS
      exact .inl ⟨ha, hi.about T ha⟩
    | none =>
      cases hs : given e.sID with
      | some T =>
        have hTS : T = S := Option.some.inj ((hw.identified T (identity_of_sID ha hs)).symm.trans hname)
        subst hTS
        exact .inr (.inl ⟨ha, hs, (hi.sID T ha hs).1⟩)
      | none =>
        have hno : e.identity = none := Option.or_eq_none_iff.mpr ⟨ha, hs⟩
        exact .inr (.inr ⟨hno, hi.new hno S hname⟩)

/-! ## Containers -/

/-- What a placed and stated child says as a property of the resource `S`. -/
theorem Child.about {b : Element} {q : Path} {calls : Calls} (hc : (Child.element b q calls).Placed path)
    (hs : (Child.element b q calls).Stated x) (tag S : Bytes) (reify : Bool) :
    Says (fun a => About path a → orSource x (buildResource S) = some a.statement.subject)
      (calls.processPredicate tag S reify) := by
  obtain ⟨⟨s, rfl⟩, -, -, -, hp⟩ := hc
  intro k r k' l' hrun
  exact ⟨(hp tag S reify hrun).1, about_of_predicate (hp tag S reify hrun).2 (hs tag S reify hrun).2⟩

/-- The name of an element is the one its attributes give, or a new one. -/
theorem orNew_identity {id : Option Bytes} (hid : id = e.identity) {S : Bytes} (h : Runs (orNew x id) n S m l) :
    (e.identity = some S ∧ n = m ∨ e.identity = none ∧ S = x.genid n ∧ m = n + 1) ∧ l = [] := by
  rw [← hid]
  cases id with
  | some T =>
    obtain ⟨rfl, rfl, rfl⟩ := runs_orNew_some.mp h
    exact ⟨.inl ⟨rfl, rfl⟩, rfl⟩
  | none =>
    obtain ⟨rfl, rfl, rfl⟩ := runs_orNew_none.mp h
    exact ⟨.inr ⟨rfl, rfl, rfl⟩, rfl⟩

theorem Element.Identified.container (hid : e.Identified) :
    (given e.sID).or ((given e.sAbout).or e.nodeID) = e.identity := by
  unfold Element.identity
  cases ha : given e.sAbout with
  | none =>
    rw [hid.nodeID ha, Option.none_or, Option.none_or]
    exact Option.or_none
  | some S =>
    cases hi : given e.sID with
    | none => rfl
    | some i =>
      rw [hid.one S i ha hi]
      rfl

/-- A container is called by one name, which it gives back. -/
theorem processContainer_spec (hid : e.Identified) (hc : ∀ c ∈ children, c.Placed path)
    (hs : ∀ c ∈ children, c.Stated x) {S : Bytes} (h : Runs (processContainer x path e children) n S m l) :
    Denotes x path e n m S l := by
  unfold processContainer at h
  obtain ⟨id, k, l₁, l₂, h₁, h₂, rfl⟩ := runs_bind.mp h
  obtain ⟨hname, rfl⟩ := orNew_identity hid.container h₁
  have hsays : Says (fun a => About path a → orSource x (buildResource id) = some a.statement.subject)
      (do
        containerType x path e id
        let children := described x path e children
        if children = [] ∧ e.container = some "Alt" then
          croak (ascii "An RDF:Alt container must have at least one nested listitem")
        else do
          let _ ← children.foldlM (containChild id) (1, 1)
          pure id) := by
    refine says_bind ?_ fun _ => ?_
    · unfold containerType
      split
      · exact says_addTriple fun st hst _ => hst
      · exact says_pure _
    · dsimp only
      split_ifs
      · exact says_croak _
      · refine says_bind (says_foldlM (fun st c hmem => ?_) _) fun _ => says_pure _
        have hp := described_placed hc c hmem
        have hst := described_stated hs c hmem
        cases c with
        | data d =>
          simp only [containChild]
          split_ifs
          · exact says_croak _
          · exact says_pure _
        | element b q calls =>
          simp only [containChild]
          split_ifs
          all_goals exact says_bind (Child.about hp hst _ _ _) fun _ => says_pure _
  obtain ⟨hkm, habout⟩ := hsays h₂
  have hS : S = id := by
    obtain ⟨_, k₁, l₃, l₄, -, h₃, -⟩ := runs_bind.mp h₂
    dsimp only at h₃
    split_ifs at h₃
    · exact absurd h₃ runs_croak.mp
    · obtain ⟨_, k₂, l₅, l₆, -, h₄, -⟩ := runs_bind.mp h₃
      exact (runs_pure.mp h₄).1.symm
  subst hS
  rw [List.nil_append]
  refine ⟨?_, habout⟩
  rcases hname with ⟨hname, -⟩ | ⟨hname, hS, hk⟩
  · exact .inl hname
  · exact .inr ⟨hname, n, Nat.le_refl _, by omega, hS⟩

/-! ## Typed nodes -/

theorem startsWith_append (p s : Bytes) : startsWith p (p ++ s) = true := by
  induction p with
  | nil =>
    cases s <;> rfl
  | cons a p ih =>
    rw [List.cons_append, startsWith]
    by_cases ha : a = 0x2e
    · have hlt : a < 0xc0 := by rw [ha]; decide
      have hne : a ≠ 0x0a := by rw [ha]; decide
      rw [if_pos ha, if_pos hlt, ih, Bool.and_true]
      exact decide_eq_true hne
    · rw [if_neg ha, ih, Bool.and_true]
      exact decide_eq_true rfl

/-- The loop over the attributes of a typed node leaves those of the RDF syntax. -/
theorem getAttributeValue_moveAttributes (name : String) :
    ∀ (fuel : ℕ) (attlist : Attlist) (k : ℕ),
      getAttributeValue (moveAttributes fuel attlist k).1 (rdfms name) = getAttributeValue attlist (rdfms name)
  | 0, attlist, k => rfl
  | fuel + 1, attlist, k => by
    rw [moveAttributes]
    split
    · rfl
    · rename_i a _
      split
      · exact getAttributeValue_moveAttributes name fuel attlist (k + 1)
      · rename_i value hvalue
        dsimp only
        rw [getAttributeValue_moveAttributes name fuel _ (k + 1)]
        unfold getAttributeValue
        rw [List.find?_filter]
        have hne : a.full ≠ rdfms name := by
          intro he
          have hstart : startsWith rdfSyntaxNs a.full = true := by
            rw [he]
            exact startsWith_append _ _
          rw [Attribute.moved, if_pos (.inl hstart)] at hvalue
          exact absurd hvalue (Option.some_ne_none value).symm
        congr 2
        funext b
        by_cases hb : b.full = rdfms name
        · simp [hb, hne.symm]
        · simp [hb]

theorem Element.Identified.typed (hid : e.Identified) : (given e.sAbout).or ((given e.sID).or e.nodeID) = e.identity := by
  unfold Element.identity
  cases ha : given e.sAbout with
  | none =>
    rw [hid.nodeID ha, Option.or_none]
  | some S => rfl

/-- A typed node as `processTypedNode` leaves it: without the attributes that were moved, and with its name. -/
def Element.typed (x : Expat) (e : Element) (S : Bytes) : Element :=
  { e with attlist := (moveAttributes e.attlist.length e.attlist 0).1, sID := some (x.normalize S) }

theorem Element.typed_identified (hid : e.Identified) {S : Bytes}
    (hS : ∀ a, given e.sAbout = some a → a = x.normalize S) : (e.typed x S).Identified where
  one a i ha hi := by
    rw [hS a ha]
    exact Option.some.inj (given_eq_some hi).1
  nodeID h := by
    show ((getAttributeValue _ _).map _) = none
    rw [Element.typed, getAttributeValue_moveAttributes]
    exact hid.nodeID h
  about h := by
    rw [Element.typed, getAttributeValue_moveAttributes]
    exact hid.about h

/-- What a typed node does: its type, and its description. -/
theorem processTypedNode_runs (hid : e.Identified) {S : Bytes} (h : Runs (processTypedNode x path e children) n S m l) :
    ∃ k l₁ l₂ r moved, (e.identity = some S ∧ n ≤ k ∨ e.identity = none ∧ S = x.genid n ∧ n + 1 ≤ k) ∧
      (∀ a ∈ l₁, a.role = .type path ∧ orSource x (buildResource (x.normalize S)) = some a.statement.subject) ∧
      (∀ a ∈ moved, given (a : Expanded).e.sResource = none) ∧
      Runs (processDescription x path (e.typed x S)
        (children ++ expandedChildren x path children.length moved) false x.bCreateBags false) k r m l₂ ∧
      l = l₁ ++ l₂ := by
  unfold processTypedNode at h
  by_cases hres : (given e.sResource).isSome ∧ !nodeIDPrefix.isPrefixOf (e.sResource.getD [])
  · rw [if_pos hres] at h
    exact absurd h runs_croak.mp
  · rw [if_neg hres] at h
    obtain ⟨id, k, l₁, l₂, h₁, h₂, rfl⟩ := runs_bind.mp h
    obtain ⟨_, k', l₃, l₄, h₃, h₄, rfl⟩ := runs_bind.mp h₂
    obtain ⟨r, k₂, l₅, l₆, h₅, h₆, rfl⟩ := runs_bind.mp h₄
    obtain ⟨rfl, rfl, rfl⟩ := runs_pure.mp h₆
    have hid' : (given e.sAbout).or ((given e.sID).or { e with
        attlist := (moveAttributes e.attlist.length e.attlist 0).1 }.nodeID) = e.identity := by
      rw [← hid.typed]
      unfold Element.nodeID
      rw [getAttributeValue_moveAttributes]
    obtain ⟨hname, rfl⟩ := orNew_identity hid' h₁
    have htype := says_addTriple (x := x)
      (Q := fun a => a.role = .type path ∧ orSource x (buildResource (x.normalize id)) = some a.statement.subject)
      (fun st hst => ⟨rfl, hst⟩) h₃
    refine ⟨k', l₃, l₅, r, _, ?_, htype.2, ?_, h₅, ?_⟩
    · rcases hname with ⟨hname, hk⟩ | ⟨hname, hS, hk⟩
      · exact .inl ⟨hname, hk.trans_le htype.1⟩
      · exact .inr ⟨hname, hS, hk.symm.trans_le htype.1⟩
    · intro a ha
      obtain ⟨b, -, rfl⟩ := List.mem_map.mp ha
      rfl
    · rw [List.nil_append, List.append_nil]

/-- A typed node is called by one name, if the base leaves its identifier alone. -/
theorem processTypedNode_spec (hid : e.Identified) (hN : ∀ S, e.identity = some S → x.normalize S = S)
    (hc : ∀ c ∈ children, c.Placed path) (hs : ∀ c ∈ children, c.Stated x) {S : Bytes}
    (h : Runs (processTypedNode x path e children) n S m l) : Denotes x path e n m S l := by
  obtain ⟨k, l₁, l₂, r, moved, hname, htype, hmoved, hrun, rfl⟩ := processTypedNode_runs hid h
  have hNS : x.normalize S = S ∧ S ≠ [] := by
    rcases hname with ⟨hname, -⟩ | ⟨-, rfl, -⟩
    · refine ⟨hN S hname, ?_⟩
      unfold Element.identity at hname
      cases ha : given e.sAbout with
      | some a =>
        rw [ha, Option.some_or] at hname
        rw [← Option.some.inj hname]
        exact (given_eq_some ha).2
      | none =>
        rw [ha, Option.none_or] at hname
        exact (given_eq_some hname).2
    · exact ⟨normalize_genid x n, (given_eq_some (given_genid x n)).2⟩
  have habout : ∀ a, given e.sAbout = some a → a = x.normalize S := by
    intro a ha
    rw [hNS.1]
    rcases hname with ⟨hname, -⟩ | ⟨hname, -⟩
    · exact Option.some.inj ((identity_of_about ha).symm.trans hname)
    · exact absurd ((identity_of_about ha).symm.trans hname) (Option.some_ne_none a)
  have hchildren : ∀ c ∈ children ++ expandedChildren x path children.length moved, c.Placed path ∧ c.Stated x := by
    intro c hmem
    rcases List.mem_append.mp hmem with hmem | hmem
    · exact ⟨hc c hmem, hs c hmem⟩
    · exact ⟨expandedChildren_placed c hmem, expandedChildren_stated hmoved c hmem⟩
  obtain ⟨st, -, hw, -⟩ := processDescription_walked (Element.typed_identified hid habout)
    (fun c hmem => (hchildren c hmem).1) (fun c hmem => (hchildren c hmem).2) hrun
  have hident : (e.typed x S).identity = some S := by
    have hgiven : given (some (x.normalize S)) = some S := by
      rw [hNS.1]
      exact given_some hNS.2
    cases ha : given e.sAbout with
    | some a =>
      rw [habout a ha, hNS.1] at ha
      exact identity_of_about ha
    | none => exact identity_of_sID ha hgiven
  have hd := hw.denotes (hw.identified S hident)
  refine ⟨?_, AboutAll.append (fun a ha _ => ?_) hd.about⟩
  · rcases hname with ⟨hname, -⟩ | ⟨hname, hS, hk⟩
    · exact .inl hname
    · exact .inr ⟨hname, n, Nat.le_refl _, Nat.lt_of_lt_of_le hk hw.le, hS⟩
  · have hsub := (htype a ha).2
    rwa [hNS.1] at hsub

end Elements

end RdfStore.SiRPAC
