import RdfStore.Dbms.Access

/-!
# Adding records to a section (`_allowed_ops_cnf` of `conf.c`)

A deny record should never give an address more than it had, and an allow record
never less.

    exactly when it does          (added_record_iff)
-/

namespace RdfStore.Dbms

/-! ## Levels -/

@[simp] theorem level_max (a b : Tops) : (Tops.max a b).level = max a.level b.level := by
  unfold Tops.max
  split
  · next h => exact (max_eq_left h.le).symm
  · next h => exact (max_eq_right (not_lt.1 h)).symm

@[simp] theorem level_min (a b : Tops) : (Tops.min a b).level = min a.level b.level := by
  unfold Tops.min
  split
  · next h => exact (min_eq_left h.le).symm
  · next h => exact (min_eq_right (not_lt.1 h)).symm

@[simp] theorem level_err : Tops.level .err = 0 := rfl

theorem eq_of_level {a b : Tops} (h : a.level = b.level) : a = b := by
  cases a <;> cases b <;> first | rfl | cases h

theorem level_pos {a : Tops} (h : a ≠ .err) : 0 < a.level := by
  cases a <;> first | exact absurd rfl h | decide

@[simp] theorem deny_eq_err_iff {a : Tops} : deny a = .err ↔ a = .err := by
  cases a <;> decide

@[simp] theorem allow_eq_err_iff {a : Tops} : allow a = .err ↔ a = .err := by
  cases a <;> decide

/-- More is allowed by a higher level. -/
theorem allow_mono {a b : Tops} (h : a.level ≤ b.level) : (allow a).level ≤ (allow b).level := by
  cases a <;> cases b <;> first | decide | exact absurd h (by decide)

/-- Of two denied levels the higher one counts; what it leaves is more, unless all is denied or nothing was. -/
theorem deny_max_le_iff {d x : Tops} (hd : d ≠ .err) :
    (deny (Tops.max x d)).level ≤ (deny d).level ↔ x.level ≤ d.level ∨ x = .all ∨ d = .none := by
  cases d <;> cases x <;> first | exact absurd rfl hd | decide

/-! ## One record more -/

/-- The record is about the address. -/
def Xscf.Covers (s : Xscf) (ip : UInt32) : Prop := ip &&& s.mask = s.ip

/-- `s->nxt = nw_xscontrols->recdeny` -/
def Xsctrl.addDeny (cnf : Xsctrl) (s : Xscf) : Xsctrl := { cnf with recdeny := s :: cnf.recdeny }

/-- `s->nxt = nw_xscontrols->recallow` -/
def Xsctrl.addAllow (cnf : Xsctrl) (s : Xscf) : Xsctrl := { cnf with recallow := s :: cnf.recallow }

theorem level_allowed_foldl (p : List Xscf) (ip : UInt32) (l : Tops) :
    (p.foldl (fun l x => if ip &&& x.mask = x.ip then Tops.max l x.op else l) l).level =
      max l.level (allowed p ip).level := by
  unfold allowed
  induction p generalizing l with
  | nil => simp
  | cons s p ih =>
    rw [List.foldl_cons, List.foldl_cons, ih]
    conv_rhs => rw [ih]
    split
    · simp only [level_max, level_err]
      omega
    · simp only [level_err, Nat.zero_max]

/-- The records that are about the address are taken together by their highest level. -/
theorem allowed_cons {s : Xscf} {ip : UInt32} (h : s.Covers ip) (p : List Xscf) :
    allowed (s :: p) ip = Tops.max s.op (allowed p ip) := by
  refine eq_of_level ?_
  rw [level_max]
  unfold Xscf.Covers at h
  have hfold := level_allowed_foldl p ip (Tops.max .err s.op)
  have hstep : allowed (s :: p) ip = p.foldl (fun l x => if ip &&& x.mask = x.ip then Tops.max l x.op else l)
      (Tops.max .err s.op) := by
    rw [allowed, List.foldl_cons, if_pos h]
  rw [hstep, hfold, level_max, level_err, Nat.zero_max]

theorem allowed_cons_of_not {s : Xscf} {ip : UInt32} (h : ¬ s.Covers ip) (p : List Xscf) :
    allowed (s :: p) ip = allowed p ip := by
  unfold Xscf.Covers at h
  rw [allowed, List.foldl_cons, if_neg h, allowed]

/-! ## The level of a section -/

/-- The two lists are put together by the higher or the lower level, where both say something. -/
theorem level_allowedOpsCnf (cnf : Xsctrl) (ip : UInt32) :
    (allowedOpsCnf cnf ip).level =
      if allowed cnf.recallow ip = .err then (deny (allowed cnf.recdeny ip)).level
      else if allowed cnf.recdeny ip = .err then (allow (allowed cnf.recallow ip)).level
      else if cnf.first = .deny then
        max (allow (allowed cnf.recallow ip)).level (deny (allowed cnf.recdeny ip)).level
      else min (allow (allowed cnf.recallow ip)).level (deny (allowed cnf.recdeny ip)).level := by
  simp only [allowedOpsCnf, allow_eq_err_iff, deny_eq_err_iff]
  split_ifs <;> simp

theorem allowedOpsCnf_eq_err_iff {cnf : Xsctrl} {ip : UInt32} :
    allowedOpsCnf cnf ip = .err ↔ allowed cnf.recallow ip = .err ∧ allowed cnf.recdeny ip = .err := by
  have hlevel := level_allowedOpsCnf cnf ip
  constructor
  · intro h
    rw [h] at hlevel
    by_cases ha : allowed cnf.recallow ip = .err
    · refine ⟨ha, ?_⟩
      by_contra hd
      rw [if_pos ha] at hlevel
      exact absurd hlevel (level_pos (mt deny_eq_err_iff.1 hd)).ne
    · have hallow := level_pos (mt allow_eq_err_iff.1 ha)
      rw [if_neg ha, level_err] at hlevel
      split_ifs at hlevel with hd
      · omega
      · omega
      · have hdeny := level_pos (mt deny_eq_err_iff.1 hd)
        omega
  · rintro ⟨ha, hd⟩
    simp [allowedOpsCnf, ha, hd, allow, deny]

/-- What the section says, if anything, is not raised. -/
def NotRaised (before after : Tops) : Prop := before ≠ .err → after.level ≤ before.level

/-- What the section says, if anything, is not lowered. -/
def NotLowered (before after : Tops) : Prop := before ≠ .err → before.level ≤ after.level

/-- Of two lists of levels put together, the one that denies has one more. -/
theorem denied_le_iff (first : Order) (a d x : Tops) :
    (¬ (a = .err ∧ d = .err) →
      (if a = .err then (deny (Tops.max x d)).level
        else if Tops.max x d = .err then (allow a).level
        else if first = .deny then max (allow a).level (deny (Tops.max x d)).level
        else min (allow a).level (deny (Tops.max x d)).level) ≤
        if a = .err then (deny d).level
        else if d = .err then (allow a).level
        else if first = .deny then max (allow a).level (deny d).level
        else min (allow a).level (deny d).level) ↔
      x.level ≤ d.level ∨ x = .all ∨ d = .none ∨ (a = .err ∧ d = .err) ∨
        (a ≠ .err ∧ first ≠ .deny ∧ (d = .err ∨ (allow a).level ≤ (deny d).level)) ∨
        (a ≠ .err ∧ first = .deny ∧ (deny x).level ≤ (allow a).level) := by
  by_cases ha : a = .err
  · by_cases hd : d = .err
    · simp [ha, hd]
    · have hdeny := deny_max_le_iff (d := d) (x := x) hd
      simp [ha, hd, hdeny]
  · by_cases hd : d = .err
    · subst hd
      have hmax : Tops.max x .err = x := eq_of_level (by simp)
      have hnot : Tops.err ≠ Tops.none := by decide
      simp only [hmax, ha, false_and, not_false_eq_true, forall_const, if_false, if_true, level_err, hnot]
      by_cases hx : x = .err
      · simp [hx]
      · have hpos := level_pos hx
        have hall : x = .all → (deny x).level ≤ (allow a).level := by
          intro h
          subst h
          exact level_pos (mt allow_eq_err_iff.1 ha)
        by_cases hfirst : first = .deny
        · simp only [hx, hfirst, if_false, if_true]
          constructor
          · intro h
            have : (deny x).level ≤ (allow a).level := by omega
            simp [this, ha]
          · rintro (h | h | h | h | h | h)
            · omega
            · have := hall h
              omega
            · exact absurd h (by simp)
            · exact absurd h (by simp)
            · exact absurd rfl h.2.1
            · have := h.2.2
              omega
        · simp [hx, hfirst, ha]
    · have hmax : Tops.max x d ≠ .err := by
        intro h
        have hlevel := congrArg Tops.level h
        have := level_pos hd
        simp only [level_max, level_err] at hlevel
        omega
      have hdeny := deny_max_le_iff (d := d) (x := x) hd
      have hhigher : ¬ x.level ≤ d.level → Tops.max x d = x := by
        intro h
        refine eq_of_level ?_
        rw [level_max]
        omega
      simp only [ha, hd, hmax, false_and, not_false_eq_true, forall_const, if_false]
      by_cases hfirst : first = .deny
      · by_cases hle : (deny (Tops.max x d)).level ≤ (deny d).level
        · have hsome := hdeny.1 hle
          simp only [hfirst, if_true]
          refine iff_of_true (by omega) ?_
          tauto
        · have hnone := mt hdeny.2 hle
          push Not at hnone
          have heq := hhigher (by omega)
          simp only [hfirst, if_true, heq] at hle ⊢
          constructor
          · intro h
            have : (deny x).level ≤ (allow a).level := by omega
            simp [this, ha]
          · rintro (h | h | h | h | h | h)
            · omega
            · exact absurd h hnone.2.1
            · exact absurd h hnone.2.2
            · exact absurd h (by simp)
            · exact absurd rfl h.2.1
            · have := h.2.2
              omega
      · simp only [hfirst, if_false]
        constructor
        · intro h
          rcases Nat.le_total (allow a).level (deny d).level with hle | hle
          · simp [hle, ha, hfirst]
          · have : (deny (Tops.max x d)).level ≤ (deny d).level ∨ (allow a).level ≤ (deny d).level := by omega
            rcases this with h | h
            · have := hdeny.1 h
              tauto
            · simp [h, ha, hfirst]
        · intro h
          have : (deny (Tops.max x d)).level ≤ (deny d).level ∨ (allow a).level ≤ (deny d).level := by
            rw [hdeny]
            tauto
          omega

/-- Of two lists of levels put together, the one that allows has one more. -/
theorem le_allowed_iff (first : Order) (a d x : Tops) :
    (¬ (a = .err ∧ d = .err) →
      (if a = .err then (deny d).level
        else if d = .err then (allow a).level
        else if first = .deny then max (allow a).level (deny d).level
        else min (allow a).level (deny d).level) ≤
        if Tops.max x a = .err then (deny d).level
        else if d = .err then (allow (Tops.max x a)).level
        else if first = .deny then max (allow (Tops.max x a)).level (deny d).level
        else min (allow (Tops.max x a)).level (deny d).level) ↔
      x.level ≤ a.level ∨ a ≠ .err ∨ d = .err ∨ first = .deny ∨ (deny d).level ≤ (allow x).level := by
  by_cases ha : a = .err
  · subst ha
    have hmax : Tops.max x .err = x := eq_of_level (by simp)
    by_cases hd : d = .err
    · simp [hd]
    · simp only [hmax, hd, ne_eq, not_true_eq_false, and_false, not_false_eq_true, forall_const, if_true, if_false,
        false_or, level_err, Nat.le_zero]
      have hpos := level_pos (mt deny_eq_err_iff.1 hd)
      by_cases hx : x = .err
      · simp [hx]
      · have hzero : x.level ≠ 0 := (level_pos hx).ne'
        by_cases hfirst : first = .deny
        · simp [hx, hfirst]
        · simp only [hx, hfirst, hzero, if_false, false_or]
          omega
  · have hmax : Tops.max x a ≠ .err := by
      intro h
      have hlevel := congrArg Tops.level h
      have := level_pos ha
      simp only [level_max, level_err] at hlevel
      omega
    have hmono : (allow a).level ≤ (allow (Tops.max x a)).level := by
      refine allow_mono ?_
      rw [level_max]
      exact le_max_right _ _
    refine iff_of_true ?_ (Or.inr (Or.inl ha))
    intro _
    simp only [ha, hmax, if_false]
    split_ifs <;> omega

/-- The record is not about the address, or as high a level was denied before, or all is denied, or nothing was
(`deny none`).  Where allow records are about the address: in the order `allow,deny`, no deny records are, or they leave
no less than is allowed; in the order `deny,allow`, what the record leaves is no more than is allowed. -/
def DenyKeeps (cnf : Xsctrl) (ip : UInt32) (s : Xscf) : Prop :=
  let a := allowed cnf.recallow ip
  let d := allowed cnf.recdeny ip
  ¬ s.Covers ip ∨ s.op.level ≤ d.level ∨ s.op = .all ∨ d = .none ∨ (a = .err ∧ d = .err) ∨
    (a ≠ .err ∧ cnf.first ≠ .deny ∧ (d = .err ∨ (allow a).level ≤ (deny d).level)) ∨
    (a ≠ .err ∧ cnf.first = .deny ∧ (deny s.op).level ≤ (allow a).level)

/-- The record is not about the address, or allow records are already, or no deny records are; or the order is
`deny,allow`; or no less is allowed than the deny records leave. -/
def AllowKeeps (cnf : Xsctrl) (ip : UInt32) (s : Xscf) : Prop :=
  let a := allowed cnf.recallow ip
  let d := allowed cnf.recdeny ip
  ¬ s.Covers ip ∨ s.op.level ≤ a.level ∨ a ≠ .err ∨ d = .err ∨ cnf.first = .deny ∨
    (deny d).level ≤ (allow s.op).level

/-- A deny record raises nothing exactly when one of the conditions holds. -/
theorem notRaised_iff (cnf : Xsctrl) (ip : UInt32) (s : Xscf) :
    NotRaised (allowedOpsCnf cnf ip) (allowedOpsCnf (cnf.addDeny s) ip) ↔ DenyKeeps cnf ip s := by
  have hbefore := level_allowedOpsCnf cnf ip
  have hafter := level_allowedOpsCnf (cnf.addDeny s) ip
  simp only [NotRaised, ne_eq, allowedOpsCnf_eq_err_iff, DenyKeeps]
  rw [hbefore, hafter]
  simp only [Xsctrl.addDeny]
  by_cases hcovers : s.Covers ip
  · simp only [allowed_cons hcovers, hcovers, not_true_eq_false, false_or]
    exact denied_le_iff _ _ _ _
  · simp [allowed_cons_of_not hcovers, hcovers]

/-- An allow record lowers nothing exactly when one of the conditions holds. -/
theorem notLowered_iff (cnf : Xsctrl) (ip : UInt32) (s : Xscf) :
    NotLowered (allowedOpsCnf cnf ip) (allowedOpsCnf (cnf.addAllow s) ip) ↔ AllowKeeps cnf ip s := by
  have hbefore := level_allowedOpsCnf cnf ip
  have hafter := level_allowedOpsCnf (cnf.addAllow s) ip
  simp only [NotLowered, ne_eq, allowedOpsCnf_eq_err_iff, AllowKeeps]
  rw [hbefore, hafter]
  simp only [Xsctrl.addAllow]
  by_cases hcovers : s.Covers ip
  · simp only [allowed_cons hcovers, hcovers, not_true_eq_false, false_or]
    exact le_allowed_iff _ _ _ _
  · simp [allowed_cons_of_not hcovers, hcovers]

/-- A record added to a section does what it should exactly when it does not meet the highest level
that is denied, nor the order of the two lists, from the wrong side. -/
theorem added_record_iff (cnf : Xsctrl) (ip : UInt32) (s : Xscf) :
    (NotRaised (allowedOpsCnf cnf ip) (allowedOpsCnf (cnf.addDeny s) ip) ↔ DenyKeeps cnf ip s) ∧
      (NotLowered (allowedOpsCnf cnf ip) (allowedOpsCnf (cnf.addAllow s) ip) ↔ AllowKeeps cnf ip s) :=
  ⟨notRaised_iff cnf ip s, notLowered_iff cnf ip s⟩

/-- `deny rdonly from all` leaves nothing; with `deny drop from all` behind it, all but dropping is left. -/
theorem deny_more_allows_more :
    ¬ NotRaised (allowedOpsCnf ⟨[100], .unset, [⟨.rdonly, 0, 0⟩], []⟩ 1)
        (allowedOpsCnf (Xsctrl.addDeny ⟨[100], .unset, [⟨.rdonly, 0, 0⟩], []⟩ ⟨.drop, 0, 0⟩) 1) ∧
      ¬ NotLowered (allowedOpsCnf ⟨[100], .allow, [⟨.drop, 0, 0⟩], []⟩ 1)
        (allowedOpsCnf (Xsctrl.addAllow ⟨[100], .allow, [⟨.drop, 0, 0⟩], []⟩ ⟨.rdonly, 0, 0⟩) 1) :=
  ⟨fun h => absurd (h (by decide)) (by decide), fun h => absurd (h (by decide)) (by decide)⟩

end RdfStore.Dbms
