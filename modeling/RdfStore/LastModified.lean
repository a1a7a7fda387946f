import RdfStore.Calls
import RdfStore.Concrete
import RdfStore.Xsd.Keys

/-!
# The time of the last change (`rdfstore_kernel.c`)

`rdfstore_insert` and `rdfstore_remove` write the time of the clock under a key of
the model table when they answer 0, and `rdfstore_if_modified_since` compares it,
as a string, with a time that is asked about.  Nothing is under the key of a new
store; the field is empty then.

    after any run the answer is 0 ↔ the last call that answered 0 came after the
      time that is asked about                                  (ifModifiedSince_run)
-/

namespace RdfStore

open ByteMem

/-- `strcmp( s, t ) < 0` -/
def strcmpLt (s t : Bytes) : Bool := decide (s.takeWhile (· ≠ 0) < t.takeWhile (· ≠ 0))

/-- What is stored under `RDFSTORE_LASTMODIFIED_KEY`, the zero byte with it. -/
def stamp (now : ℤ) : Bytes := rdfstoreXsdSerializeDateTime (gmtime now) ++ [0]

/-- `rdfstore_if_modified_since` of a store that could be opened. -/
def rdfstoreIfModifiedSince (clock : Clock) (me : Store) (since : Bytes) : Except DateFault ℤ := do
  match ← rdfstoreXsdDeserializeDateTime clock since with
  | none => return -1
  | some thedateval =>
    if me.lastModified = [] then return 1
    else return if strcmpLt (rdfstoreXsdSerializeDateTime thedateval) me.lastModified then 0 else 1

/-! ## Runs -/

/-- A call that may change the store, and the time of the clock in it. -/
inductive TimedCall
  | insert (now : ℤ) (statement : Statement) (givenContext : Option Resource)
  | remove (now : ℤ) (statement : Statement) (givenContext : Option Resource)

def TimedCall.now : TimedCall → ℤ
  | .insert now _ _ => now
  | .remove now _ _ => now

section

variable (ext : Externals)

def TimedCall.exec (me : Store) : TimedCall → Option (Int × Frame)
  | .insert now statement givenContext => rdfstoreInsert ext (stamp now) me statement givenContext
  | .remove now statement givenContext => rdfstoreRemove ext (stamp now) me statement givenContext

/-- The calls one after another, and the time of the last one that answered 0; `none` when a call does not come
back. -/
def timedRun : Store → Option ℤ → List TimedCall → Option (Store × Option ℤ)
  | me, last, [] => some (me, last)
  | me, last, c :: calls =>
    match c.exec ext me with
    | none => none
    | some (r, f) => timedRun f.me (if r = 0 then some c.now else last) calls

end

/-! ## What a call writes -/

section

variable {ext : Externals}

theorem putEntry_lastModified (me : Store) (t : Index) (key : Bytes) (entry : Option Bytes) :
    (me.putEntry t key entry).lastModified = me.lastModified := by
  cases entry <;> rfl

/-- Where a removal from the tables ends, the time is as it was. -/
def KeepsTime (me : Store) : Except Exit Store → Prop
  | .ok me' => me'.lastModified = me.lastModified
  | .error (.ret _ me') => me'.lastModified = me.lastModified
  | .error .abort => True

theorem KeepsTime.bind {me : Store} {x : Except Exit Store} {f : Store → Except Exit Store} (hx : KeepsTime me x)
    (hf : ∀ me', KeepsTime me' (f me')) : KeepsTime me (x >>= f) := by
  cases x with
  | ok me' =>
    have hrest : KeepsTime me' (f me') := hf me'
    show KeepsTime me (f me')
    cases hr : f me' with
    | ok me'' =>
      rw [hr] at hrest
      exact Eq.trans hrest hx
    | error e =>
      rw [hr] at hrest
      cases e with
      | abort => trivial
      | ret status me'' => exact Eq.trans hrest hx
  | error e => exact hx

theorem KeepsTime.withErrno {me : Store} {e : Bool} {x : Except Exit Store} (h : KeepsTime { me with errno := e } x) :
    KeepsTime me x := by
  cases x with
  | ok me' => exact h
  | error e =>
    cases e with
    | abort => trivial
    | ret status me' => exact h

theorem indexRemove_keepsTime (a : Access) (me : Store) (t : Index) (key : Bytes) (i : Nat) :
    KeepsTime me (indexRemove ext a me t key i) := by
  unfold indexRemove
  simp only
  split
  · trivial
  · split
    · exact putEntry_lastModified { me with bitsDecode := _ } t key _
    · split <;> rfl

theorem removeOpt_keepsTime (t : Index) (i : Nat) (me : Store) (key : Option Bytes) :
    KeepsTime me (removeOpt ext t i me key) := by
  cases key with
  | none => rfl
  | some k => exact indexRemove_keepsTime .compressed me t k i

theorem windexRemove_lastModified {me me' : Store} {key : Bytes} {i : Nat}
    (h : windexRemove ext me key i = some me') : me'.lastModified = me.lastModified := by
  unfold windexRemove at h
  simp only at h
  split at h
  · split at h
    · cases h
    · cases h
      exact putEntry_lastModified { me with bitsDecode := _ } .windex key _
  · split at h <;> cases h <;> rfl

theorem removeWindex_lastModified {i : Nat} (keys : List WindexKey) {me me' : Store}
    (h : keys.foldlM (fun me k => windexRemove ext me k.bytes i) me = some me') :
    me'.lastModified = me.lastModified := by
  induction keys generalizing me with
  | nil =>
    cases h
    rfl
  | cons k keys ih =>
    rw [List.foldlM_cons, Option.bind_eq_bind, Option.bind_eq_some_iff] at h
    obtain ⟨me₁, h₁, h₂⟩ := h
    exact (ih h₂).trans (windexRemove_lastModified h₁)

theorem removeLiteral_keepsTime (me : Store) (l : Literal) (i : Nat) : KeepsTime me (removeLiteral ext me l i) := by
  have hwindex : KeepsTime me (orAbort ((literalWindexKeys ext me.freetext me.errno l).2.foldlM
      (fun me k => windexRemove ext me k.bytes i)
      { me with errno := (literalWindexKeys ext me.freetext me.errno l).1 })) := by
    cases h : (literalWindexKeys ext me.freetext me.errno l).2.foldlM (fun me k => windexRemove ext me k.bytes i)
      { me with errno := (literalWindexKeys ext me.freetext me.errno l).1 } with
    | none => trivial
    | some me' =>
      have hsame := removeWindex_lastModified _ h
      exact hsame
  unfold removeLiteral
  refine hwindex.bind fun me₁ => ?_
  refine (removeOpt_keepsTime _ _ _ _).bind fun me₂ => ?_
  refine (removeOpt_keepsTime _ _ _ _).bind fun me₃ => ?_
  cases dateKey ext me₃.errno l with
  | none => trivial
  | some d =>
    refine (removeOpt_keepsTime _ _ _ _).withErrno.bind fun me₄ => ?_
    refine (removeOpt_keepsTime _ _ _ _).withErrno.bind fun me₅ => ?_
    exact (removeOpt_keepsTime _ _ _ _).withErrno

theorem removeTables_keepsTime {me : Store} {a : Args} {context : Option Resource} {i : Nat} {x : Except Exit Store}
    (h : removeTables ext me a context i = x) : KeepsTime me x := by
  rw [← h, removeTables]
  refine (indexRemove_keepsTime _ _ _ _ _).bind fun me₁ => ?_
  refine (indexRemove_keepsTime _ _ _ _ _).bind fun me₂ => ?_
  refine (indexRemove_keepsTime _ _ _ _ _).bind fun me₃ => ?_
  refine (removeOpt_keepsTime _ _ _ _).bind fun me₄ => ?_
  cases a.object with
  | resource r => rfl
  | literal l => exact removeLiteral_keepsTime me₄ l i

theorem InsertCase.lastModified {now : Bytes} {me me' : Store} {st : Statement} {given : Option Resource} {r : Int}
    (h : InsertCase ext now me st given r me') : me'.lastModified = if r = 0 then now else me.lastModified := by
  cases h with
  | badArgs hargs => rfl
  | present a hargs hin => rfl
  | full a hargs hout hfull => rfl
  | mismatch a hargs hout hroom hmis => rfl
  | stored a hargs hout hroom hmis me'' htables => rfl

theorem RemoveCase.lastModified {now : Bytes} {me me' : Store} {st : Statement} {given : Option Resource} {r : Int}
    (h : RemoveCase ext now me st given r me') : me'.lastModified = if r = 0 then now else me.lastModified := by
  cases h with
  | badArgs hargs => rfl
  | absent a hargs hout => rfl
  | noNode a hargs data hin hnode => rfl
  | halfWay a hargs data hin nodes hnode status me'' htables =>
    rw [(removeTables_ret htables).1, if_neg (by decide)]
    exact removeTables_keepsTime htables
  | noStatement a hargs data hin nodes hnode me'' htables hstatement =>
    exact removeTables_keepsTime htables
  | removed a hargs data hin nodes hnode me'' htables statements hstatement => rfl

theorem TimedCall.exec_lastModified {c : TimedCall} {me : Store} {r : Int} {f : Frame}
    (h : c.exec ext me = some (r, f)) :
    f.me.lastModified = if r = 0 then stamp c.now else me.lastModified := by
  cases c with
  | insert now statement givenContext => exact (rdfstoreInsert_cases h).lastModified
  | remove now statement givenContext => exact (rdfstoreRemove_cases h).lastModified

/-! ## The answer -/

/-- The store knows the time of its last change. -/
def Dated (me : Store) (last : Option ℤ) : Prop := me.lastModified = (last.map stamp).getD []

theorem Dated.exec {me : Store} {last : Option ℤ} (hdated : Dated me last) {c : TimedCall} {r : Int} {f : Frame}
    (h : c.exec ext me = some (r, f)) : Dated f.me (if r = 0 then some c.now else last) := by
  have hwritten := TimedCall.exec_lastModified h
  unfold Dated
  split at hwritten
  · next hr => rw [hwritten, if_pos hr, Option.map_some, Option.getD_some]
  · next hr => rw [hwritten, if_neg hr, hdated]

/-- The time of the last change, and that it is one of the run's or the first one. -/
theorem Dated.run {me : Store} {last : Option ℤ} (hdated : Dated me last) {calls : List TimedCall} {me' : Store}
    {last' : Option ℤ} (hrun : timedRun ext me last calls = some (me', last')) :
    Dated me' last' ∧ (last' = last ∨ ∃ c ∈ calls, last' = some c.now) := by
  induction calls generalizing me last with
  | nil =>
    cases hrun
    exact ⟨hdated, Or.inl rfl⟩
  | cons c calls ih =>
    unfold timedRun at hrun
    cases hexec : c.exec ext me with
    | none =>
      rw [hexec] at hrun
      cases hrun
    | some p =>
      obtain ⟨r, f⟩ := p
      rw [hexec] at hrun
      obtain ⟨hlast, hfrom⟩ := ih (hdated.exec hexec) hrun
      refine ⟨hlast, ?_⟩
      rcases hfrom with hsame | ⟨d, hd, hnow⟩
      · split at hsame
        · exact Or.inr ⟨c, List.mem_cons_self, hsame⟩
        · exact Or.inl hsame
      · exact Or.inr ⟨d, List.mem_cons_of_mem c hd, hnow⟩

theorem zero_not_mem_key {t : Tm} (h : t.Valid) : ∀ c ∈ rdfstoreXsdSerializeDateTime t, c ≠ 0 := by
  rintro c hc rfl
  rw [serializeDateTime_eq, List.mem_append, List.mem_append] at hc
  rcases hc with (hday | hclock) | hz
  · exact h.not_mem_dayText (by decide) (by decide) hday
  · exact h.not_mem_clockText (by decide) (by decide) (by decide) hclock
  · exact absurd hz (by decide)

theorem strcmpLt_stamp {tm : Tm} (htm : tm.FourDigits) {now : ℤ} (hnow : (gmtime now).FourDigits) :
    strcmpLt (rdfstoreXsdSerializeDateTime tm) (stamp now) = decide (tm.seconds < now) := by
  have hkey : ∀ c ∈ rdfstoreXsdSerializeDateTime tm, decide (c ≠ 0) = true := fun c hc =>
    decide_eq_true (zero_not_mem_key htm.toValid c hc)
  have hkey' : ∀ c ∈ rdfstoreXsdSerializeDateTime (gmtime now), decide (c ≠ 0) = true := fun c hc =>
    decide_eq_true (zero_not_mem_key hnow.toValid c hc)
  have horder := serializeDateTime_append_lt_iff htm hnow []
  rw [List.append_nil, List.append_nil, (gmtime_spec now).2] at horder
  unfold strcmpLt stamp
  rw [List.takeWhile_append_of_pos hkey', List.takeWhile_cons_of_neg (by decide), List.append_nil,
    List.takeWhile_eq_self_iff.2 hkey]
  exact decide_eq_decide.2 horder

/-- After any run from a new store: 1 when no call has changed it, and otherwise 0 exactly when the last call that
did came after the time that is asked about. -/
theorem ifModifiedSince_run {freetext errno : Bool} {calls : List TimedCall} {me : Store} {last : Option ℤ}
    (hrun : timedRun ext (rdfstoreConnect freetext errno []) none calls = some (me, last))
    (htimes : ∀ c ∈ calls, 0 ≤ c.now ∧ c.now < 253402300800) {clock : Clock} {since : Bytes} {tm : Tm}
    (hsince : rdfstoreXsdDeserializeDateTime clock since = .ok (some tm)) (htm : tm.FourDigits) :
    rdfstoreIfModifiedSince clock me since =
      .ok (last.elim 1 fun now => if tm.seconds < now then 0 else 1) := by
  obtain ⟨hdated, hfrom⟩ := Dated.run (show Dated (rdfstoreConnect freetext errno []) none from rfl) hrun
  unfold Dated at hdated
  unfold rdfstoreIfModifiedSince
  rw [hsince]
  simp only [bind, Except.bind]
  cases last with
  | none =>
    rw [show me.lastModified = [] from hdated, if_pos rfl]
    rfl
  | some now =>
    have hnow : (gmtime now).FourDigits := by
      rcases hfrom with hnone | ⟨c, hc, hlast⟩
      · cases hnone
      · cases hlast
        exact gmtime_fourDigits (htimes c hc)
    have hstamp : me.lastModified = stamp now := hdated
    rw [hstamp, if_neg (by simp [stamp]), strcmpLt_stamp htm hnow]
    simp only [decide_eq_true_eq]
    rfl

end

/-- A store changed in the second 100 was changed since the second 99, and not since the second 100. -/
theorem ifModifiedSince_run_insert :
    (timedRun asciiExternals (rdfstoreConnect false false []) none
        [.insert 100 (triple (uri 97) (uri 98) (.resource (uri 99))) none]).map (fun p =>
      (rdfstoreIfModifiedSince (utcClock 0) p.1 (ascii "1970-01-01T00:01:39Z"),
        rdfstoreIfModifiedSince (utcClock 0) p.1 (ascii "1970-01-01T00:01:40Z"))) = some (.ok 0, .ok 1) := by
  have hlast : (timedRun asciiExternals (rdfstoreConnect false false []) none
      [.insert 100 (triple (uri 97) (uri 98) (.resource (uri 99))) none]).map Prod.snd = some (some 100) := by
    decide +kernel
  have hread : rdfstoreXsdDeserializeDateTime (utcClock 0) (ascii "1970-01-01T00:01:39Z") =
      .ok (some ⟨39, 1, 0, 1, 0, 70⟩) := by decide +kernel
  have hread' : rdfstoreXsdDeserializeDateTime (utcClock 0) (ascii "1970-01-01T00:01:40Z") =
      .ok (some ⟨40, 1, 0, 1, 0, 70⟩) := by decide +kernel
  obtain ⟨⟨me, last⟩, hrun, hlast⟩ := Option.map_eq_some_iff.1 hlast
  obtain rfl : last = some 100 := hlast
  have hfour : Tm.FourDigits ⟨39, 1, 0, 1, 0, 70⟩ :=
    ⟨⟨by decide, by decide, by decide, by decide, by decide⟩, by decide, by decide⟩
  have hfour' : Tm.FourDigits ⟨40, 1, 0, 1, 0, 70⟩ :=
    ⟨⟨by decide, by decide, by decide, by decide, by decide⟩, by decide, by decide⟩
  have htimes : ∀ c ∈ [TimedCall.insert 100 (triple (uri 97) (uri 98) (.resource (uri 99))) none],
      0 ≤ c.now ∧ c.now < 253402300800 := by
    intro c hc
    cases List.mem_singleton.1 hc
    decide
  rw [hrun, Option.map_some, ifModifiedSince_run hrun htimes hread hfour,
    ifModifiedSince_run hrun htimes hread' hfour']
  decide

end RdfStore
