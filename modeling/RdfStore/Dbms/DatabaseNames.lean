import RdfStore.Dbms.Requests

/-!
# The databases behind the names (`get_dbp`, `mkpath`)

The name a client sends is cleaned up: what is not alphanumeric goes, and so
does all behind the first 254 bytes.  Two connections get one open database when
their cleaned up names are the same.  The file comes from the cleaned up name:
the base directory is taken off in front if the name begins with it, and the
first two characters name a directory in between.

    the same open database → the same cleaned up name
    the same file          → the same cleaned up name, less the base directory    (databases_apart)
-/

namespace RdfStore.Dbms

open ByteMem

/-! ## Paths -/

/-- `strrchr`: what stands before the last `c` and what behind it. -/
def strrchr (c : UInt8) : Bytes → Option (Bytes × Bytes)
  | [] => none
  | d :: l =>
    match strrchr c l with
    | some (p, s) => some (d :: p, s)
    | none => if d = c then some ([], l) else none

def tolower (c : UInt8) : UInt8 := if 65 ≤ c ∧ c ≤ 90 then c + 32 else c

/-- The standard docroot is removed if present. -/
def relativeName (base inpath : Bytes) : Bytes :=
  if base.isPrefixOf inpath then inpath.drop base.length else inpath

/-- The path and the last leaf name. -/
def leafName (inpath : Bytes) : Bytes × Bytes :=
  match strrchr 47 inpath with
  | some (path, file) => (path, file)
  | none => ([47], inpath)

/-- `hash`: two characters of the file, or underscores. -/
def hashName (file : Bytes) : Bytes := (file ++ [95, 95]).take 2

/-- The endings that are taken off before `.db` is put behind the name. -/
def dropEnding (tmp : Bytes) : Bytes :=
  match strrchr 46 tmp with
  | some (path, ending) =>
    if ending.map tolower = [100, 98] ∨ ending.map tolower = [100, 98, 109] ∨
      ending.map tolower = [103, 100, 98] then path else tmp
  | none => tmp

/-- Of a run of slashes the first is kept.  The copying overwrites no byte that is still to be
compared. -/
def collapseSlashes (before : Option UInt8) : Bytes → Bytes
  | [] => []
  | c :: l =>
    if before = some 47 ∧ c = 47 then collapseSlashes (some c) l else c :: collapseSlashes (some c) l

/-- `mkpath`, for a base directory that leaves room in `tmp`; `dirs` says that the directories on a
path are there or can be made. -/
def mkpath (dirs : Bytes → Bool) (base : Option Bytes) (infile : Bytes) : Option Bytes :=
  let base := base.getD [47]
  if infile = [] then none
  else
    let (inpath, file) := leafName (relativeName base infile)
    if file = [] then none
    else
      let tmp := 47 :: (base ++ 47 :: (inpath ++ 47 :: (hashName file ++ 47 :: file)))
      let tmp := collapseSlashes none (dropEnding tmp ++ [46, 100, 98])
      if dirs tmp then some tmp else none

/-! ## The process with its databases -/

/-- `struct dbase` -/
structure DbaseRecord where
  /-- which of the records that were ever made it is -/
  id : Nat
  name : Bytes
  pfile : Bytes
  btCompareFcnType : UInt32
  deriving DecidableEq

/-- The mother or a child. -/
structure Process where
  role : Role
  firstDbp : List DbaseRecord
  dbaseCounter : Nat
  /-- how many records have been made -/
  made : Nat

/-- The answer of `create_new_child`: a child, NULL with `errno`, or NULL without. -/
inductive NewChild
  | child
  | failed
  | nothing
  deriving DecidableEq

/-- What the system answers while a database is opened. -/
structure Opening where
  memory : Bool
  dirs : Bytes → Bool
  file : Bool
  newChild : NewChild
  opened : Bool

def Process.start (role : Role) : Process := ⟨role, [], 0, 0⟩

/-- A new record at the head of the list. -/
def Process.add (p : Process) (name pfile : Bytes) (btCompareFcnType : UInt32) : Process :=
  { p with
    firstDbp := ⟨p.made, name, pfile, btCompareFcnType⟩ :: p.firstDbp
    dbaseCounter := p.dbaseCounter + 1
    made := p.made + 1 }

/-- The end of `get_dbp`: a database that is not open yet. -/
def Process.openNew (myDir : Bytes) (p : Process) (sys : Opening) (op : Tops) (name v2 : Bytes)
    (btCompareFcnType : UInt32) : Process × Option DbaseRecord :=
  -- HARD_MAX_DBASE, MAX_STATIC_NAME
  if p.dbaseCounter > 256 then (p, none)
  else if ¬ sys.memory then (p, none)
  else if 1 + v2.length > 256 then (p, none)
  else
    match mkpath sys.dirs (some myDir) name with
    | none => (p, none)
    | some pfile =>
      if op.level < Tops.creat.level ∧ ¬ sys.file then (p, none)
      else
        let d : DbaseRecord := ⟨p.made, name, pfile, btCompareFcnType⟩
        match p.role with
        | .mother =>
          match sys.newChild with
          | .child => (p.add name pfile btCompareFcnType, some d)
          | .failed => (p, none)
          -- the record stays on the list
          | .nothing => (p.add name pfile btCompareFcnType, none)
        | .child => if sys.opened then (p.add name pfile btCompareFcnType, some d) else (p, none)

/-- `get_dbp`: the process, `r->op` and the database or NULL. -/
def Process.getDbp (xscontrols : List Xsctrl) (myDir : Bytes) (p : Process) (sys : Opening)
    (address xsmode btCompareFcnType : UInt32) (v2 : Bytes) : Process × Tops × Option DbaseRecord :=
  let name := cleanName v2
  let op := allowedOpsOnDbase xscontrols address name
  match xsmodeOps xsmode with
  | none => (p, op, none)
  | some mops =>
    if mops.level > op.level then (p, op, none)
    else
      let op := Tops.min mops op
      match p.firstDbp.find? (·.name = name) with
      | some d =>
        -- in the mother the comparison function is not looked at
        if d.btCompareFcnType &&& btCompareFcnType = btCompareFcnType ∨ p.role = .mother then (p, op, some d)
        else (p, op, none)
      | none =>
        let (p, d) := p.openNew myDir sys op name v2 btCompareFcnType
        (p, op, d)

/-- `zap_dbs` -/
def Process.zapDbs (p : Process) (id : Nat) : Process :=
  if p.firstDbp.any (·.id = id) then
    { p with firstDbp := p.firstDbp.eraseP (·.id = id), dbaseCounter := p.dbaseCounter - 1 }
  else p

/-- What happens in a process: a connection asks for a database, or a database is closed. -/
inductive ProcessStep
  | getDbp (sys : Opening) (address xsmode btCompareFcnType : UInt32) (v2 : Bytes)
  | zapDbs (id : Nat)

/-- A connection's name and the database that it was given. -/
abbrev Given := Bytes × DbaseRecord

/-- One step, and the database that it gives. -/
def Process.step (xscontrols : List Xsctrl) (myDir : Bytes) (p : Process) : ProcessStep → Process × Option Given
  | .getDbp sys address xsmode btCompareFcnType v2 =>
    let (p, _, d) := p.getDbp xscontrols myDir sys address xsmode btCompareFcnType v2
    (p, d.map (v2, ·))
  | .zapDbs id => (p.zapDbs id, none)

/-- All that a process gives to its connections in a run. -/
def Process.given (xscontrols : List Xsctrl) (myDir : Bytes) : Process → List ProcessStep → List Given
  | _, [] => []
  | p, s :: run =>
    let (p, g) := p.step xscontrols myDir s
    g.toList ++ p.given xscontrols myDir run

/-! ## What stands behind the last slash -/

theorem strrchr_some {c : UInt8} {l p s : Bytes} (h : strrchr c l = some (p, s)) : l = p ++ c :: s := by
  induction l generalizing p s with
  | nil => cases h
  | cons d l ih =>
    unfold strrchr at h
    cases hl : strrchr c l with
    | some q =>
      rw [hl] at h
      cases h
      rw [ih hl]
      rfl
    | none =>
      rw [hl] at h
      obtain ⟨hd, h⟩ := Option.ite_none_right_eq_some.1 h
      cases h
      rw [hd]
      rfl

theorem strrchr_of_not_mem {c : UInt8} {l : Bytes} (h : c ∉ l) : strrchr c l = none := by
  cases hl : strrchr c l with
  | none => rfl
  | some q =>
    refine absurd ?_ h
    rw [strrchr_some hl]
    exact List.mem_append_right _ List.mem_cons_self

/-- Two rests of one string behind a character: one without the character is within the other. -/
theorem suffix_of_append {c : UInt8} {p s a t : Bytes} (h : p ++ c :: s = a ++ t) (ht : c ∉ t) : t <:+ s := by
  have hs : c :: s <:+ a ++ t := ⟨p, h⟩
  obtain hle | hle := List.suffix_or_suffix_of_suffix hs (List.suffix_append a t)
  · exact absurd (hle.subset List.mem_cons_self) ht
  · obtain heq | hle := List.suffix_cons_iff.1 hle
    · exact absurd (heq ▸ List.mem_cons_self) ht
    · exact hle

/-- The last slash tells where the leaf begins. -/
theorem leaf_inj {a b s t : Bytes} (hs : (47 : UInt8) ∉ s) (ht : (47 : UInt8) ∉ t)
    (h : a ++ 47 :: s = b ++ 47 :: t) : s = t :=
  (suffix_of_append (h.symm.trans (List.append_cons a 47 s)) hs).eq_of_length_le
    (suffix_of_append (h.trans (List.append_cons b 47 t)) ht).length_le

/-- A file without a dot keeps its name: the ending taken off would reach back over a slash. -/
theorem dropEnding_of_leaf {a file : Bytes} (h : (46 : UInt8) ∉ file) :
    dropEnding (a ++ 47 :: file) = a ++ 47 :: file := by
  unfold dropEnding
  cases hdot : strrchr 46 (a ++ 47 :: file) with
  | none => rfl
  | some q =>
    obtain ⟨path, ending⟩ := q
    have hmem : (46 : UInt8) ∉ 47 :: file := by
      rw [List.mem_cons, not_or]
      exact ⟨by decide, h⟩
    have hsuffix : 47 :: file <:+ ending := suffix_of_append (strrchr_some hdot).symm hmem
    have hslash : (47 : UInt8) ∈ ending.map tolower :=
      List.mem_map.2 ⟨47, hsuffix.subset List.mem_cons_self, by decide⟩
    refine if_neg ?_
    rintro (heq | heq | heq)
    all_goals
      rw [heq] at hslash
      revert hslash
      decide

theorem collapseSlashes_of_not_mem {l : Bytes} (h : (47 : UInt8) ∉ l) (before : Option UInt8) :
    collapseSlashes before l = l := by
  induction l generalizing before with
  | nil => rfl
  | cons c l ih =>
    have hc : c ≠ 47 := fun heq => h (heq ▸ List.mem_cons_self)
    rw [collapseSlashes, if_neg (fun hboth => hc hboth.2), ih (fun hl => h (List.mem_cons_of_mem _ hl))]

/-- Runs of slashes in front do not touch the leaf; a slash in front of it that goes has one before. -/
theorem collapseSlashes_leaf {leaf : Bytes} (h : (47 : UInt8) ∉ leaf) (a : Bytes) (before : Option UInt8) :
    ∃ b, (if before = some 47 then [47] else []) ++ collapseSlashes before (a ++ 47 :: leaf) = b ++ 47 :: leaf := by
  induction a generalizing before with
  | nil =>
    rw [List.nil_append, collapseSlashes, collapseSlashes_of_not_mem h]
    by_cases hbefore : before = some 47
    · rw [if_pos hbefore, if_pos ⟨hbefore, rfl⟩]
      exact ⟨[], rfl⟩
    · rw [if_neg hbefore, if_neg fun hboth => hbefore hboth.1]
      exact ⟨[], rfl⟩
  | cons c a ih =>
    obtain ⟨b, hb⟩ := ih (some c)
    rw [List.cons_append, collapseSlashes]
    by_cases hdouble : before = some 47 ∧ c = 47
    · obtain ⟨rfl, rfl⟩ := hdouble
      rw [if_pos rfl, if_pos ⟨rfl, rfl⟩]
      exact ⟨b, hb⟩
    · rw [if_neg hdouble]
      by_cases hc : c = 47
      · rw [if_pos (congrArg some hc)] at hb
        exact ⟨_ ++ b, by rw [hc, List.append_assoc, ← hb, hc]; rfl⟩
      · rw [if_neg fun heq => hc (Option.some.inj heq), List.nil_append] at hb
        exact ⟨_ ++ c :: b, by rw [hb, List.append_assoc]; rfl⟩

/-- A name that goes through `mkpath` unharmed. -/
def PlainName (name : Bytes) : Prop := (47 : UInt8) ∉ name ∧ (46 : UInt8) ∉ name

theorem cleanName_plain (v2 : Bytes) : PlainName (cleanName v2) := by
  refine ⟨fun h => ?_, fun h => ?_⟩
  all_goals
    have hc := List.of_mem_filter h
    revert hc
    decide

theorem relativeName_sublist (base name : Bytes) : (relativeName base name).Sublist name := by
  unfold relativeName
  split
  · exact List.drop_sublist _ _
  · exact List.Sublist.refl _

/-- The path of a plain name ends in the name, less the base directory, and `.db`. -/
theorem mkpath_leaf {dirs : Bytes → Bool} {base name path : Bytes} (hname : PlainName name)
    (h : mkpath dirs (some base) name = some path) :
    ∃ b, path = b ++ 47 :: (relativeName base name ++ [46, 100, 98]) := by
  have hsub := (relativeName_sublist base name).subset
  have hslash : (47 : UInt8) ∉ relativeName base name := fun hmem => hname.1 (hsub hmem)
  have hdot : (46 : UInt8) ∉ relativeName base name := fun hmem => hname.2 (hsub hmem)
  have hleaf : leafName (relativeName base name) = ([47], relativeName base name) := by
    rw [leafName, strrchr_of_not_mem hslash]
  generalize hfile : relativeName base name = file at *
  have hnot : (47 : UInt8) ∉ file ++ [46, 100, 98] := by
    rw [List.mem_append, not_or]
    exact ⟨hslash, by decide⟩
  unfold mkpath at h
  rw [Option.getD_some] at h
  split at h
  · cases h
  · simp only [hfile, hleaf] at h
    split at h
    · cases h
    · obtain ⟨-, h⟩ := Option.ite_none_right_eq_some.1 h
      have htmp : 47 :: (base ++ 47 :: ([47] ++ 47 :: (hashName file ++ 47 :: file))) =
          (47 :: (base ++ 47 :: ([47] ++ 47 :: hashName file))) ++ 47 :: file := by
        simp only [List.cons_append, List.append_assoc, List.nil_append]
      rw [htmp, dropEnding_of_leaf hdot, List.append_assoc, List.cons_append] at h
      obtain ⟨b, hb⟩ := collapseSlashes_leaf hnot (47 :: (base ++ 47 :: ([47] ++ 47 :: hashName file))) none
      rw [if_neg (by decide), List.nil_append] at hb
      exact ⟨b, (Option.some.inj h).symm.trans hb⟩

/-- Two plain names with one path are the same, less the base directory. -/
theorem mkpath_inj {dirs dirs' : Bytes → Bool} {base a b path : Bytes} (ha : PlainName a) (hb : PlainName b)
    (hpa : mkpath dirs (some base) a = some path) (hpb : mkpath dirs' (some base) b = some path) :
    relativeName base a = relativeName base b := by
  obtain ⟨pa, ha'⟩ := mkpath_leaf ha hpa
  obtain ⟨pb, hb'⟩ := mkpath_leaf hb hpb
  have hleaf {name : Bytes} (h : PlainName name) : (47 : UInt8) ∉ relativeName base name ++ [46, 100, 98] := by
    rw [List.mem_append, not_or]
    exact ⟨fun hmem => h.1 ((relativeName_sublist base name).subset hmem), by decide⟩
  exact List.append_cancel_right (leaf_inj (hleaf ha) (hleaf hb) (ha'.symm.trans hb'))

/-- No plain name begins with an absolute directory. -/
theorem relativeName_of_absolute {base name : Bytes} (hbase : base.head? = some 47) (hname : PlainName name) :
    relativeName base name = name := by
  refine if_neg fun h => ?_
  obtain ⟨rest, rfl⟩ := List.isPrefixOf_iff_prefix.1 h
  have hmem : (47 : UInt8) ∈ base := List.mem_of_head? hbase
  exact hname.1 (List.mem_append_left _ hmem)

/-! ## The records that a process makes -/

/-- The records of a process are numbered in the order in which they are made; each one has the name
and the file that it was made with. -/
structure Process.Logged (myDir : Bytes) (log : List DbaseRecord) (p : Process) : Prop where
  made : p.made = log.length
  listed : ∀ d ∈ p.firstDbp, log[d.id]? = some d
  filed : ∀ d ∈ log, PlainName d.name ∧ ∃ dirs, mkpath dirs (some myDir) d.name = some d.pfile

/-- A connection is given a record with its cleaned up name. -/
structure Given.Logged (log : List DbaseRecord) (g : Given) : Prop where
  logged : log[g.2.id]? = some g.2
  named : g.2.name = cleanName g.1

theorem getElem?_mono {log log' : List DbaseRecord} (h : log <+: log') {k : Nat} {d : DbaseRecord}
    (hd : log[k]? = some d) : log'[k]? = some d := by
  obtain ⟨more, rfl⟩ := h
  obtain ⟨hk, -⟩ := List.getElem?_eq_some_iff.1 hd
  rw [List.getElem?_append_left hk, hd]

theorem Given.Logged.mono {log log' : List DbaseRecord} (h : log <+: log') {g : Given} (hg : Given.Logged log g) :
    Given.Logged log' g := ⟨getElem?_mono h hg.logged, hg.named⟩

section

variable {xscontrols : List Xsctrl} {myDir : Bytes} {log : List DbaseRecord} {p : Process}

/-- A record is added with the number that is next. -/
theorem Process.Logged.add (h : p.Logged myDir log) {name pfile : Bytes} {dirs : Bytes → Bool}
    (hname : PlainName name) (hpath : mkpath dirs (some myDir) name = some pfile) (btCompareFcnType : UInt32) :
    (p.add name pfile btCompareFcnType).Logged myDir (log ++ [⟨p.made, name, pfile, btCompareFcnType⟩]) ∧
      (log ++ [⟨p.made, name, pfile, btCompareFcnType⟩])[p.made]? = some ⟨p.made, name, pfile, btCompareFcnType⟩ := by
  have hnew : (log ++ [(⟨p.made, name, pfile, btCompareFcnType⟩ : DbaseRecord)])[p.made]? =
      some ⟨p.made, name, pfile, btCompareFcnType⟩ := by
    rw [h.made, List.getElem?_concat_length]
  refine ⟨⟨?_, fun d hd => ?_, fun d hd => ?_⟩, hnew⟩
  · rw [List.length_append, List.length_singleton, ← h.made]
    rfl
  · obtain rfl | hd := List.mem_cons.1 hd
    · exact hnew
    · exact getElem?_mono (List.prefix_append log _) (h.listed d hd)
  · obtain hd | hd := List.mem_append.1 hd
    · exact h.filed d hd
    · rw [List.mem_singleton.1 hd]
      exact ⟨hname, dirs, hpath⟩

/-- What a step leaves: records may have been added to the log, and what is given is in it. -/
def Grows (myDir : Bytes) (log : List DbaseRecord) (p : Process) (given : Option Given) : Prop :=
  ∃ log', log <+: log' ∧ p.Logged myDir log' ∧ ∀ g ∈ given, Given.Logged log' g

theorem Process.Logged.grows (h : p.Logged myDir log) : Grows myDir log p none :=
  ⟨log, List.prefix_rfl, h, fun _ => nofun⟩

theorem openNew_grows (h : p.Logged myDir log) (sys : Opening) (op : Tops) (v2 : Bytes) (btCompareFcnType : UInt32) :
    Grows myDir log (p.openNew myDir sys op (cleanName v2) v2 btCompareFcnType).1
      ((p.openNew myDir sys op (cleanName v2) v2 btCompareFcnType).2.map (v2, ·)) := by
  have hnone : Grows myDir log p none := h.grows
  unfold Process.openNew
  cases hpath : mkpath sys.dirs (some myDir) (cleanName v2) with
  | none => split_ifs <;> exact hnone
  | some pfile =>
    obtain ⟨hlogged, hnew⟩ := h.add (cleanName_plain v2) hpath btCompareFcnType
    have hprefix := List.prefix_append log [(⟨p.made, cleanName v2, pfile, btCompareFcnType⟩ : DbaseRecord)]
    have hgiven : Grows myDir log (p.add (cleanName v2) pfile btCompareFcnType)
        (some (v2, ⟨p.made, cleanName v2, pfile, btCompareFcnType⟩)) := by
      refine ⟨_, hprefix, hlogged, fun g hg => ?_⟩
      cases hg
      exact ⟨hnew, rfl⟩
    have hkept : Grows myDir log (p.add (cleanName v2) pfile btCompareFcnType) none :=
      ⟨_, hprefix, hlogged, fun _ => nofun⟩
    cases p.role with
    | mother => cases sys.newChild <;> split_ifs <;> assumption
    | child => split_ifs <;> assumption

theorem getDbp_grows (h : p.Logged myDir log) (sys : Opening) (address xsmode btCompareFcnType : UInt32)
    (v2 : Bytes) :
    Grows myDir log (p.getDbp xscontrols myDir sys address xsmode btCompareFcnType v2).1
      ((p.getDbp xscontrols myDir sys address xsmode btCompareFcnType v2).2.2.map (v2, ·)) := by
  have hnone : Grows myDir log p none := h.grows
  unfold Process.getDbp
  cases xsmodeOps xsmode with
  | none => exact hnone
  | some mops =>
    dsimp only
    split_ifs
    · exact hnone
    · cases hfind : p.firstDbp.find? (·.name = cleanName v2) with
      | some d =>
        have hdecide := List.find?_some hfind
        have hname : d.name = cleanName v2 := of_decide_eq_true hdecide
        have hlisted := h.listed d (List.mem_of_find?_eq_some hfind)
        dsimp only
        split_ifs
        · refine ⟨log, List.prefix_rfl, h, fun g hg => ?_⟩
          cases hg
          exact ⟨hlisted, hname⟩
        · exact hnone
      | none => exact openNew_grows h sys _ v2 btCompareFcnType

theorem zapDbs_logged (h : p.Logged myDir log) (id : Nat) : (p.zapDbs id).Logged myDir log := by
  unfold Process.zapDbs
  split_ifs
  · exact ⟨h.made, fun d hd => h.listed d (List.mem_of_mem_eraseP hd), h.filed⟩
  · exact h

theorem step_grows (h : p.Logged myDir log) (s : ProcessStep) :
    Grows myDir log (p.step xscontrols myDir s).1 (p.step xscontrols myDir s).2 := by
  cases s with
  | getDbp sys address xsmode btCompareFcnType v2 => exact getDbp_grows h sys address xsmode btCompareFcnType v2
  | zapDbs id => exact (zapDbs_logged h id).grows

theorem given_logged (run : List ProcessStep) (h : p.Logged myDir log) :
    ∃ log', log <+: log' ∧ (∀ d ∈ log', PlainName d.name ∧ ∃ dirs, mkpath dirs (some myDir) d.name = some d.pfile) ∧
      ∀ g ∈ p.given xscontrols myDir run, Given.Logged log' g := by
  induction run generalizing p log with
  | nil => exact ⟨log, List.prefix_rfl, h.filed, fun _ => nofun⟩
  | cons s run ih =>
    obtain ⟨log₁, hprefix₁, hlogged₁, hgiven₁⟩ := @step_grows xscontrols myDir log p h s
    obtain ⟨log₂, hprefix₂, hfiled₂, hgiven₂⟩ := ih hlogged₁
    refine ⟨log₂, hprefix₁.trans hprefix₂, hfiled₂, fun g hg => ?_⟩
    obtain hg | hg := List.mem_append.1 hg
    · exact (hgiven₁ g (Option.mem_toList.1 hg)).mono hprefix₂
    · exact hgiven₂ g hg

theorem start_logged (role : Role) : (Process.start role).Logged myDir [] := ⟨rfl, fun _ => nofun, fun _ => nofun⟩

end

/-! ## Databases are kept apart by their cleaned up names -/

section

variable (xscontrols : List Xsctrl) (myDir : Bytes) (role role' : Role) (run run' : List ProcessStep)

/-- Whatever connections ask for and however their requests come out, in the mother and in the
children: within a process one database goes to connections with one cleaned up name only; in the
server one file stands behind cleaned up names only that are the same less the base directory, and
the same altogether when the base directory is absolute. -/
theorem databases_apart :
    (∀ g ∈ (Process.start role).given xscontrols myDir run, ∀ h ∈ (Process.start role).given xscontrols myDir run,
      g.2.id = h.2.id → cleanName g.1 = cleanName h.1) ∧
    ∀ g ∈ (Process.start role).given xscontrols myDir run, ∀ h ∈ (Process.start role').given xscontrols myDir run',
      g.2.pfile = h.2.pfile →
        relativeName myDir (cleanName g.1) = relativeName myDir (cleanName h.1) ∧
          (myDir.head? = some 47 → cleanName g.1 = cleanName h.1) := by
  obtain ⟨log, -, hfiled, hgiven⟩ := @given_logged xscontrols myDir [] _ run (start_logged role)
  obtain ⟨log', -, hfiled', hgiven'⟩ := @given_logged xscontrols myDir [] _ run' (start_logged role')
  refine ⟨fun g hg h hh hid => ?_, fun g hg h hh hfile => ?_⟩
  · have hrecord : some g.2 = some h.2 := by
      rw [← (hgiven g hg).logged, ← (hgiven h hh).logged, hid]
    rw [← (hgiven g hg).named, ← (hgiven h hh).named, Option.some.inj hrecord]
  · obtain ⟨hplain, dirs, hpath⟩ := hfiled g.2 (List.mem_of_getElem? (hgiven g hg).logged)
    obtain ⟨hplain', dirs', hpath'⟩ := hfiled' h.2 (List.mem_of_getElem? (hgiven' h hh).logged)
    have hrelative : relativeName myDir g.2.name = relativeName myDir h.2.name :=
      mkpath_inj hplain hplain' hpath (hfile ▸ hpath')
    rw [(hgiven g hg).named] at hrelative hplain
    rw [(hgiven' h hh).named] at hrelative hplain'
    refine ⟨hrelative, fun habsolute => ?_⟩
    rwa [relativeName_of_absolute habsolute hplain, relativeName_of_absolute habsolute hplain'] at hrelative

end

/-! ## The answer of `get_dbp` -/

/-- What `get_dbp` is told about the process and by the system. -/
def Process.env (myDir : Bytes) (p : Process) (sys : Opening) (name : Bytes) (enoent : Bool) : OpenEnv where
  firstDbp := p.firstDbp.map fun d => ⟨d.name, d.btCompareFcnType⟩
  dbaseCounter := p.dbaseCounter
  memory := sys.memory
  path := (mkpath sys.dirs (some myDir) name).isSome
  file := sys.file
  newChild := sys.newChild = .child
  opened := sys.opened
  enoent := enoent

section

variable (myDir : Bytes) (p : Process) (sys : Opening)

theorem openNew_name (op : Tops) (name v2 : Bytes) (btCompareFcnType : UInt32) (enoent : Bool) :
    (p.openNew myDir sys op name v2 btCompareFcnType).2.map (·.name) =
      if Dbms.openNew p.role (p.env myDir sys name enoent) op name v2 then some name else none := by
  have hempty : name = [] → mkpath sys.dirs (some myDir) name = none := by
    rintro rfl
    rfl
  unfold Process.openNew Dbms.openNew Process.env
  cases hpath : mkpath sys.dirs (some myDir) name with
  | none =>
    simp only [Option.isSome_none, Bool.and_false, Bool.false_and, Bool.false_eq_true, if_false]
    split_ifs <;> rfl
  | some pfile =>
    have hname : name ≠ [] := fun h => by
      rw [hempty h] at hpath
      cases hpath
    simp only [Option.isSome_some, ne_eq, hname, not_false_eq_true, decide_true, Bool.and_true, Bool.and_eq_true,
      decide_eq_true_eq, Bool.or_eq_true]
    by_cases hcounter : p.dbaseCounter ≤ 256
    · rw [if_neg (Nat.not_lt_of_le hcounter)]
      cases sys.memory with
      | false =>
        simp only [Bool.false_eq_true, not_false_eq_true, if_true, and_false, false_and, if_false, Option.map_none]
      | true =>
        rw [if_neg (not_not.2 rfl)]
        by_cases hsize : 1 + v2.length ≤ 256
        · rw [if_neg (Nat.not_lt_of_le hsize)]
          by_cases hfile : op.level ≥ Tops.creat.level ∨ sys.file = true
          · rw [if_neg fun h => hfile.elim (Nat.not_le_of_lt h.1) h.2]
            simp only [hcounter, hsize, hfile, true_and]
            cases p.role with
            | mother => cases sys.newChild <;> rfl
            | child => cases sys.opened <;> rfl
          · rw [not_or] at hfile
            simp only [Nat.lt_of_not_le hfile.1, hfile.2, Nat.not_le_of_lt (Nat.lt_of_not_le hfile.1),
              or_self, and_false, false_and, if_false, not_false_eq_true, and_self, if_true, Option.map_none,
              Bool.false_eq_true]
        · simp only [Nat.lt_of_not_le hsize, hsize, if_true, and_false, false_and, if_false, Option.map_none]
    · simp only [Nat.lt_of_not_le hcounter, hcounter, gt_iff_lt, if_true, false_and, if_false, Option.map_none]

theorem getDbp_answer (xscontrols : List Xsctrl) (address xsmode btCompareFcnType : UInt32) (v2 : Bytes)
    (enoent : Bool) :
    (p.getDbp xscontrols myDir sys address xsmode btCompareFcnType v2).2.map id (Option.map (·.name)) =
      Dbms.getDbp xscontrols p.role (p.env myDir sys (cleanName v2) enoent) address xsmode btCompareFcnType v2 := by
  unfold Process.getDbp Dbms.getDbp
  cases xsmodeOps xsmode with
  | none => rfl
  | some mops =>
    dsimp only
    by_cases hlevel : mops.level > (allowedOpsOnDbase xscontrols address (cleanName v2)).level
    · rw [if_pos hlevel, if_pos hlevel]
      rfl
    · rw [if_neg hlevel, if_neg hlevel]
      have hfind : (p.env myDir sys (cleanName v2) enoent).firstDbp.find? (·.name = cleanName v2) =
          (p.firstDbp.find? (·.name = cleanName v2)).map fun d => ⟨d.name, d.btCompareFcnType⟩ := List.find?_map
      rw [hfind]
      cases hp : p.firstDbp.find? (·.name = cleanName v2) with
      | some d =>
        have hdecide := List.find?_some hp
        have hname : d.name = cleanName v2 := of_decide_eq_true hdecide
        dsimp only [Option.map_some]
        split_ifs
        · rw [← hname]
          rfl
        · rfl
      | none =>
        dsimp only [Option.map_none]
        exact Prod.ext rfl (openNew_name myDir p sys _ (cleanName v2) v2 btCompareFcnType enoent)

end

/-! ## Two names, one database -/

/-- Everything comes out well. -/
def wellOpened : Opening := ⟨true, fun _ => true, true, .child, true⟩

/-- INIT for `a-b` and for `ab`. -/
def twoNames : List ProcessStep :=
  [.getDbp wellOpened 1 2 0 [97, 45, 98], .getDbp wellOpened 1 2 0 [97, 98]]

example : mkpath (fun _ => true) (some [47, 112]) [97, 98] =
    some [47, 112, 47, 97, 98, 47, 97, 98, 46, 100, 98] := by decide

/-- The connections that ask for `a-b` and for `ab` get one database. -/
theorem databases_twoNames :
    ∃ g ∈ (Process.start .mother).given allowAll [47, 112] twoNames,
      ∃ h ∈ (Process.start .mother).given allowAll [47, 112] twoNames,
        g.1 ≠ h.1 ∧ g.2.id = h.2.id ∧ g.2.pfile = h.2.pfile := by
  decide

end RdfStore.Dbms
