import RdfStore.Dbms.Access
import RdfStore.Lib.Links

/-!
# Reading the configuration (`parse_config` of `conf.c`)

The sections are put in front of each other as they are read; then the list is
put in order in place: the baseline sections `_` to its front, the fall through
sections `*` to its end.
-/

namespace RdfStore.Dbms

open ByteMem Links

deriving instance DecidableEq for Xscf, Xsctrl

/-! ## Words -/

/-- `isspace` in the C locale. -/
def isspace (c : UInt8) : Bool := c = 32 || (9 ≤ c && c ≤ 13)

/-- `getnextword`: the next word and what is left behind the character that ended it. -/
def getnextword (p : Bytes) : Bytes × Bytes :=
  let p := p.dropWhile isspace
  let q := p.takeWhile fun c => !(isspace c || c = 44 || c = 62)
  (q, (p.drop q.length).drop 1)

/-- `do { r = getnextword(&p); } while (…)`; every word but the last, empty one is shorter than the text. -/
def nextWordBut (skip : List Bytes) : ℕ → Bytes → Bytes × Bytes
  | 0, p => getnextword p
  | fuel + 1, p =>
    let r := getnextword p
    if r.1 ∈ skip then nextWordBut skip fuel r.2 else r

/-- `decode_ops` -/
def decodeOps (p : Bytes) : Tops :=
  if p = ascii "none" then .none
  else if p = ascii "rdonly" then .rdonly
  else if p = ascii "rdwr" then .rdwr
  else if p = ascii "creat" then .creat
  else if p = ascii "drop" then .drop
  else if p = ascii "all" then .all
  else .err

/-- The digits that `strtol` reads in base ten. -/
def strtolDigits (s : Bytes) : ℕ :=
  (s.takeWhile fun c => 48 ≤ c && c ≤ 57).foldl (fun n c => 10 * n + (c.toNat - 48)) 0

/-- `strtol(s, NULL, 10)`; only whether the value lies between 0 and 32 matters. -/
def strtol (s : Bytes) : ℤ :=
  match s.dropWhile isspace with
  | 45 :: s => -(strtolDigits s : ℤ)
  | 43 :: s => strtolDigits s
  | s => strtolDigits s

/-- `htonl` where the lowest byte comes first. -/
def htonl (x : UInt32) : UInt32 :=
  (x <<< 24) ||| ((x &&& (0xff00 : UInt32)) <<< 8) ||| ((x >>> 8) &&& (0xff00 : UInt32)) ||| (x >>> 24)

section

-- `getip`: the address, and whether `errno` is set
variable (getip : Bytes → UInt32 × Bool)

/-- The address is looked up and cut to the mask. -/
def maskAddress (p : Bytes) (mask : UInt32) : Option (UInt32 × UInt32) :=
  let ip := getip p
  if ip.1 = 0xffffffff && ip.2 then none else some (ip.1 &&& mask, mask)

/-- `decode_mask`: `ip` and `mask`.  A word has no blank in it, so that the branch for a `netmask` is never taken. -/
def decodeMask (p : Bytes) : Option (UInt32 × UInt32) :=
  if p = ascii "all" then some (0xffffffff &&& 0, 0)
  else if 47 ∈ p then
    let len := strtol ((p.dropWhile (· ≠ 47)).drop 1)
    if len = 0 then none
    else if len < 0 || 32 < len then none
    else maskAddress getip (p.takeWhile (· ≠ 47)) (htonl (~~~((1 <<< (32 - len.toNat).toUInt32) - 1)))
  else maskAddress getip p 0xffffffff

/-! ## Lines -/

/-- What is known between two lines: the name of the open block, and `nw_xscontrols`. -/
structure ConfigState where
  nested : Option Bytes
  nwXscontrols : List Xsctrl

/-- A line in a block: `q` is its first word and `p` what follows. -/
def parseDirective (st : ConfigState) (cnf : Xsctrl) (rest : List Xsctrl) (q p : Bytes) : Except String ConfigState :=
  let r := nextWordBut [ascii "operation", ascii "by"] p.length p
  let store (cnf : Xsctrl) : Except String ConfigState := .ok { st with nwXscontrols := cnf :: rest }
  if q = ascii "order" then
    if r.1 ≠ ascii "allow" ∧ r.1 ≠ ascii "deny" then .error "deny or allow expected after order."
    else
      let first : Order := if r.1 = ascii "allow" then .allow else .deny
      let r := getnextword r.2
      if first = .deny ∧ r.1 ≠ ascii "allow" then .error "expected allow after order deny"
      else if first = .allow ∧ r.1 ≠ ascii "deny" then .error "expected deny after order allow"
      else if (getnextword r.2).1 ≠ [] then .error "trailing info after ordere line"
      else store { cnf with first := first }
  else
    let op := decodeOps r.1
    if op = .err then .error "ops spec not recognized"
    else
      let r := nextWordBut [ascii "from"] r.2.length r.2
      if r.1 = [] then .error "expected an argument\n"
      else if q = ascii "allow" then
        match decodeMask getip r.1 with
        | none => .error "syntax error in allow specification"
        | some s => store { cnf with recallow := ⟨op, s.1, s.2⟩ :: cnf.recallow }
      else if q = ascii "deny" then
        match decodeMask getip r.1 with
        | none => .error "syntax error in deny specification"
        | some s => store { cnf with recdeny := ⟨op, s.1, s.2⟩ :: cnf.recdeny }
      else .error "Unknown directive (deny from, allow from or order expected"

/-- The body of the loop over the lines. -/
def parseLine (st : ConfigState) (str : Bytes) : Except String ConfigState :=
  let p := (cstr str).dropWhile isspace
  if p = [] ∨ p.head? = some 35 then .ok st
  else if p.take 2 = ascii "</" then
    match st.nested with
    | none => .error "Nesting close but no start"
    | some nested =>
      if (getnextword (p.drop 2)).1 ≠ nested then .error "Nesting mismatch" else .ok { st with nested := none }
  else if p.head? = some 60 then
    if st.nested.isSome then .error "Nested too deeply"
    else
      let nested := getnextword (p.drop 1)
      if nested.1 ≠ ascii "dbase" then .error "Expected dbase"
      else .ok ⟨some nested.1, ⟨(getnextword nested.2).1, .unset, [], []⟩ :: st.nwXscontrols⟩
  else
    match st.nested, st.nwXscontrols with
    | some _, cnf :: rest => parseDirective getip st cnf rest (getnextword p).1 (getnextword p).2
    | _, _ => .error "Not a valid directive"

/-- What `fgets` returns, one call after the other, with room for `size` characters. -/
def fgetsLines (size : ℕ) : Bytes → Bytes → List Bytes
  | str, [] => if str = [] then [] else [str]
  | str, c :: s =>
    if c = 10 ∨ str.length + 2 = size then (str ++ [c]) :: fgetsLines size [] s else fgetsLines size (str ++ [c]) s

/-- The loop over the lines, from number `line` on. -/
def parseLines : ℕ → ConfigState → List Bytes → Except String ConfigState
  | _, st, [] => .ok st
  | line, st, str :: rest =>
    match parseLine getip st str with
    | .error erm => .error ("Error parsing config file at line " ++ toString line ++ ": " ++ erm)
    | .ok st => parseLines (line + 1) st rest

/-- The sections of a configuration file, in the order they stand there. -/
def configSections (configfile : Bytes) : Except String (List Xsctrl) :=
  (parseLines getip 1 ⟨none, []⟩ (fgetsLines 1024 [] configfile)).map fun st => st.nwXscontrols.reverse

end

/-! ## Putting the sections in order -/

/-- `nw_xscontrols` after `n` sections: each new one is put in front. -/
def layOut : ℕ → Chain ℕ
  | 0 => ⟨none, fun _ => none⟩
  | n + 1 => (layOut n).push .head n

section

-- the name of a section
variable (dbase : ℕ → Bytes)

/-- `for(p=nw_xscontrols; p && p->nxt; p=p->nxt)` -/
def baselineLoop : ℕ → Chain ℕ → Option ℕ → Option (Chain ℕ)
  | 0, _, _ => none
  | _ + 1, m, none => some m
  | fuel + 1, m, some p =>
    match m.nxt p with
    | none => some m
    | some n =>
      let m := if dbase n = ascii "_" then m.moveToFront p n else m
      baselineLoop fuel m (m.nxt p)

/-- `for(q = &nw_xscontrols; *q;)` with the list `h` of the sections taken out. -/
def fallThroughLoop : ℕ → Chain ℕ → Place ℕ → Option ℕ → Option (Chain ℕ × Option ℕ)
  | 0, _, _, _ => none
  | fuel + 1, m, r, h =>
    match m.get r with
    | none => some (m, h)
    | some a =>
      if dbase a = ascii "*" then
        -- `q` stands on the link of the section that is taken out
        fallThroughLoop fuel ((m.unlink r a).set (.link a) h) (.link a) (some a)
      else fallThroughLoop fuel m (.link a) h

/-- `for(q = &nw_xscontrols; *q; q=&((*q)->nxt)) {}` -/
def endLoop : ℕ → Chain ℕ → Place ℕ → Option (Place ℕ)
  | 0, _, _ => none
  | fuel + 1, m, q =>
    match m.get q with
    | none => some q
    | some a => endLoop fuel m (.link a)

/-- The three loops; no loop passes more than the `n` sections there are. -/
def reorder (n : ℕ) : Option (Chain ℕ) := do
  let m := layOut n
  let m ← baselineLoop dbase (n + 1) m m.head
  let (m, h) ← fallThroughLoop dbase (n + 1) m .head none
  let q ← endLoop (n + 1) m .head
  some (m.set q h)

end

/-- The sections in the order of the list. -/
def orderSections (sections : List Xsctrl) : Option (List Xsctrl) := do
  let m ← reorder (fun k => (sections[k]?.map Xsctrl.dbase).getD []) sections.length
  let l ← m.cells (sections.length + 1) .head
  some (l.filterMap fun k => sections[k]?)

/-- `parse_config`: the message, and `xscontrols` afterwards; `none` where a loop does not end. -/
def parseConfig (getip : Bytes → UInt32 × Bool) (xscontrols : List Xsctrl) (configfile : Bytes) :
    Option (Option String × List Xsctrl) :=
  match configSections getip configfile with
  | .error errbuff => some (some errbuff, xscontrols)
  | .ok sections => (orderSections sections).map fun l => (none, l)

end RdfStore.Dbms
