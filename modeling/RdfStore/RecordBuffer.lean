import Mathlib.Algebra.GroupWithZero.Nat
import RdfStore.Concrete
import RdfStore.StatementRecord

/-!
# The buffer of a record (`rdfstore_insert`)

The record of a statement is written into a buffer of 32 KiB on the stack, or
into an allocated one when its length does not fit there.  The length `l` is
computed before a byte is written and does not count the NUL that ends the
record: on the stack there is always room for it, an allocated buffer has none.

    the bytes written are the record                                 (writeFields_spec)
    `assert(l == i)` never fails                                     (writeRecord_assertion)
    nothing is written behind the buffer
      ↔ the record fits the stack, or there is no memory for it      (writeRecord_inBuffer_iff)
-/

namespace RdfStore

open ByteMem

/-! ## The length -/

/-- `sizeof(nodebuf)` -/
def nodebufSize : Nat := 32 * 1024

/-- An unsigned length assigned to an `int`. -/
def toInt (n : Nat) : Int := Int.bmod n (2 ^ 32)

/-- An `int` where a `size_t` is wanted. -/
def sizeT (l : Int) : Nat := (l % 2 ^ 64).toNat

/-- The part of the object in the length of a record. -/
def Node.recordLength : Node → Nat
  | .resource r => r.bytes.length
  | .literal l =>
    (match l.string with
      | some string => string.bytes.length
      | none => 0) +
    (if l.lang.bytes.length > 0 then l.lang.bytes.length else 0) +
    (match l.dataType with
      | some dataType => dataType.bytes.length
      | none => 0)

/-- The length of an identifier, 0 for a pointer that is NULL. -/
def identifierLen (r : Option Resource) : Nat :=
  match r with
  | some r => r.bytes.length
  | none => 0

/-- `l`, as it is before it is assigned. -/
def recordLength (a : Args) (st : Statement) (context : Option Resource) : Nat :=
  4 * 7 + 1 + a.subject.bytes.length + a.predicate.bytes.length + a.object.recordLength +
    identifierLen context + identifierLen st.node

/-! ## The writes -/

/-- The memory from `buff` on, how much of it there is, and the offset `i`. -/
structure RecordBuffer where
  mem : Buf
  capacity : Nat
  i : Nat

/-- What goes wrong in a write: it reaches past the buffer, or `i` past the largest `int`. -/
inductive Fault
  | outside
  | overflow
  deriving DecidableEq

/-- `memcpy(buff + i, p, n)` and `i += n` -/
def RecordBuffer.put (w : RecordBuffer) (p : Bytes) : Except Fault RecordBuffer :=
  if w.capacity < w.i + p.length then .error .outside
  else if 2 ^ 31 ≤ w.i + p.length then .error .overflow
  else .ok { w with mem := writeAt w.mem w.i p, i := w.i + p.length }

/-- What has been written. -/
def RecordBuffer.contents (w : RecordBuffer) : Bytes := takeBytes w.i w.mem

/-- The string, the language and the datatype of a literal, or the identifier. -/
def Node.write (o : Node) (w : RecordBuffer) : Except Fault RecordBuffer :=
  match o with
  | .literal l => do
    let w ← match l.string with
      | some string => w.put string.bytes
      | none => pure w
    let w ← w.put l.lang.bytes
    match l.dataType with
      | some dataType => w.put dataType.bytes
      | none => pure w
  | .resource r => w.put r.bytes

def writeIdentifier (r : Option Resource) (w : RecordBuffer) : Except Fault RecordBuffer :=
  match r with
  | some r => w.put r.bytes
  | none => pure w

/-- The header, the mask and the fields, one after the other. -/
def writeFields (a : Args) (st : Statement) (context : Option Resource) (w : RecordBuffer) :
    Except Fault RecordBuffer := do
  let w ← w.put (packInt a.subject.bytes.length)
  let w ← w.put (packInt a.predicate.bytes.length)
  let w ← w.put (packInt a.object.bytes.length)
  let w ← w.put (packInt a.object.langBytes.length)
  let w ← w.put (packInt a.object.dtBytes.length)
  let w ← w.put (packInt (identifierLen context))
  let w ← w.put (packInt (identifierLen st.node))
  let w ← w.put [recordMask a context st.isreified]
  let w ← w.put a.subject.bytes
  let w ← w.put a.predicate.bytes
  let w ← a.object.write w
  let w ← writeIdentifier context w
  writeIdentifier st.node w

/-- How the writing of a record ends. -/
inductive RecordOutcome
  /-- `malloc` gave NULL: the insert is given up -/
  | noMemory
  | fault (e : Fault)
  /-- `assert(l == i)` fails -/
  | assertion
  /-- `data.data` and `data.size` of the record that is stored -/
  | stored (w : RecordBuffer)

/-- The buffer for `l` bytes; `malloc` says what memory there is for a length. -/
def recordBuffer (malloc : Nat → Option Buf) (nodebuf : Buf) (l : Int) : Option RecordBuffer :=
  if sizeT l < nodebufSize then some ⟨nodebuf, nodebufSize, 0⟩
  else (malloc (sizeT l)).map fun mem => ⟨mem, sizeT l, 0⟩

/-- The fields, the assertion on the length and the NUL. -/
def fillBuffer (l : Int) (a : Args) (st : Statement) (context : Option Resource) (w : RecordBuffer) :
    RecordOutcome :=
  match writeFields a st context w with
  | .error e => .fault e
  | .ok w =>
    if l ≠ w.i then .assertion
    else
      match w.put [0] with
      | .error e => .fault e
      | .ok w => .stored w

/-- The record of a statement is written, as `rdfstore_insert` does before it stores it. -/
def writeRecord (malloc : Nat → Option Buf) (nodebuf : Buf) (a : Args) (st : Statement)
    (context : Option Resource) : RecordOutcome :=
  let l := toInt (recordLength a st context)
  (recordBuffer malloc nodebuf l).elim .noMemory (fillBuffer l a st context)

/-- Nothing is written, or the record with its NUL, `data.size` bytes of it, within the buffer. -/
def RecordOutcome.InBuffer (a : Args) (st : Statement) (context : Option Resource) : RecordOutcome → Prop
  | .noMemory => True
  | .fault _ => False
  | .assertion => False
  | .stored w =>
    w.contents = statementRecord a st context ∧ w.i = (statementRecord a st context).length ∧ w.i ≤ w.capacity

/-! ## One write and a row of them -/

@[simp] theorem RecordBuffer.length_contents (w : RecordBuffer) : w.contents.length = w.i :=
  length_takeBytes w.i w.mem

theorem RecordBuffer.put_ok {w w' : RecordBuffer} {p : Bytes} (h : w.put p = .ok w') :
    w'.contents = w.contents ++ p ∧ w'.capacity = w.capacity ∧ w'.i ≤ w.capacity ∧ w'.i < 2 ^ 31 := by
  unfold RecordBuffer.put at h
  split at h
  · cases h
  · next hfits =>
    split at h
    · cases h
    · next hint =>
      cases h
      exact ⟨takeBytes_writeAt w.i p w.mem, rfl, Nat.le_of_not_lt hfits, Nat.lt_of_not_le hint⟩

theorem RecordBuffer.put_fits {w : RecordBuffer} {p : Bytes} (hfits : w.i + p.length ≤ w.capacity)
    (hint : w.i + p.length < 2 ^ 31) : ∃ w', w.put p = .ok w' := by
  refine ⟨{ w with mem := writeAt w.mem w.i p, i := w.i + p.length }, ?_⟩
  rw [RecordBuffer.put, if_neg (Nat.not_lt_of_le hfits), if_neg (Nat.not_le_of_lt hint)]

/-- Writes one after the other. -/
def RecordBuffer.putAll (w : RecordBuffer) (parts : List Bytes) : Except Fault RecordBuffer :=
  parts.foldlM RecordBuffer.put w

theorem RecordBuffer.putAll_cons (w : RecordBuffer) (p : Bytes) (parts : List Bytes) :
    w.putAll (p :: parts) = w.put p >>= fun w => w.putAll parts := List.foldlM_cons

theorem RecordBuffer.putAll_append (w : RecordBuffer) (parts more : List Bytes) :
    w.putAll (parts ++ more) = w.putAll parts >>= fun w => w.putAll more := List.foldlM_append

/-- As long as no write fails, the bytes stand one behind the other and within the buffer. -/
theorem RecordBuffer.putAll_ok {parts : List Bytes} {w w' : RecordBuffer} (h : w.putAll parts = .ok w')
    (hfits : w.i ≤ w.capacity) (hint : w.i < 2 ^ 31) :
    w'.contents = w.contents ++ parts.flatten ∧ w'.capacity = w.capacity ∧ w'.i ≤ w.capacity ∧
      w'.i < 2 ^ 31 := by
  induction parts generalizing w with
  | nil =>
    cases h
    exact ⟨(List.append_nil _).symm, rfl, hfits, hint⟩
  | cons p parts ih =>
    rw [RecordBuffer.putAll_cons] at h
    cases hp : w.put p with
    | error e =>
      rw [hp] at h
      cases h
    | ok w₁ =>
      rw [hp] at h
      obtain ⟨hcontents, hcapacity, hfits₁, hint₁⟩ := RecordBuffer.put_ok hp
      obtain ⟨hcontents', hcapacity', hfits', hint'⟩ := ih h (hcapacity ▸ hfits₁) hint₁
      refine ⟨?_, hcapacity'.trans hcapacity, hcapacity ▸ hfits', hint'⟩
      rw [hcontents', hcontents, List.flatten_cons, List.append_assoc]

/-- No write fails when there is room for all of them. -/
theorem RecordBuffer.putAll_fits {parts : List Bytes} {w : RecordBuffer}
    (hfits : w.i + parts.flatten.length ≤ w.capacity) (hint : w.i + parts.flatten.length < 2 ^ 31) :
    ∃ w', w.putAll parts = .ok w' := by
  induction parts generalizing w with
  | nil => exact ⟨w, rfl⟩
  | cons p parts ih =>
    rw [List.flatten_cons, List.length_append] at hfits hint
    obtain ⟨w₁, hp⟩ := @RecordBuffer.put_fits w p (by omega) (by omega)
    obtain ⟨hcontents, hcapacity, -, -⟩ := RecordBuffer.put_ok hp
    have hi : w₁.i = w.i + p.length := by
      rw [← w₁.length_contents, hcontents, List.length_append, w.length_contents]
    obtain ⟨w', h⟩ := @ih w₁ (by omega) (by omega)
    refine ⟨w', ?_⟩
    rw [RecordBuffer.putAll_cons, hp]
    exact h

/-! ## The writes of a record -/

/-- What is written of the object, in the order of the writes. -/
def Node.parts : Node → List Bytes
  | .literal l =>
    (l.string.map (·.bytes)).toList ++ l.lang.bytes :: (l.dataType.map (·.bytes)).toList
  | .resource r => [r.bytes]

def identifierParts (r : Option Resource) : List Bytes := (r.map Resource.bytes).toList

/-- What is written of a record, in the order of the writes. -/
def recordParts (a : Args) (st : Statement) (context : Option Resource) : List Bytes :=
  (recordLengths a st context).map packInt ++ [recordMask a context st.isreified] :: a.subject.bytes ::
    a.predicate.bytes :: (a.object.parts ++ (identifierParts context ++ identifierParts st.node))

theorem identifierLen_eq (r : Option Resource) : identifierLen r = (optBytes r).length := by
  cases r <;> rfl

theorem flatten_identifierParts (r : Option Resource) : (identifierParts r).flatten = optBytes r := by
  cases r with
  | none => rfl
  | some r => exact List.append_nil _

theorem Node.flatten_parts (o : Node) : o.parts.flatten = o.bytes ++ o.langBytes ++ o.dtBytes := by
  cases o with
  | resource r => simp [Node.parts, Node.bytes, Node.langBytes, Node.dtBytes]
  | literal l =>
    obtain ⟨string, parseType, lang, dataType, hashcode⟩ := l
    cases string <;> cases dataType <;>
      simp [Node.parts, Node.bytes, Node.langBytes, Node.dtBytes, Literal.bytes, Literal.dtBytes]

theorem Node.recordLength_eq (o : Node) :
    o.recordLength = o.bytes.length + o.langBytes.length + o.dtBytes.length := by
  cases o with
  | resource r => rfl
  | literal l =>
    obtain ⟨string, parseType, lang, dataType, hashcode⟩ := l
    have hlang : (if lang.bytes.length > 0 then lang.bytes.length else 0) = lang.bytes.length := by
      split <;> omega
    simp only [Node.recordLength, hlang]
    cases string <;> cases dataType <;> rfl

theorem recordParts_flatten (a : Args) (st : Statement) (context : Option Resource) :
    (recordParts a st context).flatten ++ [0] = statementRecord a st context := by
  rw [statementRecord_eq, recordParts, List.flatten_append, List.flatMap_def]
  simp only [List.flatten_cons, List.flatten_append, Node.flatten_parts, flatten_identifierParts,
    List.append_assoc, List.cons_append, List.nil_append]

/-- The length that is computed is that of the bytes that are written. -/
theorem recordLength_eq (a : Args) (st : Statement) (context : Option Resource) :
    recordLength a st context = (recordParts a st context).flatten.length := by
  have h : (statementRecord a st context).length = (recordParts a st context).flatten.length + 1 := by
    rw [← recordParts_flatten, List.length_append, List.length_singleton]
  have hrecord : (statementRecord a st context).length = recordLength a st context + 1 := by
    rw [recordLength, Node.recordLength_eq, identifierLen_eq, identifierLen_eq]
    simp only [statementRecord, List.length_append, length_packInt, List.length_singleton]
    omega
  omega

theorem Node.write_eq (o : Node) (w : RecordBuffer) : o.write w = w.putAll o.parts := by
  cases o with
  | resource r => exact (bind_pure _).symm
  | literal l =>
    obtain ⟨string, parseType, lang, dataType, hashcode⟩ := l
    cases string <;> cases dataType <;> simp [Node.write, Node.parts, RecordBuffer.putAll]

theorem writeIdentifier_eq (r : Option Resource) (w : RecordBuffer) :
    writeIdentifier r w = w.putAll (identifierParts r) := by
  cases r with
  | none => rfl
  | some r => exact (bind_pure _).symm

theorem writeFields_eq (a : Args) (st : Statement) (context : Option Resource) (w : RecordBuffer) :
    writeFields a st context w = w.putAll (recordParts a st context) := by
  simp only [writeFields, recordParts, recordLengths, List.map_cons, List.map_nil, List.cons_append, List.nil_append,
    RecordBuffer.putAll_cons, RecordBuffer.putAll_append, Node.write_eq, writeIdentifier_eq, identifierLen_eq]

/-- An empty buffer takes the fields exactly when there is room for `l` bytes and `l` is an `int`; then
they are the record less its NUL. -/
theorem writeFields_spec (a : Args) (st : Statement) (context : Option Resource) {w : RecordBuffer} (hw : w.i = 0) :
    (∃ e, writeFields a st context w = .error e ∧
      (w.capacity < recordLength a st context ∨ 2 ^ 31 ≤ recordLength a st context)) ∨
    ∃ w', writeFields a st context w = .ok w' ∧ w'.contents ++ [0] = statementRecord a st context ∧
      w'.i = recordLength a st context ∧ w'.capacity = w.capacity ∧ w'.i ≤ w.capacity ∧ w'.i < 2 ^ 31 := by
  rw [writeFields_eq]
  cases h : w.putAll (recordParts a st context) with
  | error e =>
    refine .inl ⟨e, rfl, ?_⟩
    by_contra hroom
    rw [not_or, not_lt, not_le, recordLength_eq] at hroom
    obtain ⟨w', hok⟩ := @RecordBuffer.putAll_fits (recordParts a st context) w (by omega) (by omega)
    rw [h] at hok
    cases hok
  | ok w' =>
    obtain ⟨hcontents, hcapacity, hfits, hint⟩ := RecordBuffer.putAll_ok h (by omega) (by omega)
    have hempty : w.contents = [] := List.length_eq_zero_iff.1 (w.length_contents.trans hw)
    rw [hempty, List.nil_append] at hcontents
    refine .inr ⟨w', rfl, ?_, ?_, hcapacity, hfits, hint⟩
    · rw [hcontents, recordParts_flatten]
    · rw [← w'.length_contents, hcontents, recordLength_eq]

/-! ## The length as an `int` -/

theorem toInt_of_lt {n : Nat} (h : n < 2 ^ 31) : toInt n = n := by
  unfold toInt
  exact Int.bmod_eq_of_le (by omega) (by omega)

theorem sizeT_toInt_of_lt {n : Nat} (h : n < 2 ^ 31) : sizeT (toInt n) = n := by
  rw [toInt_of_lt h, sizeT]
  omega

theorem recordBuffer_cases {malloc : Nat → Option Buf} {nodebuf : Buf} {l : Int} {w : RecordBuffer}
    (h : recordBuffer malloc nodebuf l = some w) :
    w.i = 0 ∧ (sizeT l < nodebufSize ∧ w.capacity = nodebufSize ∨ nodebufSize ≤ sizeT l ∧ w.capacity = sizeT l) := by
  unfold recordBuffer at h
  split at h
  · next hl =>
    cases h
    exact ⟨rfl, .inl ⟨hl, rfl⟩⟩
  · next hl =>
    obtain ⟨mem, -, rfl⟩ := Option.map_eq_some_iff.1 h
    exact ⟨rfl, .inr ⟨Nat.le_of_not_lt hl, rfl⟩⟩

theorem recordBuffer_eq_none_iff {malloc : Nat → Option Buf} {nodebuf : Buf} {l : Int} :
    recordBuffer malloc nodebuf l = none ↔ nodebufSize ≤ sizeT l ∧ malloc (sizeT l) = none := by
  unfold recordBuffer
  split
  · next hl => simp [Nat.not_le_of_lt hl]
  · next hl => simp [Nat.le_of_not_lt hl]

/-! ## The record in its buffer -/

/-- There is no memory for a record that does not fit the stack. -/
def NoMemory (malloc : Nat → Option Buf) (n : Nat) : Prop :=
  nodebufSize ≤ sizeT (toInt n) ∧ malloc (sizeT (toInt n)) = none

section

variable (malloc : Nat → Option Buf) (nodebuf : Buf) (a : Args) (st : Statement) (context : Option Resource)

/-- The four ways the writing of a record goes, and when it goes which. -/
theorem writeRecord_cases :
    writeRecord malloc nodebuf a st context = .noMemory ∧ NoMemory malloc (recordLength a st context) ∨
    (∃ e, writeRecord malloc nodebuf a st context = .fault e) ∧ nodebufSize ≤ recordLength a st context ∧
      ¬ NoMemory malloc (recordLength a st context) ∨
    (∃ w, writeRecord malloc nodebuf a st context = .stored w ∧ w.contents = statementRecord a st context ∧
      w.i ≤ w.capacity) ∧ recordLength a st context < nodebufSize := by
  generalize hn : recordLength a st context = n
  cases hbuff : recordBuffer malloc nodebuf (toInt n) with
  | none =>
    refine .inl ⟨?_, recordBuffer_eq_none_iff.1 hbuff⟩
    rw [writeRecord, hn, hbuff, Option.elim_none]
  | some w =>
    have hwrite : writeRecord malloc nodebuf a st context = fillBuffer (toInt n) a st context w := by
      rw [writeRecord, hn, hbuff, Option.elim_some]
    rw [hwrite]
    have hmemory : ¬ NoMemory malloc n := fun h => by
      rw [recordBuffer_eq_none_iff.2 h] at hbuff
      cases hbuff
    obtain ⟨hi, hcapacity⟩ := recordBuffer_cases hbuff
    obtain ⟨e, hfields, hroom⟩ | ⟨w', hfields, hcontents, hi', hcap', hfits', hint'⟩ :=
      writeFields_spec a st context hi
    · -- only a record that does not fit the stack fails in one of its fields
      refine .inr (.inl ⟨⟨e, ?_⟩, ?_, hmemory⟩)
      · simp only [fillBuffer, hfields]
      · rw [hn] at hroom
        by_contra hsmall
        have hsize : sizeT (toInt n) = n := sizeT_toInt_of_lt (by unfold nodebufSize at hsmall; omega)
        unfold nodebufSize at hsmall hcapacity
        omega
    · rw [hn] at hi'
      have hint : toInt n = (w'.i : Int) := by rw [hi', toInt_of_lt (hi' ▸ hint')]
      have hsize : sizeT (toInt n) = n := sizeT_toInt_of_lt (hi' ▸ hint')
      cases hnul : w'.put [0] with
      | error e =>
        refine .inr (.inl ⟨⟨e, ?_⟩, ?_, hmemory⟩)
        · simp only [fillBuffer, hfields, hint, ne_eq, not_true_eq_false, if_false, hnul]
        · by_contra hsmall
          unfold nodebufSize at hsmall hcapacity
          obtain ⟨w₂, hok⟩ := @RecordBuffer.put_fits w' [0] (by rw [List.length_singleton]; omega)
            (by rw [List.length_singleton]; omega)
          rw [hnul] at hok
          cases hok
      | ok w₂ =>
        obtain ⟨hcontents₂, hcap₂, hfits₂, -⟩ := RecordBuffer.put_ok hnul
        refine .inr (.inr ⟨⟨w₂, ?_, hcontents₂.trans hcontents, hcap₂ ▸ hfits₂⟩, ?_⟩)
        · simp only [fillBuffer, hfields, hint, ne_eq, not_true_eq_false, if_false, hnul]
        · -- an allocated buffer has no room for the NUL
          have hlen : w₂.i = w'.i + 1 := by
            rw [← w₂.length_contents, hcontents₂, List.length_append, w'.length_contents, List.length_singleton]
          omega

/-- The computed length is the number of bytes that are written, whenever it is looked at. -/
theorem writeRecord_assertion : writeRecord malloc nodebuf a st context ≠ .assertion := by
  intro h
  obtain ⟨h', -⟩ | ⟨⟨e, h'⟩, -⟩ | ⟨⟨w, h', -⟩, -⟩ := writeRecord_cases malloc nodebuf a st context
  all_goals
    rw [h] at h'
    cases h'

/-- The record stays in its buffer when its fields and its header are shorter than the buffer on the
stack, or when there is no memory for it and nothing is written, and not otherwise. -/
theorem writeRecord_inBuffer_iff :
    (writeRecord malloc nodebuf a st context).InBuffer a st context ↔
      29 + (recordLengths a st context).sum < nodebufSize ∨
        NoMemory malloc (29 + (recordLengths a st context).sum) := by
  have hlength : recordLength a st context = 29 + (recordLengths a st context).sum := by
    rw [recordLength, Node.recordLength_eq, identifierLen_eq, identifierLen_eq]
    simp only [recordLengths, List.sum_cons, List.sum_nil]
    omega
  rw [← hlength]
  obtain ⟨h, hmemory⟩ | ⟨⟨e, h⟩, hlarge, hmemory⟩ | ⟨⟨w, h, hcontents, hfits⟩, hsmall⟩ :=
    writeRecord_cases malloc nodebuf a st context
  · rw [h]
    exact ⟨fun _ => .inr hmemory, fun _ => trivial⟩
  · rw [h]
    exact ⟨False.elim, fun hor => hor.elim (fun hsmall => absurd hsmall (Nat.not_lt_of_le hlarge)) hmemory⟩
  · rw [h]
    refine ⟨fun _ => .inl hsmall, fun _ => ⟨hcontents, ?_, hfits⟩⟩
    rw [← hcontents, w.length_contents]

end

/-! ## A literal of 32737 bytes -/

def longString : CBuf := ⟨List.replicate 32737 120, by rw [List.length_replicate]; decide⟩

def longStatement : Statement :=
  triple (uri 115) (uri 112) (.literal { plainLiteral 120 with string := some longString })

def longArgs : Args := ⟨uri 115, uri 112, .literal { plainLiteral 120 with string := some longString }⟩

theorem longArgs_checked : checkArgs longStatement none = some longArgs := rfl

theorem recordLength_long : recordLength longArgs longStatement none = nodebufSize := by
  have hstring : longString.bytes.length = 32737 := List.length_replicate
  simp only [recordLength, longArgs, longStatement, Node.recordLength, hstring]
  rfl

/-- The record of such a statement has 32769 bytes; the buffer that is allocated for it has 32768. -/
theorem writeRecord_long : checkArgs longStatement none = some longArgs ∧
    ¬ (writeRecord (fun _ => some fun _ => 0) (fun _ => 0) longArgs longStatement none).InBuffer longArgs
      longStatement none := by
  refine ⟨longArgs_checked, ?_⟩
  obtain ⟨-, hmemory⟩ | ⟨⟨e, h⟩, -⟩ | ⟨-, hsmall⟩ :=
    writeRecord_cases (fun _ => some fun _ => 0) (fun _ => 0) longArgs longStatement none
  · cases hmemory.2
  · rw [h]
    exact id
  · rw [recordLength_long] at hsmall
    exact absurd hsmall (Nat.lt_irrefl _)

end RdfStore
