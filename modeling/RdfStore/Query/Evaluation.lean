import RdfStore.Query.Constraints
import RdfStore.Rdql.Expressions
import Mathlib.Tactic.Linarith

/-!
# Constraints and trees

`eval` on the post-order list of a tree gives the value of the tree, as long as
nothing that is read, for the first time or again, is taken for something else.

    a tree is read back                            (evalLoop_postOrder)
    `eval` is the value of the tree                (eval_postOrder)
-/

namespace RdfStore.Query

open ByteMem

/-! ## Trees -/

inductive Leaf
  | var (name : Bytes)
  | integer (digits : Bytes)
  /-- with the quotation mark -/
  | string (mark : UInt8) (content : Bytes)
  | pattern (p : Rdql.Pattern)

inductive Tree
  | leaf (l : Leaf)
  | unary (key : Bytes) (t : Tree)
  | binary (key : Bytes) (l r : Tree)

def Leaf.entry : Leaf → Bytes
  | .var name => 0x3f :: name
  | .integer digits => digits
  | .string mark content => mark :: (content ++ [mark])
  | .pattern p => p.text

/-- The leaves and operators in post-order. -/
def Tree.postOrder : Tree → List Bytes
  | .leaf l => [l.entry]
  | .unary key t => t.postOrder ++ [key]
  | .binary key l r => l.postOrder ++ (r.postOrder ++ [key])

variable {P : Perl} (binding : Binding P)

/-- A variable is bound to a node. -/
def Leaf.WellFormed : Leaf → Prop
  | .var name => name ≠ [] ∧ (∀ a ∈ name, Rdql.isVarChar a = true) ∧ ∃ n, binding (0x3f :: name) = some (.node n)
  | .integer digits => digits ≠ [] ∧ ∀ a ∈ digits, NTriples.isDigit a = true
  | .string mark _ => Rdql.isQuote mark = true
  | .pattern _ => True

/-- The operators are in the dictionary, and have as many operands as there. -/
def Tree.WellFormed : Tree → Prop
  | .leaf l => l.WellFormed binding
  | .unary key t => t.WellFormed ∧ ∃ run, lookup P key = some (.unary run)
  | .binary key l r => l.WellFormed ∧ r.WellFormed ∧ ∃ run, lookup P key = some (.binary run)

def Leaf.value : Leaf → Value P
  | .var name => (binding (0x3f :: name)).getD .undef
  | .integer digits => .text digits
  | .string _ content => .text content
  | .pattern p => .text p.text

/-- The value from the leaves to the root; `none` where an operator dies. -/
def Tree.value : Tree → Option (Value P)
  | .leaf l => some (l.value binding)
  | .unary key t =>
    (t.value).bind fun a =>
      match lookup P key with
      | some (.unary run) => run a
      | _ => none
  | .binary key l r =>
    (l.value).bind fun b => (r.value).bind fun a =>
      match lookup P key with
      | some (.binary run) => run b a
      | _ => none

/-- What is answered: the content of the value, and 0 for an error. -/
def Tree.answer (t : Tree) : Value P := ((t.value binding).map getContent).getD (.ofBool false)

/-! ## What is read as it is -/

/-- A text that is pushed as it is. -/
def Inert (s : Bytes) : Prop :=
  s ≠ ascii "&" ∧ stripQuotes s = none ∧ stripAngles s = none ∧ s ∉ keys ∧ namesVariable s = false

def Value.Inert : Value P → Prop
  | .text s => Query.Inert s
  | _ => True

/-- A string on one line, in which nothing looks like a variable; and such a pattern. -/
def Leaf.Readable : Leaf → Prop
  | .string _ content => 0x0a ∉ content ∧ namesVariable content = false
  | .pattern p => namesVariable p.text = false
  | _ => True

def Tree.isLeaf : Tree → Bool
  | .leaf _ => true
  | _ => false

/-- The leaves can be read.  What is read once more is pushed as it is: the values of the operators, and a
leaf in front of an operand that is no leaf. -/
def Tree.Readable : Tree → Prop
  | .leaf l => l.Readable
  | .unary key t => t.Readable ∧ ∀ v ∈ (Tree.unary key t).value binding, v.Inert
  | .binary key l r =>
    l.Readable ∧ r.Readable ∧ (r.isLeaf = false → ∀ v ∈ l.value binding, v.Inert) ∧
      ∀ v ∈ (Tree.binary key l r).value binding, v.Inert

/-! ## Reading one item -/

theorem lookup_eq_none_iff {s : Bytes} : lookup P s = none ↔ s ∉ keys := by
  unfold lookup
  rw [List.lookup_eq_none_iff, ← dictionary_keys P]
  constructor
  · intro h hs
    obtain ⟨p, hp, rfl⟩ := List.mem_map.1 hs
    simpa using h p hp
  · intro h p hp
    rw [bne_iff_ne]
    rintro rfl
    exact h (List.mem_map_of_mem hp)

theorem keys_plain : ∀ key ∈ keys, key ≠ ascii "&" ∧ stripQuotes key = none ∧ stripAngles key = none := by
  decide +kernel

/-- No name begins with a digit, a question mark or `m`, or goes on behind a slash. -/
theorem keys_head : ∀ key ∈ keys, ∀ a ∈ key.head?,
    NTriples.isDigit a = false ∧ a ≠ 0x3f ∧ a ≠ 0x6d ∧ (a = 0x2f → key = [0x2f]) := by
  have hall : ∀ key ∈ keys, (key.head?.all fun a =>
      NTriples.isDigit a = false ∧ a ≠ 0x3f ∧ a ≠ 0x6d ∧ (a = 0x2f → key = [0x2f])) = true := by decide +kernel
  intro key hkey a ha
  exact of_decide_eq_true ((Option.all_eq_true _ _).1 (hall key hkey) a ha)

theorem stripMarks_eq_none {isOpen isClose : UInt8 → Bool} {s : Bytes} (h : ∀ a ∈ s.head?, isOpen a = false) :
    stripMarks isOpen isClose s = none := by
  have hbody : ∀ a t, (if s.getLast? = some 0x0a then s.dropLast else s) = a :: t → isOpen a = false := by
    intro a t heq
    refine h a ?_
    split at heq
    · cases s with
      | nil => simp at heq
      | cons b u =>
        cases u with
        | nil => simp at heq
        | cons c u =>
          rw [List.dropLast_cons_of_ne_nil (by simp)] at heq
          simp [(List.cons.inj heq).1]
    · simp [heq]
  unfold stripMarks
  cases heq : (if s.getLast? = some 0x0a then s.dropLast else s) with
  | nil => rfl
  | cons a t => simp [hbody a t heq]

theorem stripQuotes_string {mark : UInt8} {content : Bytes} (hmark : Rdql.isQuote mark = true)
    (hline : 0x0a ∉ content) : stripQuotes (mark :: (content ++ [mark])) = some content := by
  have hne : mark ≠ 0x0a := by
    rintro rfl
    revert hmark
    decide
  simp [stripQuotes, stripMarks, List.getLast?_cons, hne, hmark, hline]

theorem namesVariable_eq_false {s : Bytes} (h : ∀ a ∈ s, a ≠ 0x3f ∧ a ≠ 0x24) : namesVariable s = false := by
  induction s with
  | nil => rfl
  | cons a s ih =>
    have ha := h a (by simp)
    simp [namesVariable, ha, ih fun b hb => h b (List.mem_cons_of_mem _ hb)]

theorem inert_digits {digits : Bytes} (hne : digits ≠ []) (hdigits : ∀ a ∈ digits, NTriples.isDigit a = true) :
    Inert digits := by
  cases digits with
  | nil => exact absurd rfl hne
  | cons a t =>
    have ha : NTriples.isDigit a = true := hdigits a (by simp)
    refine ⟨?_, ?_, ?_, ?_, ?_⟩
    · rintro heq
      rw [(List.cons.inj heq).1] at ha
      revert ha
      decide
    · refine stripMarks_eq_none fun b hb => ?_
      cases Option.some.inj hb
      simp only [NTriples.isDigit, Rdql.isQuote, Bool.and_eq_true, decide_eq_true_eq, UInt8.le_iff_toNat_le,
        Bool.or_eq_false_iff, decide_eq_false_iff_not, ← UInt8.toNat_inj, UInt8.reduceToNat] at ha ⊢
      omega
    · refine stripMarks_eq_none fun b hb => ?_
      cases Option.some.inj hb
      simp only [NTriples.isDigit, Bool.and_eq_true, decide_eq_true_eq, UInt8.le_iff_toNat_le,
        decide_eq_false_iff_not, ← UInt8.toNat_inj, UInt8.reduceToNat] at ha ⊢
      omega
    · intro hkey
      have := (keys_head _ hkey a (by simp)).1
      rw [this] at ha
      cases ha
    · refine namesVariable_eq_false fun b hb => ?_
      have := hdigits b hb
      simp only [NTriples.isDigit, Bool.and_eq_true, decide_eq_true_eq, UInt8.le_iff_toNat_le, ne_eq,
        ← UInt8.toNat_inj, UInt8.reduceToNat] at this ⊢
      omega

theorem readText_inert {s : Bytes} (h : Inert s) : readText binding false s = .push (.text s) := by
  obtain ⟨-, hquotes, hangles, hkey, hvariable⟩ := h
  simp [readText, hquotes, hangles, lookup_eq_none_iff.2 hkey, hvariable]

/-- A variable is replaced by its value. -/
theorem readText_name {name : Bytes} (hne : name ≠ []) (hchars : ∀ a ∈ name, Rdql.isVarChar a = true) :
    readText binding false (0x3f :: name) =
      match binding (0x3f :: name) with
      | some v => .push v
      | none => .fail (.unknownVariable (0x3f :: name)) := by
  have hquotes : stripQuotes (0x3f :: name) = none := stripMarks_eq_none (by simp; decide)
  have hangles : stripAngles (0x3f :: name) = none := stripMarks_eq_none (by simp)
  have hkey : 0x3f :: name ∉ keys := fun hmem => (keys_head _ hmem 0x3f rfl).2.1 rfl
  have hnames : namesVariable (0x3f :: name) = true := by
    cases name with
    | nil => exact absurd rfl hne
    | cons a t => simp [namesVariable, isVariableChar, hchars a List.mem_cons_self]
  have hlookup : lookup P (0x3f :: name) = none := lookup_eq_none_iff.2 hkey
  cases hvalue : binding (0x3f :: name) with
  | none => simp [readText, hquotes, hangles, hlookup, hnames, hvalue]
  | some v => simp [readText, hquotes, hangles, hlookup, hnames, hvalue]

theorem nextItem_text {s : Bytes} (h : s ≠ ascii "&") (stack : List (Value P)) :
    nextItem binding (.text s :: stack) = .read (readText binding false s) stack := by
  simp [nextItem, h]

theorem nextItem_inert {v : Value P} (h : v.Inert) (stack : List (Value P)) :
    nextItem binding (v :: stack) = .read (.push v) stack := by
  cases v with
  | text s => rw [nextItem_text binding h.1, readText_inert binding h]
  | undef => rfl
  | node n => rfl
  | number x => rfl

theorem nextItem_key {key : Bytes} {o : Operator P} (h : lookup P key = some o) (stack : List (Value P)) :
    nextItem binding (.text key :: stack) = .read (.apply o) stack := by
  have hkey : key ∈ keys := by
    by_contra hnot
    rw [lookup_eq_none_iff.2 hnot] at h
    cases h
  obtain ⟨hamp, hquotes, hangles⟩ := keys_plain key hkey
  rw [nextItem_text binding hamp]
  simp [readText, hquotes, hangles, h]

theorem pattern_text_ne {p : Rdql.Pattern} : p.text ≠ [] ∧ p.text ≠ [0x2f] ∧ ∀ a ∈ p.text.head?, a = 0x2f ∨ a = 0x6d := by
  cases hm : p.withM <;> simp [Rdql.Pattern.text, hm]

/-- A leaf is pushed with its value. -/
theorem nextItem_leaf {l : Leaf} (hw : l.WellFormed binding) (hr : l.Readable) (stack : List (Value P)) :
    nextItem binding (.text l.entry :: stack) = .read (.push (l.value binding)) stack := by
  cases l with
  | var name =>
    obtain ⟨hne, hchars, n, hn⟩ := hw
    have hamp : (0x3f :: name : Bytes) ≠ ascii "&" := by
      intro heq
      exact absurd (List.cons.inj heq).1 (by decide)
    rw [Leaf.entry, nextItem_text binding hamp, readText_name binding hne hchars, hn]
    simp [hn, Leaf.value]
  | integer digits => exact nextItem_inert binding (v := .text digits) (inert_digits hw.1 hw.2) stack
  | string mark content =>
    have hamp : (mark :: (content ++ [mark]) : Bytes) ≠ ascii "&" := by
      intro heq
      simpa [ascii] using congrArg List.length heq
    rw [Leaf.entry, nextItem_text binding hamp]
    simp [readText, stripQuotes_string hw hr.1, hr.2, Leaf.value]
  | pattern p =>
    obtain ⟨hne, hslash, hhead⟩ := pattern_text_ne (p := p)
    refine nextItem_inert binding (v := .text p.text) ⟨?_, ?_, ?_, ?_, hr⟩ stack
    · intro heq
      rw [heq] at hhead
      exact absurd (hhead 0x26 (by decide)) (by decide)
    · refine stripMarks_eq_none fun a ha => ?_
      rcases hhead a ha with rfl | rfl <;> decide
    · refine stripMarks_eq_none fun a ha => ?_
      rcases hhead a ha with rfl | rfl <;> decide
    · intro hmem
      obtain ⟨a, ha⟩ : ∃ a, p.text.head? = some a := by
        cases htext : p.text with
        | nil => exact absurd htext hne
        | cons a t => exact ⟨a, rfl⟩
      obtain ⟨-, -, hm, hkey⟩ := keys_head _ hmem a ha
      rcases hhead a ha with rfl | rfl
      · exact hslash (hkey rfl)
      · exact hm rfl

/-! ## The loop -/

theorem evalLoop_push {v : Value P} {stack rest work : List (Value P)} (h : nextItem binding stack = .read (.push v) rest)
    (n : ℕ) : evalLoop binding (n + 1) stack work = evalLoop binding n rest (work ++ [v]) := by
  simp [evalLoop, h]

theorem evalLoop_inert {items : List (Value P)} (h : ∀ v ∈ items, v.Inert) (n : ℕ) (stack work : List (Value P)) :
    evalLoop binding (items.length + n) (items ++ stack) work = evalLoop binding n stack (work ++ items) := by
  induction items generalizing work with
  | nil => simp
  | cons v items ih =>
    rw [List.length_cons, Nat.add_right_comm, List.cons_append,
      evalLoop_push binding (nextItem_inert binding (h v (by simp)) _),
      ih (fun u hu => h u (List.mem_cons_of_mem _ hu))]
    simp

/-- An operator whose value, like all that is on the work stack, is pushed as it is when it is read again. -/
theorem evalLoop_apply {o : Operator P} {stack rest work work' : List (Value P)} {v : Value P}
    (h : nextItem binding stack = .read (.apply o) rest) (happly : o.apply work = some (v, work'))
    (hinert : ∀ u ∈ work' ++ [v], u.Inert) (n : ℕ) :
    evalLoop binding (work'.length + 2 + n) stack work = evalLoop binding n rest (work' ++ [v]) := by
  have hround : work'.length + 2 + n = ((work' ++ [v]).length + n) + 1 := by
    simp only [List.length_append, List.length_singleton]
    omega
  rw [hround, evalLoop]
  simp only [h, happly]
  rw [show work' ++ v :: rest = (work' ++ [v]) ++ rest by simp, evalLoop_inert binding hinert]
  rfl

theorem evalLoop_key {key : Bytes} {o : Operator P} (hkey : lookup P key = some o) {work rest : List (Value P)}
    {v : Value P} (happly : o.apply work = some (v, rest)) (hrest : ∀ u ∈ rest, u.Inert) (hv : v.Inert) (n : ℕ)
    (stack : List (Value P)) :
    evalLoop binding (rest.length + 2 + n) (.text key :: stack) work = evalLoop binding n stack (rest ++ [v]) := by
  refine evalLoop_apply binding (nextItem_key binding hkey stack) happly (fun u hu => ?_) n
  rcases List.mem_append.1 hu with hu | hu
  · exact hrest u hu
  · rw [List.mem_singleton.1 hu]
    exact hv

theorem evalLoop_key_died {key : Bytes} {o : Operator P} (hkey : lookup P key = some o) {work : List (Value P)}
    (happly : o.apply work = none) (n : ℕ) (stack : List (Value P)) :
    evalLoop binding (n + 1) (.text key :: stack) work = some (.failed .died) := by
  simp [evalLoop, nextItem_key binding hkey, happly]

theorem apply_unary (run : Value P → Option (Value P)) (work : List (Value P)) (a : Value P) :
    (Operator.unary run).apply (work ++ [a]) = (run a).map fun v => (v, work) := by
  simp [Operator.apply, popped]

theorem apply_binary (run : Value P → Value P → Option (Value P)) (work : List (Value P)) (b a : Value P) :
    (Operator.binary run).apply (work ++ [b] ++ [a]) = (run b a).map fun v => (v, work) := by
  simp [Operator.apply, popped]

/-- The rounds over the two operands, the operator, and what is read again. -/
theorem rounds_binary {kl kr l r w : ℕ} (hl : kl ≤ l * (w + l + 2)) (hr : kr ≤ r * (w + 1 + r + 2)) :
    kl + (kr + (w + 2)) ≤ (l + (r + 1)) * (w + (l + (r + 1)) + 2) := by
  nlinarith

theorem rounds_unary {k l w : ℕ} (h : k ≤ l * (w + l + 2)) : k + (w + 2) ≤ (l + 1) * (w + (l + 1) + 2) := by
  nlinarith

/-- The list of a tree is used up, and leaves the value of the tree on the work stack. -/
theorem evalLoop_postOrder (t : Tree) (hw : t.WellFormed binding) (hr : t.Readable binding) (stack work : List (Value P))
    (hwork : t.isLeaf = false → ∀ v ∈ work, v.Inert) :
    ∃ k ≤ t.postOrder.length * (work.length + t.postOrder.length + 2), ∀ n,
      evalLoop binding (k + n) (t.postOrder.map .text ++ stack) work =
        match t.value binding with
        | some v => evalLoop binding n stack (work ++ [v])
        | none => some (.failed .died) := by
  induction t generalizing stack work with
  | leaf l =>
    refine ⟨1, by simp [Tree.postOrder], fun n => ?_⟩
    rw [Nat.add_comm]
    exact evalLoop_push binding (nextItem_leaf binding hw hr stack) n
  | unary key t ih =>
    obtain ⟨hw, run, hkey⟩ := hw
    obtain ⟨hr, hinert⟩ := hr
    have hwork := hwork rfl
    obtain ⟨k, hk, hrun⟩ := ih hw hr (.text key :: stack) work fun _ => hwork
    refine ⟨k + (work.length + 2), by simpa [Tree.postOrder] using rounds_unary hk, fun n => ?_⟩
    simp only [Tree.postOrder, List.map_append, List.map_cons, List.map_nil, List.append_assoc, List.cons_append,
      List.nil_append]
    rw [Nat.add_assoc k, hrun]
    simp only [Tree.value, hkey] at hinert ⊢
    cases ha : t.value binding with
    | none => rfl
    | some a =>
      have happly := apply_unary run work a
      simp only [ha, Option.bind_some] at hinert ⊢
      cases hv : run a with
      | none =>
        rw [hv] at happly
        rw [show work.length + 2 + n = work.length + 1 + n + 1 by omega]
        exact evalLoop_key_died binding hkey happly _ _
      | some v =>
        rw [hv] at happly
        exact evalLoop_key binding hkey happly hwork (hinert v hv) n stack
  | binary key l r ihl ihr =>
    obtain ⟨hwl, hwr, run, hkey⟩ := hw
    obtain ⟨hl, hr, hfirst, hinert⟩ := hr
    have hwork := hwork rfl
    obtain ⟨kl, hkl, hrunl⟩ := ihl hwl hl (r.postOrder.map .text ++ .text key :: stack) work fun _ => hwork
    cases hb : l.value binding with
    | none =>
      refine ⟨kl, ?_, fun n => ?_⟩
      · refine le_trans (Nat.le_add_right kl (0 + (work.length + 2))) (le_trans (rounds_binary (r := 0) hkl (by simp)) ?_)
        simp only [Tree.postOrder, List.length_append, List.length_singleton]
        gcongr <;> omega
      · simp [Tree.postOrder, hrunl, Tree.value, hb]
    | some b =>
      have hwork' : r.isLeaf = false → ∀ v ∈ work ++ [b], v.Inert := by
        intro hleaf v hv
        rcases List.mem_append.1 hv with hv | hv
        · exact hwork v hv
        · rw [List.mem_singleton.1 hv]
          exact hfirst hleaf b hb
      obtain ⟨kr, hkr, hrunr⟩ := ihr hwr hr (.text key :: stack) (work ++ [b]) hwork'
      refine ⟨kl + (kr + (work.length + 2)), ?_, fun n => ?_⟩
      · simpa [Tree.postOrder] using rounds_binary hkl (by simpa using hkr)
      simp only [Tree.postOrder, List.map_append, List.map_cons, List.map_nil, List.append_assoc, List.cons_append,
        List.nil_append]
      rw [Nat.add_assoc kl, hrunl]
      simp only [hb]
      rw [Nat.add_assoc kr, hrunr]
      simp only [Tree.value, hkey, hb, Option.bind_some] at hinert ⊢
      cases ha : r.value binding with
      | none => rfl
      | some a =>
        have happly := apply_binary run work b a
        simp only [ha, Option.bind_some] at hinert ⊢
        cases hv : run b a with
        | none =>
          rw [hv] at happly
          rw [show work.length + 2 + n = work.length + 1 + n + 1 by omega]
          exact evalLoop_key_died binding hkey happly _ _
        | some v =>
          rw [hv] at happly
          exact evalLoop_key binding hkey happly hwork (hinert v hv) n stack

/-- More rounds change nothing. -/
theorem evalLoop_mono {n : ℕ} {stack work : List (Value P)} {e : Ended P}
    (h : evalLoop binding n stack work = some e) : evalLoop binding (n + 1) stack work = some e := by
  induction n generalizing stack work with
  | zero => cases h
  | succ n ih =>
    rw [evalLoop] at h ⊢
    cases hnext : nextItem binding stack with
    | stop rest => simpa only [hnext] using h
    | read r rest =>
      simp only [hnext] at h ⊢
      cases r with
      | push v => exact ih h
      | fail e => exact h
      | apply o =>
        cases happly : o.apply work with
        | none => simpa only [happly] using h
        | some t =>
          simp only [happly] at h ⊢
          exact ih h

theorem evalLoop_le {m n : ℕ} (hmn : m ≤ n) {stack work : List (Value P)} {e : Ended P}
    (h : evalLoop binding m stack work = some e) : evalLoop binding n stack work = some e := by
  induction n, hmn using Nat.le_induction with
  | base => exact h
  | succ n _ ih => exact evalLoop_mono binding ih

/-- The loop over the list of a tree ends with the value of the tree, or with the error of an operator. -/
theorem evalEnded_postOrder (t : Tree) (hw : t.WellFormed binding) (hr : t.Readable binding) :
    evalEnded binding t.postOrder = some (((t.value binding).map fun v => .left [v]).getD (.failed .died)) := by
  obtain ⟨k, hk, hrun⟩ := evalLoop_postOrder binding t hw hr [] [] fun _ => by simp
  have hround : k + 1 ≤ rounds (t.postOrder.length) := by
    simp only [List.length_nil, Nat.zero_add] at hk
    unfold rounds
    nlinarith
  refine evalLoop_le binding hround ?_
  have := hrun 1
  rw [List.append_nil] at this
  rw [this]
  cases t.value binding with
  | none => rfl
  | some v => simp [evalLoop, nextItem]

/-- **`eval` on the post-order list of a tree answers the value of the tree** when the leaves can be read and
what is read once more is not taken for something else. -/
theorem eval_postOrder (t : Tree) (hw : t.WellFormed binding) (hr : t.Readable binding) :
    eval binding t.postOrder = t.answer binding := by
  rw [eval, evalEnded_postOrder binding t hw hr, Tree.answer]
  cases t.value binding <;> rfl

/-- `1 < 2` on whole numbers, whose value is read once more. -/
theorem eval_postOrder_less :
    eval (P := wholePerl) (fun _ => none) [ascii "1", ascii "2", ascii "<"] =
      (Tree.binary (ascii "<") (.leaf (.integer (ascii "1"))) (.leaf (.integer (ascii "2")))).answer
        (P := wholePerl) fun _ => none :=
  eval_postOrder (P := wholePerl) (fun _ => none)
    (.binary (ascii "<") (.leaf (.integer (ascii "1"))) (.leaf (.integer (ascii "2"))))
    ⟨⟨by decide +kernel, by decide +kernel⟩, ⟨by decide +kernel, by decide +kernel⟩, _, rfl⟩
    ⟨trivial, trivial, fun h => (by cases h), fun v hv => (by cases hv; trivial)⟩

/-- `"?x" eq "?x"` is no comparison of two strings, but an error: a variable that is not there. -/
theorem eval_ne_answer :
    ¬ ∀ (binding : Binding wholePerl) (t : Tree), t.WellFormed binding → eval binding t.postOrder = t.answer binding := by
  intro h
  have hx := h (fun _ => none)
    (.binary (ascii "eq") (.leaf (.string 0x22 (ascii "?x"))) (.leaf (.string 0x22 (ascii "?x"))))
    ⟨rfl, rfl, _, rfl⟩
  have hzero : eval (P := wholePerl) (fun _ => none)
      [0x22 :: (ascii "?x" ++ [0x22]), 0x22 :: (ascii "?x" ++ [0x22]), ascii "eq"] = .number (0 : ℤ) := rfl
  have hone : (Tree.binary (ascii "eq") (.leaf (.string 0x22 (ascii "?x"))) (.leaf (.string 0x22 (ascii "?x")))).answer
      (P := wholePerl) (fun _ => none) = .number (1 : ℤ) := rfl
  have hboth : (Value.number (0 : ℤ) : Value wholePerl) = .number (1 : ℤ) := hzero.symm.trans (hx.trans hone)
  injection hboth with hnumber
  exact absurd hnumber (by decide)

end RdfStore.Query
