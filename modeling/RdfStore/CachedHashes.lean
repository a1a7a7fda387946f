import RdfStore.Identity
import RdfStore.Concrete
import RdfStore.Search

/-!
# Hash codes that were cached

Nodes and statements carry the hash code that some call computed for them.  A
node may be part of many statements and is changed in place by its setters,
which leave every hash code alone; `rdfstore_digest_get_node_hashCode` and
`rdfstore_digest_get_statement_hashCode` return what is cached whatever they are
asked.  What the store's calls cache is always right (`HashOp.step_fresh`): the
hash code without `unique` of a node, the one in its own context of a statement.

    no setter touches what a cached hash code was made of →
      every hash code asked for as it was cached is right   (hashCodes_fresh)
-/

namespace RdfStore

open ByteMem

/-! ## Objects -/

abbrev Ptr := Nat

/-- A pointer to a node: to one of type 0 or 2, or to a literal. -/
inductive NodePtr
  | resource (a : Ptr)
  | literal (a : Ptr)
  deriving DecidableEq

structure StatementObject where
  subject : Option Ptr
  predicate : Option Ptr
  object : Option NodePtr
  context : Option Ptr
  node : Option Ptr
  hashcode : UInt32
  isreified : Bool

/-- The nodes and the statements of a program; statements may share nodes. -/
structure Objects where
  resource : Ptr → Resource
  literal : Ptr → Literal
  statement : Ptr → StatementObject

def Objects.node (w : Objects) : NodePtr → Node
  | .resource a => .resource (w.resource a)
  | .literal a => .literal (w.literal a)

/-- The statement at `s` with what it points to. -/
def Objects.view (w : Objects) (s : Ptr) : Statement where
  subject := (w.statement s).subject.map w.resource
  predicate := (w.statement s).predicate.map w.resource
  object := (w.statement s).object.map w.node
  context := (w.statement s).context.map w.resource
  node := (w.statement s).node.map w.resource
  hashcode := (w.statement s).hashcode
  isreified := (w.statement s).isreified

def Objects.setResource (w : Objects) (a : Ptr) (r : Resource) : Objects :=
  { w with resource := Function.update w.resource a r }

def Objects.setLiteral (w : Objects) (a : Ptr) (l : Literal) : Objects :=
  { w with literal := Function.update w.literal a l }

def Objects.setStatement (w : Objects) (s : Ptr) (o : StatementObject) : Objects :=
  { w with statement := Function.update w.statement s o }

/-! ## Setters -/

/-- The setters of nodes and statements. -/
inductive SetterOp
  | resourceSetUri (a : Ptr) (identifier : Option CBuf)
  | literalSetString (a : Ptr) (string : Option CBuf)
  | literalSetLang (a : Ptr) (lang : Option CString)
  | literalSetDatatype (a : Ptr) (dt : Option CString)
  | literalSetParsetype (a : Ptr) (parseType : Int)
  | statementSetSubject (s : Ptr) (r : Option Ptr)
  | statementSetPredicate (s : Ptr) (r : Option Ptr)
  | statementSetObject (s : Ptr) (o : Option NodePtr)
  | statementSetContext (s : Ptr) (c : Option Ptr)
  | statementSetNode (s : Ptr) (node : Option Ptr)

def SetterOp.apply (w : Objects) : SetterOp → Objects
  | .resourceSetUri a identifier => w.setResource a (rdfstoreResourceSetUri (w.resource a) identifier)
  | .literalSetString a string => w.setLiteral a (rdfstoreLiteralSetString (w.literal a) string)
  | .literalSetLang a lang => w.setLiteral a (rdfstoreLiteralSetLang (w.literal a) lang)
  | .literalSetDatatype a dt => w.setLiteral a (rdfstoreLiteralSetDatatype (w.literal a) dt)
  | .literalSetParsetype a parseType => w.setLiteral a (rdfstoreLiteralSetParsetype (w.literal a) parseType)
  | .statementSetSubject s r => w.setStatement s { w.statement s with subject := r }
  | .statementSetPredicate s r => w.setStatement s { w.statement s with predicate := r }
  | .statementSetObject s o => w.setStatement s { w.statement s with object := o }
  | .statementSetContext s c => w.setStatement s { w.statement s with context := c }
  | .statementSetNode s node => w.setStatement s { w.statement s with node := node }

/-! ## Calls of a store -/

/-- A part of a pattern points to its node. -/
inductive PartPtr
  | resourceNode (p : NodePtr)
  | literalNode (p : NodePtr)
  | string (s : CString)

structure PartPtrList where
  parts : List PartPtr
  operator : UInt32

structure PatternObject where
  subjects : PartPtrList
  predicates : PartPtrList
  objects : PartPtrList
  contexts : PartPtrList
  langs : PartPtrList
  dts : PartPtrList
  words : PartPtrList

def PartPtr.part (w : Objects) : PartPtr → Part
  | .resourceNode p => .resourceNode (w.node p)
  | .literalNode p => .literalNode (w.node p)
  | .string s => .string s

def PartPtrList.list (w : Objects) (l : PartPtrList) : PartList := ⟨l.parts.map (PartPtr.part w), l.operator⟩

def PatternObject.pattern (w : Objects) (tp : PatternObject) : TriplePattern where
  subjects := tp.subjects.list w
  predicates := tp.predicates.list w
  objects := tp.objects.list w
  contexts := tp.contexts.list w
  langs := tp.langs.list w
  dts := tp.dts.list w
  words := tp.words.list w

/-- A hash code to be left in a node. -/
abbrev Note := NodePtr × UInt32

/-- A hash code of 0 is the same as none. -/
def Objects.note (w : Objects) (n : Note) : Objects :=
  if n.2 = 0 then w
  else
    match n.1 with
    | .resource a => w.setResource a { w.resource a with hashcode := n.2 }
    | .literal a => w.setLiteral a { w.literal a with hashcode := n.2 }

def Objects.noteAll (w : Objects) (notes : List Note) : Objects := notes.foldl Objects.note w

/-- The hash code a call left in a node it was given by pointer. -/
def noteOf (p : Option NodePtr) (n : Option Node) : List Note :=
  match p, n with
  | some p, some n => [(p, n.hashcode)]
  | _, _ => []

def resourceNoteOf (p : Option Ptr) (r : Option Resource) : List Note :=
  noteOf (p.map .resource) (r.map .resource)

/-- The hash codes a call left in the nodes of its statement and in its context. -/
def callNotes (o : StatementObject) (given : Option Ptr) (f : Frame) : List Note :=
  resourceNoteOf o.subject f.statement.subject ++ resourceNoteOf o.predicate f.statement.predicate
    ++ noteOf o.object f.statement.object ++ resourceNoteOf o.context f.statement.context
    ++ resourceNoteOf given f.givenContext

def Objects.afterCall (w : Objects) (s : Ptr) (given : Option Ptr) (f : Frame) : Objects :=
  (w.noteAll (callNotes (w.statement s) given f)).setStatement s
    { w.statement s with hashcode := f.statement.hashcode }

def PartPtr.notes (p : PartPtr) (part : Part) : List Note :=
  match p, part with
  | .resourceNode p, .resourceNode n => [(p, n.hashcode)]
  | .literalNode p, .literalNode n => [(p, n.hashcode)]
  | _, _ => []

def PartPtrList.notes (l : PartPtrList) (l' : PartList) : List Note :=
  (List.zipWith PartPtr.notes l.parts l'.parts).flatten

/-- The hash codes a search left in the nodes of its pattern. -/
def PatternObject.notes (tp : PatternObject) (tp' : TriplePattern) : List Note :=
  tp.subjects.notes tp'.subjects ++ tp.predicates.notes tp'.predicates ++ tp.objects.notes tp'.objects
    ++ tp.contexts.notes tp'.contexts

/-- The objects of a program and its stores. -/
structure World where
  objects : Objects
  store : Nat → Store

inductive HashOp
  | set (op : SetterOp)
  | insert (db : Nat) (now : Bytes) (s : Ptr) (given : Option Ptr)
  | remove (db : Nat) (now : Bytes) (s : Ptr) (given : Option Ptr)
  | contains (db : Nat) (s : Ptr) (given : Option Ptr)
  | search (db : Nat) (tp : PatternObject)

section

variable (ext : Externals)

def World.afterCall (w : World) (db : Nat) (s : Ptr) (given : Option Ptr) (x : Option (Int × Frame)) :
    Option World :=
  x.map fun r => ⟨w.objects.afterCall s given r.2, Function.update w.store db r.2.me⟩

/-- `none` if the process did not come back from the call. -/
def HashOp.step (w : World) : HashOp → Option World
  | .set op => some { w with objects := op.apply w.objects }
  | .insert db now s given => w.afterCall db s given
      (rdfstoreInsert ext now (w.store db) (w.objects.view s) (given.map w.objects.resource))
  | .remove db now s given => w.afterCall db s given
      (rdfstoreRemove ext now (w.store db) (w.objects.view s) (given.map w.objects.resource))
  | .contains db s given => w.afterCall db s given
      (some (rdfstoreContains ext (w.store db) (w.objects.view s) (given.map w.objects.resource)))
  | .search db tp =>
    match rdfstoreSearch ext (w.store db) (some (tp.pattern w.objects)) with
    | .found _ me tp' => some ⟨w.objects.noteAll (tp.notes tp'), Function.update w.store db me⟩
    | _ => some w

def HashOp.run : List HashOp → World → Option World
  | [], w => some w
  | op :: ops, w => (op.step ext w).bind (HashOp.run ops)

end

/-! ## What is asked of a run -/

/-- The setter leaves alone what a cached hash code was made of. -/
def SetterOp.Meets (w : Objects) (op : SetterOp) : Prop :=
  (∀ p, (w.node p).hashcode = 0 ∨ ((op.apply w).node p).digestInput false = (w.node p).digestInput false) ∧
    ∀ s, (w.statement s).hashcode = 0 ∨
      statementContent ((op.apply w).view s) none = statementContent (w.view s) none

def HashOp.Meets (w : World) : HashOp → Prop
  | .set op => op.Meets w.objects
  | _ => True

def SettersMeet (ext : Externals) : List HashOp → World → Prop
  | [], _ => True
  | op :: ops, w => op.Meets w ∧ ∀ w', op.step ext w = some w' → SettersMeet ext ops w'

/-- `unique` makes no difference to the node, or nothing was cached in it. -/
def Objects.NodeAgrees (w : Objects) (p : NodePtr) (unique : Bool) : Prop :=
  (w.node p).hashcode = 0 ∨ (w.node p).digestInput unique = (w.node p).digestInput false

/-- The context is the statement's own, or nothing was cached in it. -/
def Objects.StatementAgrees (w : Objects) (s : Ptr) (context : Option Resource) : Prop :=
  (w.statement s).hashcode = 0 ∨ statementContent (w.view s) context = statementContent (w.view s) none

/-- Nothing is cached. -/
def Objects.Uncached (w : Objects) : Prop :=
  (∀ p, (w.node p).hashcode = 0) ∧ ∀ s, (w.statement s).hashcode = 0

/-! ## Notes -/

/-- The same objects but for the hash codes of nodes. -/
structure Objects.Alike (w w' : Objects) : Prop where
  node : ∀ p, (w'.node p).content = (w.node p).content
  statement : w'.statement = w.statement

theorem Objects.Alike.refl (w : Objects) : w.Alike w := ⟨fun _ => rfl, rfl⟩

theorem Objects.Alike.trans {w w' w'' : Objects} (h : w.Alike w') (h' : w'.Alike w'') : w.Alike w'' :=
  ⟨fun p => (h'.node p).trans (h.node p), h'.statement.trans h.statement⟩

theorem Objects.Alike.resource {w w' : Objects} (h : w.Alike w') (a : Ptr) :
    (w'.resource a).content = (w.resource a).content :=
  NodeContent.resource.inj (h.node (.resource a))

theorem map_content_congr {α β γ : Type} {f g : α → β} {c : β → γ} (h : ∀ a, c (g a) = c (f a)) (p : Option α) :
    (p.map g).map c = (p.map f).map c := by
  cases p with
  | none => rfl
  | some a => exact congrArg some (h a)

theorem Objects.Alike.view {w w' : Objects} (h : w.Alike w') (s : Ptr) (c : Option Resource) :
    statementContent (w'.view s) c = statementContent (w.view s) c := by
  unfold statementContent Statement.digestContext Objects.view
  rw [h.statement, map_content_congr h.resource, map_content_congr h.resource, map_content_congr h.node]
  cases c with
  | some c => rfl
  | none => rw [Option.none_or, Option.none_or, map_content_congr h.resource]

/-- A note tells the hash code of a node as it is computed without `unique`. -/
def Objects.Right (ext : Externals) (w : Objects) (n : Note) : Prop :=
  n.2 = 0 ∨ n.2 = objectHash ext (w.node n.1)

/-- What is cached is right: without `unique` in the nodes, without a given context in the
statements. -/
structure Objects.Fresh (ext : Externals) (w : Objects) : Prop where
  node : ∀ p, (w.node p).Fresh ext
  statement : ∀ s, (w.statement s).hashcode = 0 ∨ (w.statement s).hashcode = statementHash ext (w.view s) none

section

variable {ext : Externals} {w w' : Objects}

theorem Objects.Uncached.fresh (h : w.Uncached) : w.Fresh ext :=
  ⟨fun p => Or.inl (h.1 p), fun s => Or.inl (h.2 s)⟩

theorem Objects.node_setResource (a : Ptr) (r : Resource) (p : NodePtr) :
    (w.setResource a r).node p = if p = .resource a then .resource r else w.node p := by
  cases p with
  | resource b =>
    by_cases hb : b = a
    · subst hb
      simp [Objects.node, Objects.setResource]
    · simp [Objects.node, Objects.setResource, hb]
  | literal b => rfl

theorem Objects.node_setLiteral (a : Ptr) (l : Literal) (p : NodePtr) :
    (w.setLiteral a l).node p = if p = .literal a then .literal l else w.node p := by
  cases p with
  | literal b =>
    by_cases hb : b = a
    · subst hb
      simp [Objects.node, Objects.setLiteral]
    · simp [Objects.node, Objects.setLiteral, hb]
  | resource b => rfl

/-- The node a note is about takes the hash code, every other node stays as it is. -/
theorem Objects.node_note (n : Note) (p : NodePtr) :
    ((w.note n).node p).content = (w.node p).content ∧
      (((w.note n).node p).hashcode = (w.node p).hashcode ∨ p = n.1 ∧ ((w.note n).node p).hashcode = n.2) := by
  unfold Objects.note
  split
  · exact ⟨rfl, Or.inl rfl⟩
  · split
    · next a ha =>
      rw [Objects.node_setResource]
      split
      · next hp => exact ⟨by rw [hp]; rfl, Or.inr ⟨hp.trans ha.symm, rfl⟩⟩
      · exact ⟨rfl, Or.inl rfl⟩
    · next a ha =>
      rw [Objects.node_setLiteral]
      split
      · next hp => exact ⟨by rw [hp]; rfl, Or.inr ⟨hp.trans ha.symm, rfl⟩⟩
      · exact ⟨rfl, Or.inl rfl⟩

theorem Objects.note_alike (w : Objects) (n : Note) : w.Alike (w.note n) := by
  refine ⟨fun p => (Objects.node_note n p).1, ?_⟩
  unfold Objects.note
  split
  · rfl
  · split <;> rfl

theorem Objects.noteAll_alike (w : Objects) (notes : List Note) : w.Alike (w.noteAll notes) := by
  induction notes generalizing w with
  | nil => exact Objects.Alike.refl w
  | cons n notes ih => exact (w.note_alike n).trans (ih (w.note n))

theorem Objects.Right.alike {n : Note} (h : w.Right ext n) (hw : w.Alike w') : w'.Right ext n := by
  unfold Objects.Right at h ⊢
  rwa [objectHash_congr (hw.node n.1)]

theorem Objects.Fresh.note {n : Note} (h : w.Fresh ext) (hn : w.Right ext n) : (w.note n).Fresh ext := by
  have halike := w.note_alike n
  constructor
  · intro p
    obtain ⟨hcontent, hcode | ⟨rfl, hcode⟩⟩ := Objects.node_note (w := w) n p
    · unfold Node.Fresh
      rw [hcode, objectHash_congr hcontent]
      exact h.node p
    · unfold Node.Fresh
      rw [hcode, objectHash_congr hcontent]
      exact hn
  · intro s
    rw [halike.statement, statementHash_congr (halike.view s none)]
    exact h.statement s

theorem Objects.Fresh.noteAll {notes : List Note} (h : w.Fresh ext) (hnotes : ∀ n ∈ notes, w.Right ext n) :
    (w.noteAll notes).Fresh ext := by
  induction notes generalizing w with
  | nil => exact h
  | cons n notes ih =>
    refine ih (h.note (hnotes n List.mem_cons_self)) fun m hm => ?_
    exact (hnotes m (List.mem_cons_of_mem _ hm)).alike (w.note_alike n)

/-! ## Insert, remove and contains -/

theorem Node.Fresh.cacheHash_right {n : Node} (h : n.Fresh ext) : (n.cacheHash ext).hashcode = objectHash ext n := by
  have hcode := h.hashCode_eq
  cases n with
  | resource r => exact hcode
  | literal l => exact hcode

/-- A node comes back from a call as it was or with its hash code. -/
def MayCache {α : Type} (cache : α → α) (n n' : Option α) : Prop := n' = n ∨ n' = n.map cache

theorem noteOf_right (h : w.Fresh ext) {p : Option NodePtr} {n : Option Node}
    (hn : MayCache (Node.cacheHash ext) (p.map w.node) n) : ∀ x ∈ noteOf p n, w.Right ext x := by
  intro x hx
  cases p with
  | none => cases hx
  | some p =>
    rcases hn with rfl | rfl <;> obtain rfl := List.mem_singleton.1 hx
    · exact h.node p
    · exact Or.inr (h.node p).cacheHash_right

theorem resourceNoteOf_right (h : w.Fresh ext) {p : Option Ptr} {r : Option Resource}
    (hr : MayCache (Resource.cacheHash ext) (p.map w.resource) r) : ∀ x ∈ resourceNoteOf p r, w.Right ext x := by
  refine noteOf_right h ?_
  rcases hr with rfl | rfl
  · left
    cases p <;> rfl
  · right
    cases p <;> rfl

/-- The nodes of a call, each as it was or with its hash code. -/
structure NodesCached (ext : Externals) (st : Statement) (given : Option Resource) (f : Frame) : Prop where
  subject : MayCache (Resource.cacheHash ext) st.subject f.statement.subject
  predicate : MayCache (Resource.cacheHash ext) st.predicate f.statement.predicate
  object : MayCache (Node.cacheHash ext) st.object f.statement.object
  context : MayCache (Resource.cacheHash ext) st.context f.statement.context
  givenContext : MayCache (Resource.cacheHash ext) given f.givenContext

theorem nodesCached_same (me : Store) (st : Statement) (given : Option Resource) (hc : UInt32) :
    NodesCached ext st given ⟨me, { st with hashcode := hc }, given⟩ :=
  ⟨Or.inl rfl, Or.inl rfl, Or.inl rfl, Or.inl rfl, Or.inl rfl⟩

theorem nodesCached_cacheNodeHashes (me me' : Store) (st : Statement) (given : Option Resource) (hc : UInt32) :
    NodesCached ext st given
      { (⟨me, { st with hashcode := hc }, given⟩ : Frame).cacheNodeHashes ext with me := me' } := by
  obtain ⟨s, p, o, c, _, _, _⟩ := st
  cases given with
  | some g => exact ⟨Or.inr rfl, Or.inr rfl, Or.inr rfl, Or.inl rfl, Or.inr rfl⟩
  | none =>
    cases c with
    | some c => exact ⟨Or.inr rfl, Or.inr rfl, Or.inr rfl, Or.inr rfl, Or.inl rfl⟩
    | none =>
      obtain ⟨_, _, _, _, _, _, _, d, _, _⟩ := me
      cases d <;> exact ⟨Or.inr rfl, Or.inr rfl, Or.inr rfl, Or.inl rfl, Or.inl rfl⟩

section

variable {me : Store} {st : Statement} {given : Option Resource} {f : Frame}

theorem callFrame_eq (me : Store) (st : Statement) (given : Option Resource) :
    ∃ hc, callFrame ext me st given = ⟨me, { st with hashcode := hc }, given⟩ ∧
      (hc = st.hashcode ∨ given = none ∧ me.context = none ∧ hc = callHash ext me st given) := by
  unfold callFrame Frame.cacheStatementHash
  split
  · next hproper =>
    obtain ⟨hgiven, hdefault⟩ := hproper
    exact ⟨_, rfl, Or.inr ⟨Option.isNone_iff_eq_none.1 hgiven, Option.isNone_iff_eq_none.1 hdefault, rfl⟩⟩
  · exact ⟨st.hashcode, rfl, Or.inl rfl⟩

theorem CallOutcome.nodesCached (h : CallOutcome ext me st given f) : NodesCached ext st given f := by
  obtain ⟨hc, hframe, -⟩ := @callFrame_eq ext me st given
  cases h with
  | untouched => exact nodesCached_same me st given st.hashcode
  | hashed me' h =>
    rw [hframe]
    exact nodesCached_same me' st given hc
  | cached me₁ me' h =>
    rw [hframe]
    exact nodesCached_cacheNodeHashes me₁ me' st given hc

/-- The statement's hash code is cached only if neither the call nor the store brings a context. -/
theorem CallOutcome.hashcode (h : CallOutcome ext me st given f) :
    f.statement.hashcode = st.hashcode ∨
      given = none ∧ me.context = none ∧ f.statement.hashcode = callHash ext me st given := by
  obtain ⟨hc, hframe, hcode⟩ := @callFrame_eq ext me st given
  cases h with
  | untouched => exact Or.inl rfl
  | hashed me' h =>
    rw [hframe]
    exact hcode
  | cached me₁ me' h =>
    rw [hframe, cacheNodeHashes_hashcode]
    exact hcode

theorem rdfstoreContains_outcome (me : Store) (st : Statement) (given : Option Resource) :
    CallOutcome ext me st given (rdfstoreContains ext me st given).2 := by
  unfold rdfstoreContains
  split
  · exact .untouched
  · have hframe : CallOutcome ext me st given ((⟨me, st, given⟩ : Frame).cacheStatementHash
        (rdfstoreDigestGetStatementHashCode ext st (given.or st.context))) := by
      by_cases hproper : given.isNone ∧ me.context.isNone
      · have hdefault := Option.isNone_iff_eq_none.1 hproper.2
        have heff : effectiveContext me st given = given.or st.context := by
          rw [effectiveContext, hdefault, Option.or_none]
        have hhash : callHash ext me st given =
            rdfstoreDigestGetStatementHashCode ext st (given.or st.context) := by rw [callHash, heff]
        rw [← hhash]
        exact .hashed (callFrame ext me st given).me (by rw [callFrame, cacheStatementHash_me])
      · unfold Frame.cacheStatementHash
        rw [if_neg hproper]
        exact .untouched
    simp only
    split <;> exact hframe

end

/-- In its own context a statement has the hash code it has without a given one. -/
theorem statementHash_own (st : Statement) : statementHash ext st st.context = statementHash ext st none := by
  refine statementHash_congr ?_
  unfold statementContent Statement.digestContext
  rw [Option.or_self, Option.none_or]

theorem CallOutcome.hashcode_fresh {me : Store} {st : Statement} {given : Option Resource} {f : Frame}
    (h : CallOutcome ext me st given f) (hst : st.hashcode = 0 ∨ st.hashcode = statementHash ext st none) :
    f.statement.hashcode = 0 ∨ f.statement.hashcode = statementHash ext st none := by
  rcases h.hashcode with hcode | ⟨hgiven, hdefault, hcode⟩
  · rwa [hcode]
  · right
    have heff : effectiveContext me st given = st.context := by
      rw [effectiveContext, hgiven, hdefault, Option.none_or, Option.or_none]
    have hst : st.hashcode = 0 ∨ st.hashcode = statementHash ext st (effectiveContext me st given) := by
      rwa [heff, statementHash_own]
    rw [hcode, callHash_eq hst, heff, statementHash_own]

theorem Objects.statement_setStatement (w : Objects) (s t : Ptr) (o : StatementObject) :
    (w.setStatement s o).statement t = if t = s then o else w.statement t :=
  Function.update_apply w.statement s o t

theorem Objects.view_setHashcode (w : Objects) (s t : Ptr) (hc : UInt32) :
    (w.setStatement s { w.statement s with hashcode := hc }).view t =
      if t = s then { w.view s with hashcode := hc } else w.view t := by
  unfold Objects.view
  rw [Objects.statement_setStatement]
  by_cases ht : t = s
  · rw [if_pos ht, if_pos ht]
    rfl
  · rw [if_neg ht, if_neg ht]
    rfl

theorem Objects.Fresh.setHashcode (h : w.Fresh ext) {s : Ptr} {hc : UInt32}
    (hcode : hc = 0 ∨ hc = statementHash ext (w.view s) none) :
    (w.setStatement s { w.statement s with hashcode := hc }).Fresh ext := by
  constructor
  · intro p
    have hp := h.node p
    cases p <;> exact hp
  · intro t
    rw [Objects.view_setHashcode, Objects.statement_setStatement]
    by_cases ht : t = s
    · rw [if_pos ht, if_pos ht]
      exact hcode
    · rw [if_neg ht, if_neg ht]
      exact h.statement t

/-- What a call leaves in the objects is right. -/
theorem Objects.Fresh.afterCall (h : w.Fresh ext) {me : Store} {s : Ptr} {given : Option Ptr} {f : Frame}
    (hcall : CallOutcome ext me (w.view s) (given.map w.resource) f) : (w.afterCall s given f).Fresh ext := by
  have hnodes := hcall.nodesCached
  have hright : ∀ n ∈ callNotes (w.statement s) given f, w.Right ext n := by
    intro n hn
    simp only [callNotes, List.mem_append] at hn
    rcases hn with (((hn | hn) | hn) | hn) | hn
    · exact resourceNoteOf_right h hnodes.subject n hn
    · exact resourceNoteOf_right h hnodes.predicate n hn
    · exact noteOf_right h hnodes.object n hn
    · exact resourceNoteOf_right h hnodes.context n hn
    · exact resourceNoteOf_right h hnodes.givenContext n hn
  have halike := w.noteAll_alike (callNotes (w.statement s) given f)
  have hcode := hcall.hashcode_fresh (h.statement s)
  rw [← statementHash_congr (halike.view s none)] at hcode
  have hfresh := (h.noteAll hright).setHashcode hcode
  rw [halike.statement] at hfresh
  exact hfresh

/-! ## Search -/

/-- A list of parts comes back as it was or with its hash codes. -/
def ListCached (ext : Externals) (l l' : PartList) : Prop := l' = l ∨ l' = l.cacheHashes ext

structure PatternCached (ext : Externals) (tp tp' : TriplePattern) : Prop where
  subjects : ListCached ext tp.subjects tp'.subjects
  predicates : ListCached ext tp.predicates tp'.predicates
  objects : ListCached ext tp.objects tp'.objects
  contexts : ListCached ext tp.contexts tp'.contexts

theorem Node.cacheHash_cacheHash (n : Node) : (n.cacheHash ext).cacheHash ext = n.cacheHash ext := by
  have hcode : ∀ m m' : Node, m'.hashcode = rdfstoreDigestGetNodeHashCode ext m false → m'.content = m.content →
      rdfstoreDigestGetNodeHashCode ext m' false = rdfstoreDigestGetNodeHashCode ext m false := by
    intro m m' hcode hcontent
    unfold rdfstoreDigestGetNodeHashCode at hcode ⊢
    by_cases hm : m.hashcode = 0
    · rw [if_neg (not_not.2 hm)] at hcode ⊢
      split
      · exact hcode
      · exact objectHash_congr hcontent
    · rw [if_pos hm] at hcode ⊢
      rw [if_pos (hcode ▸ hm)]
      exact hcode
  cases n with
  | resource r => exact congrArg (fun hc => Node.resource { r with hashcode := hc }) (hcode (.resource r) _ rfl rfl)
  | literal l => exact congrArg (fun hc => Node.literal { l with hashcode := hc }) (hcode (.literal l) _ rfl rfl)

theorem PartList.cacheHashes_cacheHashes (l : PartList) :
    (l.cacheHashes ext).cacheHashes ext = l.cacheHashes ext := by
  have hpart : ∀ p : Part, (p.cacheHash ext).cacheHash ext = p.cacheHash ext := by
    intro p
    cases p with
    | resourceNode n => exact congrArg Part.resourceNode n.cacheHash_cacheHash
    | literalNode n => exact congrArg Part.literalNode n.cacheHash_cacheHash
    | string s => rfl
  unfold PartList.cacheHashes
  rw [List.map_map]
  congr 1
  exact List.map_congr_left fun p _ => hpart p

theorem ListCached.cache {l l' : PartList} (h : ListCached ext l l') : ListCached ext l (l'.cacheHashes ext) := by
  rcases h with rfl | rfl
  · exact Or.inr rfl
  · exact Or.inr l.cacheHashes_cacheHashes

/-- The pattern a stage of the search left. -/
def leftPattern : Except Search Search → TriplePattern
  | .error s => s.tp
  | .ok s => s.tp

theorem leftPattern_andBefore (s : Search) : leftPattern (andBefore s) = s.tp := by
  unfold andBefore
  simp only
  split <;> rfl

theorem leftPattern_searchComponent (t : Index) (operator : UInt32) (keys : List Bytes) (s : Search) :
    leftPattern (searchComponent ext t operator keys s) = s.tp := by
  unfold searchComponent
  simp only
  split
  · rfl
  · split
    · exact leftPattern_andBefore _
    · rfl

theorem leftPattern_bind {tp : TriplePattern} {x : Except Search Search} {f : Search → Except Search Search}
    (hx : PatternCached ext tp (leftPattern x))
    (hf : ∀ s, PatternCached ext tp s.tp → PatternCached ext tp (leftPattern (f s))) :
    PatternCached ext tp (leftPattern (x >>= f)) := by
  cases x with
  | error s => exact hx
  | ok s => exact hf s hx

theorem searchComponents_cached (s : Search) : PatternCached ext s.tp (leftPattern (searchComponents ext s)) := by
  unfold searchComponents
  refine leftPattern_bind ?_ fun s₁ h₁ => leftPattern_bind ?_ fun s₂ h₂ => leftPattern_bind ?_ fun s₃ h₃ =>
    leftPattern_bind ?_ fun s₄ h₄ => leftPattern_bind ?_ fun s₅ h₅ => leftPattern_bind ?_ fun s₆ h₆ => ?_
  · have hsame : leftPattern (searchWords ext s) = s.tp := by
      unfold searchWords
      split
      · simp only
        split <;> rfl
      · rfl
    rw [hsame]
    exact ⟨Or.inl rfl, Or.inl rfl, Or.inl rfl, Or.inl rfl⟩
  · unfold searchSubjects
    split
    · exact h₁
    · rw [leftPattern_searchComponent]
      exact ⟨h₁.subjects.cache, h₁.predicates, h₁.objects, h₁.contexts⟩
  · unfold searchPredicates
    split
    · exact h₂
    · rw [leftPattern_searchComponent]
      exact ⟨h₂.subjects, h₂.predicates.cache, h₂.objects, h₂.contexts⟩
  · unfold searchObjects
    split
    · exact h₃
    · rw [leftPattern_searchComponent]
      exact ⟨h₃.subjects, h₃.predicates, h₃.objects.cache, h₃.contexts⟩
  · unfold searchLangs
    split
    · exact h₄
    · rw [leftPattern_searchComponent]
      exact h₄
  · unfold searchDts
    split
    · exact h₅
    · rw [leftPattern_searchComponent]
      exact h₅
  · have hcached : PatternCached ext s.tp { s₆.tp with contexts := s₆.tp.contexts.cacheHashes ext } :=
      ⟨h₆.subjects, h₆.predicates, h₆.objects, h₆.contexts.cache⟩
    unfold searchContexts
    split
    · exact h₆
    · simp only
      split
      · exact hcached
      · split
        · rw [leftPattern_andBefore]
          exact hcached
        · exact hcached

theorem PartPtr.notes_right (h : w.Fresh ext) (p : PartPtr) {part : Part}
    (hpart : part = p.part w ∨ part = (p.part w).cacheHash ext) : ∀ n ∈ p.notes part, w.Right ext n := by
  intro n hn
  cases p with
  | resourceNode p =>
    rcases hpart with rfl | rfl <;> obtain rfl := List.mem_singleton.1 hn
    · exact h.node p
    · exact Or.inr (h.node p).cacheHash_right
  | literalNode p =>
    rcases hpart with rfl | rfl <;> obtain rfl := List.mem_singleton.1 hn
    · exact h.node p
    · exact Or.inr (h.node p).cacheHash_right
  | string s => rcases hpart with rfl | rfl <;> cases hn

theorem PartPtrList.notes_right (h : w.Fresh ext) (l : PartPtrList) {l' : PartList}
    (hl : ListCached ext (l.list w) l') : ∀ n ∈ l.notes l', w.Right ext n := by
  have hmap : ∀ f : PartPtr → Part, (∀ p, f p = p.part w ∨ f p = (p.part w).cacheHash ext) →
      l'.parts = l.parts.map f → ∀ n ∈ l.notes l', w.Right ext n := by
    intro f hf hparts n hn
    unfold PartPtrList.notes at hn
    rw [hparts, List.zipWith_map_right, List.zipWith_self, List.mem_flatten] at hn
    obtain ⟨notes, hnotes, hn⟩ := hn
    obtain ⟨p, -, rfl⟩ := List.mem_map.1 hnotes
    exact p.notes_right h (hf p) n hn
  rcases hl with rfl | rfl
  · exact hmap (PartPtr.part w) (fun _ => Or.inl rfl) rfl
  · exact hmap (fun p => (p.part w).cacheHash ext) (fun _ => Or.inr rfl) (List.map_map ..)

theorem rdfstoreSearch_cached {me me' : Store} {tp tp' : TriplePattern} {results : Iterator}
    (h : rdfstoreSearch ext me (some tp) = .found results me' tp') : PatternCached ext tp tp' := by
  have hleft := @searchComponents_cached ext ⟨me, tp, fun _ => 0, fun _ => 0, fun _ => 0, 0, 0⟩
  unfold rdfstoreSearch at h
  simp only at h
  split at h
  · cases h
  split at h
  · cases h
  split at h
  · cases h
  split at h
  · next s hs =>
    cases h
    rwa [hs] at hleft
  · next s hs =>
    cases h
    rwa [hs] at hleft

theorem Objects.Fresh.afterSearch (h : w.Fresh ext) (tp : PatternObject) {tp' : TriplePattern}
    (htp : PatternCached ext (tp.pattern w) tp') : (w.noteAll (tp.notes tp')).Fresh ext := by
  refine h.noteAll fun n hn => ?_
  simp only [PatternObject.notes, List.mem_append] at hn
  rcases hn with ((hn | hn) | hn) | hn
  · exact tp.subjects.notes_right h htp.subjects n hn
  · exact tp.predicates.notes_right h htp.predicates n hn
  · exact tp.objects.notes_right h htp.objects n hn
  · exact tp.contexts.notes_right h htp.contexts n hn

/-! ## Setters leave hash codes alone -/

theorem SetterOp.hashcode (w : Objects) (op : SetterOp) :
    (∀ p, ((op.apply w).node p).hashcode = (w.node p).hashcode) ∧
      ∀ s, ((op.apply w).statement s).hashcode = (w.statement s).hashcode := by
  have hresource : ∀ a r, r.hashcode = (w.resource a).hashcode → ∀ p,
      ((w.setResource a r).node p).hashcode = (w.node p).hashcode := by
    intro a r hr p
    rw [Objects.node_setResource]
    split
    · next hp => rw [hp]; exact hr
    · rfl
  have hliteral : ∀ a l, l.hashcode = (w.literal a).hashcode → ∀ p,
      ((w.setLiteral a l).node p).hashcode = (w.node p).hashcode := by
    intro a l hl p
    rw [Objects.node_setLiteral]
    split
    · next hp => rw [hp]; exact hl
    · rfl
  have hstatement : ∀ s o, o.hashcode = (w.statement s).hashcode → ∀ t,
      ((w.setStatement s o).statement t).hashcode = (w.statement t).hashcode := by
    intro s o ho t
    rw [Objects.statement_setStatement]
    split
    · next ht => rwa [ht]
    · rfl
  cases op with
  | resourceSetUri a identifier =>
    refine ⟨hresource a _ ?_, fun _ => rfl⟩
    unfold rdfstoreResourceSetUri
    split <;> rfl
  | literalSetString a string =>
    refine ⟨hliteral a _ ?_, fun _ => rfl⟩
    unfold rdfstoreLiteralSetString
    split <;> rfl
  | literalSetLang a lang =>
    refine ⟨hliteral a _ ?_, fun _ => rfl⟩
    unfold rdfstoreLiteralSetLang
    split <;> rfl
  | literalSetDatatype a dt =>
    refine ⟨hliteral a _ ?_, fun _ => rfl⟩
    unfold rdfstoreLiteralSetDatatype
    split <;> rfl
  | literalSetParsetype a parseType =>
    refine ⟨hliteral a _ ?_, fun _ => rfl⟩
    unfold rdfstoreLiteralSetParsetype rdfstoreLiteralSetDatatype
    split <;> rfl
  | statementSetSubject s r => exact ⟨fun p => by cases p <;> rfl, hstatement s _ rfl⟩
  | statementSetPredicate s r => exact ⟨fun p => by cases p <;> rfl, hstatement s _ rfl⟩
  | statementSetObject s o => exact ⟨fun p => by cases p <;> rfl, hstatement s _ rfl⟩
  | statementSetContext s c => exact ⟨fun p => by cases p <;> rfl, hstatement s _ rfl⟩
  | statementSetNode s node => exact ⟨fun p => by cases p <;> rfl, hstatement s _ rfl⟩

theorem Objects.Fresh.set (h : w.Fresh ext) {op : SetterOp} (hop : op.Meets w) : (op.apply w).Fresh ext := by
  obtain ⟨hnode, hstatement⟩ := op.hashcode w
  constructor
  · intro p
    unfold Node.Fresh
    rw [hnode p]
    rcases hop.1 p with h0 | hinput
    · exact Or.inl h0
    · have hhash : objectHash ext ((op.apply w).node p) = objectHash ext (w.node p) := by
        unfold objectHash rdfstoreDigestGetNodeDigest
        rw [hinput]
      rw [hhash]
      exact h.node p
  · intro s
    rw [hstatement s]
    rcases hop.2 s with h0 | hcontent
    · exact Or.inl h0
    · rw [statementHash_congr hcontent]
      exact h.statement s

/-! ## Runs -/

theorem HashOp.step_fresh {w w' : World} (h : w.objects.Fresh ext) {op : HashOp} (hop : op.Meets w)
    (hstep : op.step ext w = some w') : w'.objects.Fresh ext := by
  cases op with
  | set op =>
    cases hstep
    exact h.set hop
  | insert db now s given =>
    obtain ⟨⟨r, f⟩, hcall, rfl⟩ := Option.map_eq_some_iff.1 hstep
    exact h.afterCall (rdfstoreInsert_outcome hcall)
  | remove db now s given =>
    obtain ⟨⟨r, f⟩, hcall, rfl⟩ := Option.map_eq_some_iff.1 hstep
    exact h.afterCall (rdfstoreRemove_outcome hcall)
  | contains db s given =>
    cases hstep
    exact h.afterCall (rdfstoreContains_outcome _ _ _)
  | search db tp =>
    simp only [HashOp.step] at hstep
    split at hstep
    · next results me tp' hsearch =>
      cases hstep
      exact h.afterSearch tp (rdfstoreSearch_cached hsearch)
    · cases hstep
      exact h

theorem HashOp.run_fresh {ops : List HashOp} {w w' : World} (h : w.objects.Fresh ext)
    (hmeets : SettersMeet ext ops w) (hrun : HashOp.run ext ops w = some w') : w'.objects.Fresh ext := by
  induction ops generalizing w with
  | nil =>
    cases hrun
    exact h
  | cons op ops ih =>
    obtain ⟨w₁, hstep, hrest⟩ := Option.bind_eq_some_iff.1 hrun
    exact ih (HashOp.step_fresh h hmeets.1 hstep) (hmeets.2 w₁ hstep) hrest

theorem Objects.Fresh.nodeHash (h : w.Fresh ext) {p : NodePtr} {unique : Bool} (hp : w.NodeAgrees p unique) :
    rdfstoreDigestGetNodeHashCode ext (w.node p) unique =
      hashOf (rdfstoreDigestGetNodeDigest ext (w.node p) unique) := by
  unfold rdfstoreDigestGetNodeHashCode
  by_cases h0 : (w.node p).hashcode = 0
  · rw [if_neg (not_not.2 h0)]
  · rw [if_pos h0, (h.node p).resolve_left h0]
    unfold objectHash rdfstoreDigestGetNodeDigest
    rw [hp.resolve_left h0]

theorem Objects.Fresh.statementHash (h : w.Fresh ext) {s : Ptr} {context : Option Resource}
    (hs : w.StatementAgrees s context) :
    rdfstoreDigestGetStatementHashCode ext (w.view s) context = RdfStore.statementHash ext (w.view s) context := by
  unfold rdfstoreDigestGetStatementHashCode
  by_cases h0 : (w.view s).hashcode = 0
  · rw [if_neg (not_not.2 h0)]
    rfl
  · rw [if_pos h0, statementHash_congr (hs.resolve_left h0)]
    exact (h.statement s).resolve_left h0

/-- From objects without hash codes, along a run whose setters leave alone what is cached, every
hash code is the one computed from scratch if it is asked for as it was cached. -/
theorem hashCodes_fresh {ops : List HashOp} {w w' : World} (hnew : w.objects.Uncached)
    (hmeets : SettersMeet ext ops w) (hrun : HashOp.run ext ops w = some w') :
    (∀ p unique, w'.objects.NodeAgrees p unique →
      rdfstoreDigestGetNodeHashCode ext (w'.objects.node p) unique =
        hashOf (rdfstoreDigestGetNodeDigest ext (w'.objects.node p) unique)) ∧
      ∀ s context, w'.objects.StatementAgrees s context →
        rdfstoreDigestGetStatementHashCode ext (w'.objects.view s) context =
          hashOf (rdfstoreDigestGetStatementDigest ext (w'.objects.view s) context) := by
  have hfresh := HashOp.run_fresh hnew.fresh hmeets hrun
  exact ⟨fun p unique hp => hfresh.nodeHash hp, fun s context hs => hfresh.statementHash hs⟩

end

/-! ## Asked for in another way -/

theorem byteE_noNul : (0 : UInt8) ∉ [101] := by decide

theorem byteE_fits : ([101] : Bytes).length < 2 ^ 31 := by decide

def langE : CString := ⟨[101], byteE_noNul, byteE_fits⟩

def stringE : CBuf := ⟨[101], byteE_fits⟩

/-- A statement with a literal in the language `e`, an empty store, nothing cached. -/
def newWorld : World where
  objects :=
    { resource := fun a => if a = 0 then uri 97 else uri 98
      literal := fun _ => { plainLiteral 99 with lang := langE }
      statement := fun _ => ⟨some 0, some 1, some (.literal 0), none, none, 0, false⟩ }
  store := fun _ => rdfstoreConnect false false []

theorem newWorld_uncached : newWorld.objects.Uncached := by
  refine ⟨fun p => ?_, fun _ => rfl⟩
  cases p with
  | resource a => show (if a = 0 then uri 97 else uri 98).hashcode = 0; split <;> rfl
  | literal a => rfl

theorem newWorld_runs : (HashOp.run asciiExternals [.set (.literalSetString 0 (some stringE)), .insert 0 [] 0 none]
    newWorld).isSome := by decide

/-- A string that is set before the statement is inserted. -/
theorem hashCodes_fresh_newWorld : ∃ w', HashOp.run asciiExternals
      [.set (.literalSetString 0 (some stringE)), .insert 0 [] 0 none] newWorld = some w' ∧
    rdfstoreDigestGetNodeHashCode asciiExternals (w'.objects.node (.literal 0)) false =
      hashOf (rdfstoreDigestGetNodeDigest asciiExternals (w'.objects.node (.literal 0)) false) := by
  obtain ⟨w', hrun⟩ := Option.isSome_iff_exists.1 newWorld_runs
  have hmeets : SettersMeet asciiExternals [.set (.literalSetString 0 (some stringE)), .insert 0 [] 0 none]
      newWorld :=
    ⟨⟨fun p => Or.inl (newWorld_uncached.1 p), fun s => Or.inl (newWorld_uncached.2 s)⟩,
      fun _ _ => ⟨trivial, fun _ _ => trivial⟩⟩
  exact ⟨w', hrun, (hashCodes_fresh newWorld_uncached hmeets hrun).1 (.literal 0) false (Or.inr rfl)⟩

/-- After an insert the hash codes of the literal with `unique` and of the statement in a context are
those without; after a setter they are those of the old string. -/
theorem hashCodes_go_stale :
    (∃ w', HashOp.run asciiExternals [.insert 0 [] 0 none] newWorld = some w' ∧
      rdfstoreDigestGetNodeHashCode asciiExternals (w'.objects.node (.literal 0)) true ≠
        hashOf (rdfstoreDigestGetNodeDigest asciiExternals (w'.objects.node (.literal 0)) true) ∧
      rdfstoreDigestGetStatementHashCode asciiExternals (w'.objects.view 0) (some (uri 100)) ≠
        hashOf (rdfstoreDigestGetStatementDigest asciiExternals (w'.objects.view 0) (some (uri 100)))) ∧
    ∃ w', HashOp.run asciiExternals [.insert 0 [] 0 none, .set (.literalSetString 0 (some stringE))] newWorld =
        some w' ∧
      rdfstoreDigestGetNodeHashCode asciiExternals (w'.objects.node (.literal 0)) false ≠
        hashOf (rdfstoreDigestGetNodeDigest asciiExternals (w'.objects.node (.literal 0)) false) ∧
      rdfstoreDigestGetStatementHashCode asciiExternals (w'.objects.view 0) none ≠
        hashOf (rdfstoreDigestGetStatementDigest asciiExternals (w'.objects.view 0) none) := by
  constructor
  · have h : (HashOp.run asciiExternals [.insert 0 [] 0 none] newWorld).map (fun w' =>
        (rdfstoreDigestGetNodeHashCode asciiExternals (w'.objects.node (.literal 0)) true ==
          hashOf (rdfstoreDigestGetNodeDigest asciiExternals (w'.objects.node (.literal 0)) true)) ||
        rdfstoreDigestGetStatementHashCode asciiExternals (w'.objects.view 0) (some (uri 100)) ==
          hashOf (rdfstoreDigestGetStatementDigest asciiExternals (w'.objects.view 0) (some (uri 100)))) =
        some false := by decide +kernel
    obtain ⟨w', hrun, hdiffer⟩ := Option.map_eq_some_iff.1 h
    obtain ⟨hnode, hstatement⟩ := Bool.or_eq_false_iff.1 hdiffer
    exact ⟨w', hrun, beq_eq_false_iff_ne.1 hnode, beq_eq_false_iff_ne.1 hstatement⟩
  · have h : (HashOp.run asciiExternals [.insert 0 [] 0 none, .set (.literalSetString 0 (some stringE))]
        newWorld).map (fun w' =>
        (rdfstoreDigestGetNodeHashCode asciiExternals (w'.objects.node (.literal 0)) false ==
          hashOf (rdfstoreDigestGetNodeDigest asciiExternals (w'.objects.node (.literal 0)) false)) ||
        rdfstoreDigestGetStatementHashCode asciiExternals (w'.objects.view 0) none ==
          hashOf (rdfstoreDigestGetStatementDigest asciiExternals (w'.objects.view 0) none)) =
        some false := by decide +kernel
    obtain ⟨w', hrun, hdiffer⟩ := Option.map_eq_some_iff.1 h
    obtain ⟨hnode, hstatement⟩ := Bool.or_eq_false_iff.1 hdiffer
    exact ⟨w', hrun, beq_eq_false_iff_ne.1 hnode, beq_eq_false_iff_ne.1 hstatement⟩

end RdfStore
