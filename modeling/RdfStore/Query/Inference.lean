import RdfStore.Types
import Mathlib.Logic.Relation

/-!
# RDFS and OWL inferencing (`sameAs` and `_cp` of `DBD/RDFStore.pm`)

A resource is searched together with those that are the same as it, or below it.
Hashes have the text of a resource as their key; what is put in later is found
first.  The recursion is `fuel` calls deep at most, and `none` is one that goes
deeper.
-/

namespace RdfStore.Inference

open ByteMem

/-- A resource: `toString`, and whether it is a bNode. -/
structure Name where
  text : Bytes
  bnode : Bool
  deriving DecidableEq

/-- The statements between resources, as subject and object, in the order in which they are found. -/
structure Ontology where
  sameAs : List (Name × Name)
  subClassOf : List (Name × Name)
  subPropertyOf : List (Name × Name)

/-- `$what` -/
inductive What
  | aClass
  | aProperty
  | aResource
  deriving DecidableEq

/-! ## Hashes of resources -/

/-- `exists $cc->{ $ss->toString }` -/
def hasKey (l : List Name) (x : Name) : Bool := l.any fun y => y.text = x.text

/-- `$cc->{ $ss->toString } = $ss` -/
def put (l : List Name) (x : Name) : List Name :=
  if hasKey l x then l.map fun y => if y.text = x.text then x else y else l ++ [x]

/-! ## What is found in the model -/

/-- `each_subject` of the statements with one of the objects. -/
def subjects (statements : List (Name × Name)) (objects : List Name) : List Name :=
  (statements.filter fun e => e.2 ∈ objects).map (·.1)

/-- `each_object` of the statements with a subject. -/
def objects (statements : List (Name × Name)) (subject : Name) : List Name :=
  (statements.filter fun e => e.1 = subject).map (·.2)

/-- The statements with `rdfs:subClassOf`, or with `rdfs:subPropertyOf`. -/
def Ontology.searched (o : Ontology) (what : What) : List (Name × Name) :=
  if what = .aClass then o.subClassOf else o.subPropertyOf

/-! ## The walk -/

/-- `$cc`, which is the closure of the resource the walk began with, and `cp_sameas`. -/
structure Walk where
  cc : List Name
  sameas : List (Bytes × List Name)

section

variable (o : Ontology) (closure : List (Bytes × List Name)) (what : What)

/-- A resource that was found for `cp`; `deeper` is the walk from it.  With `note` it is kept in `cp_sameas`. -/
def visit (deeper : Name → Walk → Option Walk) (note : Bool) (cp ss : Name) (w : Walk) : Option Walk :=
  if hasKey w.cc ss = true ∨ ss = cp then some w
  else
    (match closure.lookup ss.text with
      | some known => some { w with cc := known.foldl put w.cc }
      | none => deeper ss w).map fun w : Walk =>
        ⟨put w.cc ss,
          if note then (cp.text, put ((w.sameas.lookup cp.text).getD []) ss) :: w.sameas else w.sameas⟩

def visitAll (deeper : Name → Walk → Option Walk) (note : Bool) (cp : Name) : List Name → Walk → Option Walk
  | [], w => some w
  | ss :: rest, w => (visit closure deeper note cp ss w).bind (visitAll deeper note cp rest)

/-- `_cp` -/
def walk : ℕ → Name → Walk → Option Walk
  | 0, _, _ => none
  | n + 1, cp, w =>
    (if (w.sameas.lookup cp.text).isSome then some w
      else
        (visitAll closure (walk n) true cp (subjects o.sameAs [cp]) ⟨w.cc, (cp.text, []) :: w.sameas⟩).bind
          (visitAll closure (walk n) true cp (objects o.sameAs cp))).bind fun w =>
      if what = .aResource then some w
      else visitAll closure (walk n) false cp (subjects (o.searched what) (cp :: (w.sameas.lookup cp.text).getD [])) w

end

/-! ## The statement handle -/

/-- `cp_closure` and `cp_sameas` of `$sth`. -/
structure Closures where
  closure : List (Bytes × List Name)
  sameas : List (Bytes × List Name)

def Closures.start : Closures := ⟨[], []⟩

/-- `sameAs`; the closure is copied for the resources that were kept for `cp`. -/
def sameAs (o : Ontology) (fuel : ℕ) (cp : Name) (what : What) (s : Closures) : Option (List Name × Closures) :=
  match s.closure.lookup cp.text with
  | some known => some (known, s)
  | none =>
    (walk o s.closure what fuel cp ⟨[cp], s.sameas⟩).map fun w =>
      (w.cc, ⟨((w.sameas.lookup cp.text).getD []).foldl (fun closure sa => (sa.text, w.cc.foldl put [sa]) :: closure)
        ((cp.text, w.cc) :: s.closure), w.sameas⟩)

/-! ## What it is for -/

/-- The same as a resource, by a statement in either direction. -/
def Near (o : Ontology) (x y : Name) : Prop := (y, x) ∈ o.sameAs ∨ (x, y) ∈ o.sameAs

/-- Below a class or a property. -/
def Below (o : Ontology) (what : What) (x y : Name) : Prop := what ≠ .aResource ∧ (y, x) ∈ o.searched what

def Closed (o : Ontology) (what : What) (s : Set Name) : Prop :=
  ∀ x ∈ s, ∀ y, Near o x y ∨ Below o what x y → y ∈ s

/-- The least closed set with the resource. -/
def leastClosed (o : Ontology) (what : What) (x : Name) : Set Name := {y | ∀ s, x ∈ s → Closed o what s → y ∈ s}

/-- Reached by statements. -/
def Reaches (o : Ontology) (what : What) : Name → Name → Prop :=
  Relation.ReflTransGen fun x y => Near o x y ∨ Below o what x y

theorem mem_leastClosed_iff (o : Ontology) (what : What) (x y : Name) :
    y ∈ leastClosed o what x ↔ Reaches o what x y := by
  constructor
  · intro h
    exact h {z | Reaches o what x z} .refl fun z hz u hu => hz.tail hu
  · intro h s hx hs
    induction h with
    | refl => exact hx
    | tail _ hlink ih => exact hs _ ih _ hlink

theorem near_symm {o : Ontology} {x y : Name} (h : Near o x y) : Near o y x := Or.symm h

/-- The closure of what is the same is the same. -/
theorem reaches_near {o : Ontology} {what : What} {x y : Name} (h : Near o x y) (z : Name) :
    Reaches o what y z ↔ Reaches o what x z :=
  ⟨fun hz => hz.head (Or.inl h), fun hz => hz.head (Or.inl (near_symm h))⟩

end RdfStore.Inference
