/-
`ObjectTree.h`: objects that own each other. A `ParentNode` knows the nodes of
its children and destroys these when it is destroyed; a `ChildNode` knows its
parent, and unregisters itself there.

Every object has a `ParentNode`, which stays empty if its class has none. The
callback `m_childDestructor` destroys the object it is given, which is the
recursion here: it ends when there is no fuel left, and that is a failure, as
is what the language leaves undefined (to use what has been destroyed, to lock
a mutex twice, to change a set while it is iterated).
-/
import CxxHeaders.Runs
import Mathlib.Data.List.Sort

open Outcome

/-- Which object a node wraps, which node an object has, and whether this is
destroyed before the `ParentNode` of the object is. -/
structure Objects (ι ν : Type) where
  realChild : ν → ι
  nodeOf : ι → Option ν
  childNodeFirst : ι → Bool

/-- Distinct nodes wrap distinct objects, which they are members of. -/
def Objects.Distinct {ι ν : Type} (O : Objects ι ν) : Prop := ∀ x k, O.nodeOf x = some k ↔ O.realChild k = x

structure ChildNode (ι : Type) where
  parent : Option ι
  deriving DecidableEq

structure ParentNode (ν : Type) where
  locked : Bool
  childNodes : List ν
  deriving DecidableEq

/-- The nodes that exist; and the objects that have been created and destroyed
so far, in order. -/
structure ObjectTree (ι ν : Type) where
  childNode : ν → Option (ChildNode ι)
  parentNode : ι → Option (ParentNode ν)
  created : List ι
  destroyed : List ι

namespace ObjectTree

variable {ι ν : Type}

def start : ObjectTree ι ν := ⟨fun _ => none, fun _ => none, [], []⟩

variable [DecidableEq ι] [LinearOrder ν] (O : Objects ι ν) (s : ObjectTree ι ν)

def setChildNode (k : ν) (n : Option (ChildNode ι)) : ObjectTree ι ν :=
  { s with childNode := Function.update s.childNode k n }

def setParentNode (x : ι) (n : Option (ParentNode ν)) : ObjectTree ι ν :=
  { s with parentNode := Function.update s.parentNode x n }

/-- The methods of a `ParentNode` have it locked. -/
def lock (p : ι) : Outcome (ParentNode ν) :=
  match s.parentNode p with
  | none => .failed
  | some n => do
    asserting ¬n.locked
    return { n with locked := true }

def unlock (p : ι) (n : ParentNode ν) : ObjectTree ι ν := s.setParentNode p (some { n with locked := false })

def childrenNoLock (n : ParentNode ν) : List ι := n.childNodes.map O.realChild

/-! ## Children -/

def registerChild (p : ι) (childNode : ν) : Outcome (ObjectTree ι ν) := do
  let n ← s.lock p
  asserting (childNode ∉ n.childNodes)
  asserting (O.realChild childNode ∉ childrenNoLock O n)
  return s.unlock p { n with childNodes := n.childNodes.orderedInsert (· ≤ ·) childNode }

def unregisterChild (p : ι) (childNode : ν) : Outcome (ObjectTree ι ν) := do
  let n ← s.lock p
  asserting (childNode ∈ n.childNodes)
  let n := { n with childNodes := n.childNodes.erase childNode }
  asserting (O.realChild childNode ∉ childrenNoLock O n)
  return s.unlock p n

/-- `ChildNodeBase::unregisterChild` -/
def unregister (k : ν) : Outcome (ObjectTree ι ν) :=
  match s.childNode k with
  | none => .failed
  | some n =>
    match n.parent with
    | none => .next s
    | some p => do
      let s ← s.unregisterChild O p k
      return s.setChildNode k (some { n with parent := none })

def freeByParent (k : ν) : Outcome (ObjectTree ι ν × ι) :=
  match s.childNode k with
  | none => .failed
  | some n => .next (s.setChildNode k (some { n with parent := none }), O.realChild k)

/-- `ChildNode(parent, realChild)`, for an object that has such a member. -/
def newChildNode (x : ι) (parent : Option ι) : Outcome (ObjectTree ι ν) :=
  match O.nodeOf x with
  | none => .next s
  | some k =>
    let s := s.setChildNode k (some ⟨parent⟩)
    match parent with
    | none => .next s
    | some p => s.registerChild O p k

/-- `~ChildNode()` -/
def destroyChildNode (x : ι) : Outcome (ObjectTree ι ν) :=
  match O.nodeOf x with
  | none => .next s
  | some k => do
    let s ← s.unregister O k
    return s.setChildNode k none

/-! ## Parents -/

/-- The loop of `~ParentNode()`, which iterates over `childNodes`. -/
def freeChildren (childDestructor : ObjectTree ι ν → ι → Outcome (ObjectTree ι ν)) (x : ι)
    (childNodes : List ν) : List ν → ObjectTree ι ν → Outcome (ObjectTree ι ν)
  | [], s => .next s
  | k :: ks, s => do
    let (s, child) ← s.freeByParent O k
    let s ← childDestructor s child
    asserting ((s.parentNode x).map ParentNode.childNodes = some childNodes)
    freeChildren childDestructor x childNodes ks s

/-- `~ParentNode()` -/
def destroyParentNode (childDestructor : ObjectTree ι ν → ι → Outcome (ObjectTree ι ν)) (x : ι) :
    Outcome (ObjectTree ι ν) := do
  let n ← s.lock x
  let s ← freeChildren O childDestructor x n.childNodes n.childNodes (s.setParentNode x (some n))
  return s.setParentNode x none

/-- `delete x`: the members are destroyed in the reverse order of their
declarations. -/
def destroyObject : Nat → ObjectTree ι ν → ι → Outcome (ObjectTree ι ν)
  | 0, _, _ => .failed
  | fuel + 1, s, x => do
    let s ←
      if O.childNodeFirst x then
        s.destroyChildNode O x >>= fun s => s.destroyParentNode O (destroyObject fuel) x
      else
        s.destroyParentNode O (destroyObject fuel) x >>= fun s => s.destroyChildNode O x
    return { s with destroyed := s.destroyed ++ [x] }

/-- `new`, with the members in the order of their declarations. -/
def createObject (x : ι) (parent : Option ι) : Outcome (ObjectTree ι ν) := do
  let s ←
    if O.childNodeFirst x then
      (s.setParentNode x (some ⟨false, []⟩)).newChildNode O x parent
    else
      s.newChildNode O x parent >>= fun s => return s.setParentNode x (some ⟨false, []⟩)
  return { s with created := s.created ++ [x] }

/-! ## Runs -/

inductive Act (ι : Type) where
  | create (x : ι) (parent : Option ι)
  | destroy (x : ι)

/-- The parent to be exists, and the object to be has a member to refer to it. -/
def MayHave (x : ι) : Option ι → Prop
  | none => True
  | some p => (s.parentNode p).isSome ∧ (O.nodeOf x).isSome

instance (x : ι) : (parent : Option ι) → Decidable (MayHave O s x parent)
  | none => inferInstanceAs (Decidable True)
  | some _ => inferInstanceAs (Decidable (_ ∧ _))

def next (s : ObjectTree ι ν) : Act ι → Outcome (ObjectTree ι ν)
  | .create x parent => do
    requiring (s.parentNode x).isNone
    requiring (MayHave O s x parent)
    s.createObject O x parent
  | .destroy x => do
    requiring (s.parentNode x).isSome
    destroyObject O (s.created.length + 1) s x

end ObjectTree
