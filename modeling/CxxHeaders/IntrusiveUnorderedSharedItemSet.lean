/-
`IntrusiveUnorderedSharedItemSet.h`: a set of items each of which owns itself
while it is in the set.

Whether two items compare equal is a matter of their keys, and which item it
is one of identity. The container is the list of the items linked in it, and
its operations are the documented ones of `boost::intrusive::unordered_set`.
The users' shared pointers are in places `η`, one each.
-/
import CxxHeaders.Runs
import Mathlib.Logic.Function.Basic

open Outcome

/-- The container; of each item `m_selfPtr` and the use count; and what the
pointers of the users point to. -/
structure IntrusiveUnorderedSharedItemSet (η ι : Type) where
  container : List ι
  selfPtr : ι → Option ι
  uses : ι → Nat
  ptr : η → Option ι
  destroyed : Bool

namespace IntrusiveUnorderedSharedItemSet

variable {η ι κ : Type}

def start : IntrusiveUnorderedSharedItemSet η ι := ⟨[], fun _ => none, fun _ => 0, fun _ => none, false⟩

variable [DecidableEq ι] [DecidableEq κ] (key : ι → κ)

/-! ## The container -/

/-- The linked item that is equal to `x`. -/
def findEqual (container : List ι) (x : ι) : Option ι := container.find? fun y => key y = key x

/-- `m_container.insert(item)`: where it is then, or the item that is equal to
it; and whether it has been inserted. -/
def insertUnique (container : List ι) (item : ι) : List ι × ι × Bool :=
  match findEqual key container item with
  | some y => (container, y, false)
  | none => (item :: container, item, true)

/-- `m_container.erase(ref)` -/
def eraseEqual (container : List ι) (x : ι) : List ι :=
  match findEqual key container x with
  | some y => container.erase y
  | none => container

/-! ## Shared pointers -/

variable (s : IntrusiveUnorderedSharedItemSet η ι)

/-- `~shared_ptr` -/
def drop : Option ι → IntrusiveUnorderedSharedItemSet η ι
  | none => s
  | some x => { s with uses := Function.update s.uses x (s.uses x - 1) }

def takePtr (x : ι) : IntrusiveUnorderedSharedItemSet η ι × Option ι :=
  ({ s with selfPtr := Function.update s.selfPtr x none }, s.selfPtr x)

/-- What the item has owned before goes. -/
def putPtr (x y : ι) : IntrusiveUnorderedSharedItemSet η ι :=
  { s with selfPtr := Function.update s.selfPtr x (some y) }.drop (s.selfPtr x)

def disposer (x : ι) : IntrusiveUnorderedSharedItemSet η ι := (s.takePtr x).1.drop (s.takePtr x).2

/-! ## The methods -/

/-- `v` is not null, as `*v` demands. -/
def insert (v : ι) : IntrusiveUnorderedSharedItemSet η ι × ι × Bool :=
  let (container, r) := insertUnique key s.container v
  ({ s with container }.putPtr v v, r)

/-- `erase(it)`, with `*it`. -/
def eraseIt (x : ι) : IntrusiveUnorderedSharedItemSet η ι :=
  { s with container := s.container.erase x }.disposer x

/-- `erase(cRef)` -/
def eraseRef (x : ι) : IntrusiveUnorderedSharedItemSet η ι × Nat :=
  match findEqual key s.container x with
  | some y => (s.eraseIt y, 1)
  | none => (s, 0)

/-- `take(it)`, with `*it`. -/
def takeIt (x : ι) : IntrusiveUnorderedSharedItemSet η ι × Option ι :=
  let (s, r) := s.takePtr x
  ({ s with container := s.container.erase x }, r)

/-- `take(ref)` -/
def takeRef (x : ι) : IntrusiveUnorderedSharedItemSet η ι × Option ι :=
  let (s, r) := s.takePtr x
  ({ s with container := eraseEqual key s.container x }, r)

/-- The destructor. -/
def clearAndDispose : IntrusiveUnorderedSharedItemSet η ι :=
  s.container.foldl disposer { s with container := [], destroyed := true }

/-! ## Runs -/

inductive Act (η ι : Type) where
  /-- `make_shared`, of an item that does not exist. -/
  | make (h : η) (x : ι)
  | copy (h k : η)
  | drop (h : η)
  /-- `insert(std::move(h))` -/
  | insert (h : η)
  | eraseIt (x : ι)
  | eraseRef (x : ι)
  /-- What is returned goes into the place `h`, which is empty. -/
  | takeIt (x : ι) (h : η)
  | takeRef (x : ι) (h : η)
  | retrieveSharedPtr (x : ι) (h : η)
  | destroy

variable [DecidableEq η]

def next (s : IntrusiveUnorderedSharedItemSet η ι) : Act η ι → Outcome (IntrusiveUnorderedSharedItemSet η ι)
  | .make h x => do
    requiring (s.uses x = 0)
    requiring (s.ptr h = none)
    return { s with
      selfPtr := Function.update s.selfPtr x none
      uses := Function.update s.uses x (s.uses x + 1)
      ptr := Function.update s.ptr h (some x) }
  | .copy h k =>
    match s.ptr h with
    | none => .blocked
    | some x => do
      requiring (s.ptr k = none)
      return { s with
        uses := Function.update s.uses x (s.uses x + 1)
        ptr := Function.update s.ptr k (some x) }
  | .drop h => return { s with ptr := Function.update s.ptr h none }.drop (s.ptr h)
  | .insert h =>
    match s.ptr h with
    | none => .blocked
    | some v => do
      requiring ¬s.destroyed
      return ({ s with ptr := Function.update s.ptr h none }.insert key v).1
  | .eraseIt x => do
    requiring (x ∈ s.container)
    return s.eraseIt x
  | .eraseRef x => do
    requiring ¬s.destroyed
    requiring (s.uses x ≠ 0)
    return (s.eraseRef key x).1
  | .takeIt x h => do
    requiring (x ∈ s.container)
    requiring (s.ptr h = none)
    let (s, r) := s.takeIt x
    return { s with ptr := Function.update s.ptr h r }
  | .takeRef x h => do
    requiring ¬s.destroyed
    requiring (s.uses x ≠ 0)
    requiring (s.ptr h = none)
    let (s, r) := s.takeRef key x
    return { s with ptr := Function.update s.ptr h r }
  | .retrieveSharedPtr x h =>
    match s.selfPtr x with
    | none => return s
    | some y => do
      requiring (s.ptr h = none)
      return { s with
        uses := Function.update s.uses y (s.uses y + 1)
        ptr := Function.update s.ptr h (some y) }
  | .destroy => do
    requiring ¬s.destroyed
    return s.clearAndDispose

end IntrusiveUnorderedSharedItemSet
