/-
`UnorderedMap.h`: a hash map whose elements are held through shared pointers.

The inner `std::unordered_multimap` from hashes to pointers is the list of its
nodes in iteration order. Where an insertion or a copy puts them is up to the
library, so that order is a parameter (`order`), and any arrangement of the
right nodes will do. `equal_range` walks the nodes of one hash in that order.
The elements live in a memory of their own: a pointer is an address there.

Any number of maps are used one operation after another (`next`). A container
that was moved from is empty. Allocators, bucket counts and hints are left
out, as is `at` where it throws: that changes nothing.
-/
import CxxHeaders.Runs
import Mathlib.Logic.Function.Basic

open Outcome

/-- The elements allocated so far, `made` of them. -/
structure Elements (κ υ : Type) where
  elem : Nat → κ × υ
  made : Nat

namespace Elements

variable {κ υ : Type}

/-- `std::allocate_shared<value_type>`, of the next address. -/
def allocate (s : Elements κ υ) (k : κ) (v : υ) : Elements κ υ :=
  ⟨Function.update s.elem s.made (k, v), s.made + 1⟩

/-- Assignment to the value of an element. -/
def assign (s : Elements κ υ) (a : Nat) (v : υ) : Elements κ υ :=
  { s with elem := Function.update s.elem a ((s.elem a).1, v) }

end Elements

structure UnorderedMap (κ η : Type) where
  hasher : κ → η
  pred : κ → κ → Bool
  container : List (η × Nat)

namespace UnorderedMap

variable {κ υ η : Type} [DecidableEq η]

def equalRange (container : List (η × Nat)) (hash : η) : List (η × Nat) :=
  container.filter fun e => e.1 = hash

/-- The loop of every lookup: the first element of the hash that satisfies
`p`. -/
def findIn (s : Elements κ υ) (container : List (η × Nat)) (hash : η) (p : κ → Bool) : Option Nat :=
  ((equalRange container hash).find? fun e => p (s.elem e.2).1).map Prod.snd

def find (s : Elements κ υ) (m : UnorderedMap κ η) (key : κ) : Option Nat :=
  findIn s m.container (m.hasher key) fun stored => m.pred stored key

/-- How `emplace`, `insert_or_assign` and `erase` look a key up: the arguments
of the predicate are the other way round. -/
def findSwapped (s : Elements κ υ) (m : UnorderedMap κ η) (key : κ) : Option Nat :=
  findIn s m.container (m.hasher key) fun stored => m.pred key stored

/-- The container's own `emplace`. -/
def link (m : UnorderedMap κ η) (key : κ) (a : Nat) (order : List (η × Nat)) : Outcome (UnorderedMap κ η) := do
  requiring (order.Perm ((m.hasher key, a) :: m.container))
  return { m with container := order }

/-- `emplace`, and with it `insert`: the address of the element, and whether
it is new. -/
def emplace (s : Elements κ υ) (m : UnorderedMap κ η) (key : κ) (value : υ) (order : List (η × Nat)) :
    Outcome (Elements κ υ × UnorderedMap κ η × Nat × Bool) :=
  let a := s.made
  let s := s.allocate key value
  match findSwapped s m key with
  | some b => return (s, m, b, false)
  | none => do return (s, ← m.link key a order, a, true)

def insertOrAssign (s : Elements κ υ) (m : UnorderedMap κ η) (key : κ) (value : υ)
    (order : List (η × Nat)) : Outcome (Elements κ υ × UnorderedMap κ η × Nat × Bool) :=
  match findSwapped s m key with
  | some b => return (s.assign b value, m, b, false)
  | none => do
    let a := s.made
    return (s.allocate key value, ← m.link key a order, a, true)

/-- `operator[]`: the address of the element it refers to. -/
def index [Inhabited υ] (s : Elements κ υ) (m : UnorderedMap κ η) (key : κ) (order : List (η × Nat)) :
    Outcome (Elements κ υ × UnorderedMap κ η × Nat) :=
  match find s m key with
  | some b => return (s, m, b)
  | none => do
    let (s, m, a, _) ← emplace s m key default order
    return (s, m, a)

def eraseKey (s : Elements κ υ) (m : UnorderedMap κ η) (key : κ) : UnorderedMap κ η :=
  { m with container := m.container.eraseP fun e => e.1 = m.hasher key ∧ m.pred key (s.elem e.2).1 }

/-! ## Any number of maps -/

structure Config (κ υ η : Type) where
  elements : Elements κ υ
  map : Nat → Option (UnorderedMap κ η)

def Config.set (c : Config κ υ η) (m : Nat) (x : Option (UnorderedMap κ η)) : Config κ υ η :=
  { c with map := Function.update c.map m x }

/-- What a map holds, in iteration order. -/
def Config.contents (c : Config κ υ η) (m : Nat) : Option (List (κ × υ)) :=
  (c.map m).map fun x => x.container.map fun e => c.elements.elem e.2

/-- Iterators are given as positions. -/
inductive Act (κ υ η : Type) where
  | construct (m : Nat) (hasher : κ → η) (pred : κ → κ → Bool)
  | copyConstruct (m copy : Nat) (order : List (η × Nat))
  | copyAssign (m rhs : Nat) (order : List (η × Nat))
  | moveConstruct (m move : Nat)
  | moveAssign (m rhs : Nat)
  | swap (m other : Nat)
  | emplace (m : Nat) (key : κ) (value : υ) (order : List (η × Nat))
  | insertOrAssign (m : Nat) (key : κ) (value : υ) (order : List (η × Nat))
  /-- `map[key]`, which may insert. -/
  | index (m : Nat) (key : κ) (order : List (η × Nat))
  /-- `map[key] = value`. -/
  | indexAssign (m : Nat) (key : κ) (value : υ) (order : List (η × Nat))
  /-- `map.at(key) = value`. -/
  | atAssign (m : Nat) (key : κ) (value : υ)
  /-- `it->second = value`. -/
  | iteratorAssign (m i : Nat) (value : υ)
  | eraseKey (m : Nat) (key : κ)
  | eraseIterator (m i : Nat)
  | eraseRange (m first last : Nat)
  | clear (m : Nat)
  | destroy (m : Nat)

variable [Inhabited υ]

def next (c : Config κ υ η) : Act κ υ η → Outcome (Config κ υ η)
  | .construct m hasher pred => do
    requiring (c.map m).isNone
    return c.set m (some ⟨hasher, pred, []⟩)
  | .copyConstruct m copy order =>
    match c.map copy with
    | none => .blocked
    | some y => do
      requiring ((c.map m).isNone ∧ order.Perm y.container)
      return c.set m (some { y with container := order })
  | .copyAssign m rhs order =>
    match c.map m, c.map rhs with
    | some _, some y =>
      if m ≠ rhs then do
        requiring (order.Perm y.container)
        return c.set m (some { y with container := order })
      else return c
    | _, _ => .blocked
  | .moveConstruct m move =>
    match c.map move with
    | none => .blocked
    | some y => do
      requiring (c.map m).isNone
      return (c.set m (some y)).set move (some { y with container := [] })
  | .moveAssign m rhs =>
    match c.map m, c.map rhs with
    | some _, some y =>
      if m ≠ rhs then return (c.set m (some y)).set rhs (some { y with container := [] })
      else return c
    | _, _ => .blocked
  | .swap m other =>
    match c.map m, c.map other with
    | some x, some y => return (c.set m (some y)).set other (some x)
    | _, _ => .blocked
  | .emplace m key value order =>
    match c.map m with
    | none => .blocked
    | some x => do
      let (s, x, _, _) ← emplace c.elements x key value order
      return { c with elements := s }.set m (some x)
  | .insertOrAssign m key value order =>
    match c.map m with
    | none => .blocked
    | some x => do
      let (s, x, _, _) ← insertOrAssign c.elements x key value order
      return { c with elements := s }.set m (some x)
  | .index m key order =>
    match c.map m with
    | none => .blocked
    | some x => do
      let (s, x, _) ← index c.elements x key order
      return { c with elements := s }.set m (some x)
  | .indexAssign m key value order =>
    match c.map m with
    | none => .blocked
    | some x => do
      let (s, x, a) ← index c.elements x key order
      return { c with elements := s.assign a value }.set m (some x)
  | .atAssign m key value =>
    match c.map m with
    | none => .blocked
    | some x =>
      match find c.elements x key with
      | none => return c
      | some a => return { c with elements := c.elements.assign a value }
  | .iteratorAssign m i value =>
    match c.map m with
    | none => .blocked
    | some x =>
      match x.container[i]? with
      | none => .blocked
      | some e => return { c with elements := c.elements.assign e.2 value }
  | .eraseKey m key =>
    match c.map m with
    | none => .blocked
    | some x => return c.set m (some (eraseKey c.elements x key))
  | .eraseIterator m i =>
    match c.map m with
    | none => .blocked
    | some x => do
      requiring (i < x.container.length)
      return c.set m (some { x with container := x.container.eraseIdx i })
  | .eraseRange m first last =>
    match c.map m with
    | none => .blocked
    | some x => do
      requiring (first ≤ last ∧ last ≤ x.container.length)
      return c.set m (some { x with container := x.container.take first ++ x.container.drop last })
  | .clear m =>
    match c.map m with
    | none => .blocked
    | some x => return c.set m (some { x with container := [] })
  | .destroy m =>
    match c.map m with
    | none => .blocked
    | some _ => return c.set m none

/-- No maps, and nothing allocated. -/
def init (garbage : κ × υ) : Config κ υ η := ⟨⟨fun _ => garbage, 0⟩, fun _ => none⟩

end UnorderedMap
