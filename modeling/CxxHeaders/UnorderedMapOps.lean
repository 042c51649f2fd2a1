/-
One `UnorderedMap` in use: every operation, with what it answers.

An iterator that an operation is given is a position in the container. One
that it returns is answered by the entry it points to, if it is not `end()`.
`insert` of a range is one `insert` after another.
-/
import CxxHeaders.UnorderedMap

open Outcome

namespace UnorderedMap

variable {κ υ η : Type} [DecidableEq η]

/-- What `at` throws. -/
def noSuchElement : String := "No such element in UnorderedMap!"

def insert (s : Elements κ υ) (m : UnorderedMap κ η) (obj : κ × υ) (order : List (η × Nat)) :
    Outcome (Elements κ υ × UnorderedMap κ η × Nat × Bool) :=
  emplace s m obj.1 obj.2 order

/-- The number that `erase` of a key returns. -/
def erasedKeys (s : Elements κ υ) (m : UnorderedMap κ η) (key : κ) : Nat :=
  match findSwapped s m key with
  | some _ => 1
  | none => 0

/-- `at`, which throws. -/
def atKey (s : Elements κ υ) (m : UnorderedMap κ η) (key : κ) : Except String Nat :=
  match find s m key with
  | some a => .ok a
  | none => .error noSuchElement

def contains (s : Elements κ υ) (m : UnorderedMap κ η) (key : κ) : Bool := (find s m key).isSome

def count (s : Elements κ υ) (m : UnorderedMap κ η) (key : κ) : Nat := (contains s m key).toNat

omit [DecidableEq η] in
/-- The position of the node of an element; `none` is `end()`. -/
def position (m : UnorderedMap κ η) : Option Nat → Nat
  | some a => m.container.findIdx fun e => e.2 = a
  | none => m.container.length

/-- `equal_range`: "we rely on the fact that this is not a multimap". -/
def equalRangeKey (s : Elements κ υ) (m : UnorderedMap κ η) (key : κ) : Nat × Nat :=
  let first := m.position (find s m key)
  let second := m.position none
  if first ≠ second then (first, first + 1) else (first, second)

omit [DecidableEq η] in
/-- The entries of the nodes from one position up to another. -/
def between (s : Elements κ υ) (m : UnorderedMap κ η) (first last : Nat) : List (κ × υ) :=
  ((m.container.drop first).take (last - first)).map fun e => s.elem e.2

/-- Iterators are given as positions. -/
inductive Op (κ υ η : Type) where
  | emplace (key : κ) (value : υ) (order : List (η × Nat))
  | insert (obj : κ × υ) (order : List (η × Nat))
  | insertOrAssign (key : κ) (value : υ) (order : List (η × Nat))
  | eraseKey (key : κ)
  | eraseIterator (i : Nat)
  | eraseRange (first last : Nat)
  /-- `map[key]`, which may insert. -/
  | index (key : κ) (order : List (η × Nat))
  /-- `map[key] = value`. -/
  | indexAssign (key : κ) (value : υ) (order : List (η × Nat))
  /-- `map.at(key)`. -/
  | atKey (key : κ)
  /-- `map.at(key) = value`. -/
  | atAssign (key : κ) (value : υ)
  | find (key : κ)
  | count (key : κ)
  | contains (key : κ)
  | equalRange (key : κ)
  | clear

inductive Answer (κ υ : Type) where
  | done
  /-- The entry, and whether it is new. -/
  | inserted (entry : κ × υ) (new : Bool)
  /-- How many were erased. -/
  | erased (n : Nat)
  | reference (value : υ)
  | checked (value : Except String υ)
  | found (entry : Option (κ × υ))
  | count (n : Nat)
  | contains (b : Bool)
  | range (entries : List (κ × υ))

structure Use (κ υ η : Type) where
  elements : Elements κ υ
  map : UnorderedMap κ η
  /-- The answers so far. -/
  answers : List (Answer κ υ)

/-- An empty map. -/
def Use.init (s : Elements κ υ) (hasher : κ → η) (pred : κ → κ → Bool) : Use κ υ η :=
  ⟨s, ⟨hasher, pred, []⟩, []⟩

/-- What the map holds, in iteration order. -/
def Use.contents (u : Use κ υ η) : List (κ × υ) := u.map.container.map fun e => u.elements.elem e.2

def Use.answer (u : Use κ υ η) (r : Answer κ υ) : Outcome (Use κ υ η) :=
  .next { u with answers := u.answers ++ [r] }

/-- The container loses some of its nodes. -/
def Use.keep (u : Use κ υ η) (container : List (η × Nat)) : Use κ υ η :=
  { u with map := { u.map with container } }

variable [Inhabited υ]

def step (u : Use κ υ η) : Op κ υ η → Outcome (Use κ υ η)
  | .emplace key value order => do
    let (s, m, a, new) ← emplace u.elements u.map key value order
    { u with elements := s, map := m }.answer (.inserted (s.elem a) new)
  | .insert obj order => do
    let (s, m, a, new) ← insert u.elements u.map obj order
    { u with elements := s, map := m }.answer (.inserted (s.elem a) new)
  | .insertOrAssign key value order => do
    let (s, m, a, new) ← insertOrAssign u.elements u.map key value order
    { u with elements := s, map := m }.answer (.inserted (s.elem a) new)
  | .eraseKey key =>
    { u with map := eraseKey u.elements u.map key }.answer (.erased (erasedKeys u.elements u.map key))
  | .eraseIterator i => do
    requiring (i < u.map.container.length)
    (u.keep (u.map.container.eraseIdx i)).answer .done
  | .eraseRange first last => do
    requiring (first ≤ last ∧ last ≤ u.map.container.length)
    (u.keep (u.map.container.take first ++ u.map.container.drop last)).answer .done
  | .index key order => do
    let (s, m, a) ← index u.elements u.map key order
    { u with elements := s, map := m }.answer (.reference (s.elem a).2)
  | .indexAssign key value order => do
    let (s, m, a) ← index u.elements u.map key order
    { u with elements := s.assign a value, map := m }.answer .done
  | .atKey key => u.answer (.checked ((atKey u.elements u.map key).map fun a => (u.elements.elem a).2))
  | .atAssign key value =>
    match atKey u.elements u.map key with
    | .error what => u.answer (.checked (.error what))
    | .ok a => { u with elements := u.elements.assign a value }.answer (.checked (.ok value))
  | .find key => u.answer (.found ((find u.elements u.map key).map u.elements.elem))
  | .count key => u.answer (.count (count u.elements u.map key))
  | .contains key => u.answer (.contains (contains u.elements u.map key))
  | .equalRange key =>
    let r := equalRangeKey u.elements u.map key
    u.answer (.range (between u.elements u.map r.1 r.2))
  | .clear => (u.keep []).answer .done

end UnorderedMap
