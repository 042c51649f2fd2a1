/-
`UnorderedMap.h`: lookups and `erase` by keys of another type, and all that
changes the maps of a program (`Call`).

`TransparentFind` and `TransparentErase` have two variants each: where the hasher
takes such keys they search the elements of one hash, else all elements. An
iterator is the node it points to; `none` is `end()`.
-/
import CxxHeaders.UnorderedMap

open Outcome

namespace UnorderedMap

variable {κ υ η ξ : Type}

/-- The predicate on a node: that on its key, and the key looked for. -/
def Identifies (s : Elements κ υ) (pred : κ → ξ → Bool) (key : ξ) (e : η × Nat) : Bool := pred (s.elem e.2).1 key

namespace TransparentFind

def linear (s : Elements κ υ) (container : List (η × Nat)) (key : ξ) (pred : κ → ξ → Bool) : Option (η × Nat) :=
  container.find? (Identifies s pred key)

variable [DecidableEq η]

def hashed (s : Elements κ υ) (container : List (η × Nat)) (key : ξ) (hasher : ξ → η) (pred : κ → ξ → Bool) :
    Option (η × Nat) :=
  (equalRange container (hasher key)).find? (Identifies s pred key)

end TransparentFind

variable [DecidableEq η]

namespace TransparentErase

/-- What is left of the container, and the number returned. -/
def erase (container : List (η × Nat)) : Option (η × Nat) → List (η × Nat) × Nat
  | some it => (container.erase it, 1)
  | none => (container, 0)

-- The loops are those of `TransparentFind`.

def linear (s : Elements κ υ) (container : List (η × Nat)) (key : ξ) (pred : κ → ξ → Bool) :
    List (η × Nat) × Nat :=
  erase container (container.find? (Identifies s pred key))

def hashed (s : Elements κ υ) (container : List (η × Nat)) (key : ξ) (hasher : ξ → η) (pred : κ → ξ → Bool) :
    List (η × Nat) × Nat :=
  erase container ((equalRange container (hasher key)).find? (Identifies s pred key))

end TransparentErase

/-! ## All that changes maps -/

/-- For `erase`, the hash of the key, and what the predicate says of it. -/
inductive Call (κ υ η : Type) where
  | act (a : Act κ υ η)
  /-- `rehash`, and `reserve`. -/
  | rehash (m : Nat) (order : List (η × Nat))
  | eraseHashed (m : Nat) (hash : η) (pred : κ → Bool)
  | eraseLinear (m : Nat) (pred : κ → Bool)

variable [Inhabited υ]

def call (c : Config κ υ η) : Call κ υ η → Outcome (Config κ υ η)
  | .act a => next c a
  | .rehash m order =>
    match c.map m with
    | none => .blocked
    | some x => do
      requiring (order.Perm x.container)
      return c.set m (some { x with container := order })
  | .eraseHashed m hash pred =>
    match c.map m with
    | none => .blocked
    | some x =>
      let left := TransparentErase.hashed c.elements x.container () (fun _ => hash) fun stored _ => pred stored
      return c.set m (some { x with container := left.1 })
  | .eraseLinear m pred =>
    match c.map m with
    | none => .blocked
    | some x =>
      let left := TransparentErase.linear c.elements x.container () fun stored _ => pred stored
      return c.set m (some { x with container := left.1 })

end UnorderedMap
