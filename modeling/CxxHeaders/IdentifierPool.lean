/-
`IdentifierPool.h`: identifiers that are in use by one holder each.

An identifier type of `w` bits is `BitVec w`. A pool is its `State`, which
lives as long as a holder refers to it; a holder of a `StrongType` only passes
every call on to a plain one, and is the same here. Any number of pools and
holders are used one operation after another (`next`), as the pool's lock
makes them.
-/
import CxxHeaders.Runs
import Mathlib.Algebra.Group.Nat.Defs
import Mathlib.Data.Finset.Basic
import Mathlib.Logic.Function.Basic

open Outcome

namespace IdentifierPool

variable {w : Nat}

structure State (w : Nat) where
  reserved : Finset (BitVec w)
  tryNextId : BitVec w

inductive Exception where
  | reserveException
  | badAlloc
  deriving DecidableEq

namespace State

def new : State w := ⟨∅, 0⟩

/-- The loop of `reserve`. -/
def search (reserved : Finset (BitVec w)) (oldTryNext : BitVec w) :
    Nat → BitVec w → Outcome (Except Exception (BitVec w))
  | 0, _ => .failed
  | fuel + 1, tryNext =>
    if tryNext ∈ reserved then
      if tryNext + 1 = oldTryNext then return .error .reserveException
      else search reserved oldTryNext fuel (tryNext + 1)
    else return .ok tryNext

/-- `alloc` says whether there is memory for one more identifier. -/
def reserve (s : State w) (alloc : Bool) : Outcome (Except Exception (BitVec w × State w)) := do
  match ← search s.reserved s.tryNextId (2 ^ w) s.tryNextId with
  | .error e => return .error e
  | .ok tryNext =>
    if alloc then return .ok (tryNext, ⟨insert tryNext s.reserved, tryNext + 1⟩)
    return .error .badAlloc

def recycle (s : State w) (id : BitVec w) : Outcome (State w) := do
  asserting (id ∈ s.reserved)
  return { s with reserved := s.reserved.erase id }

end State

/-- `IdHolder`; `state` says which pool's state it points to. -/
structure IdHolder (w : Nat) (π : Type) where
  id : BitVec w
  state : Option π
  deriving DecidableEq

variable {π η : Type}

/-- The states of the pools, and the holders alive. -/
structure Config (w : Nat) (π η : Type) where
  state : π → State w
  holder : η → Option (IdHolder w π)

variable [DecidableEq π] [DecidableEq η]

namespace Config

/-- `if (m_state) m_state->recycle(m_id)`. -/
def recycle (c : Config w π η) (x : IdHolder w π) : Outcome (Config w π η) :=
  match x.state with
  | none => return c
  | some p => do return { c with state := Function.update c.state p (← (c.state p).recycle x.id) }

def setId (c : Config w π η) (h : η) (id : BitVec w) : Config w π η :=
  { c with holder := Function.update c.holder h ((c.holder h).map fun x => { x with id := id }) }

def setState (c : Config w π η) (h : η) (state : Option π) : Config w π η :=
  { c with holder := Function.update c.holder h ((c.holder h).map fun x => { x with state := state }) }

def set (c : Config w π η) (h : η) (x : Option (IdHolder w π)) : Config w π η :=
  { c with holder := Function.update c.holder h x }

/-- `m_state = std::move(move.m_state)`: the pointer is first taken out of
`move`, and only then put in. -/
def moveState (c : Config w π η) (h move : η) : Config w π η :=
  (c.setState move none).setState h ((c.holder move).bind IdHolder.state)

end Config

inductive Act (w : Nat) (π η : Type) where
  /-- `IdHolder()`, which leaves the identifier uninitialized. -/
  | construct (h : η) (garbage : BitVec w)
  /-- `pool.reserve()`, whose result is held by `h`. -/
  | reserve (h : η) (pool : π) (alloc : Bool)
  | moveConstruct (h move : η)
  | moveAssign (h move : η)
  | release (h : η)
  | destroy (h : η)
  deriving DecidableEq

def next (c : Config w π η) : Act w π η → Outcome (Config w π η)
  | .construct h garbage => do
    requiring (c.holder h = none)
    return c.set h (some ⟨garbage, none⟩)
  | .reserve h pool alloc => do
    requiring (c.holder h = none)
    match ← (c.state pool).reserve alloc with
    -- The holder's constructor is `noexcept`.
    | .error _ => .ended
    | .ok (id, s) =>
      return { c with state := Function.update c.state pool s }.set h (some ⟨id, some pool⟩)
  | .moveConstruct h move =>
    match c.holder move with
    | none => .blocked
    | some x => do
      requiring (c.holder h = none)
      return (c.set h (some x)).setState move none
  | .moveAssign h move =>
    match c.holder h, c.holder move with
    | some x, some y => do return ((← c.recycle x).setId h y.id).moveState h move
    | _, _ => .blocked
  | .release h =>
    match c.holder h with
    | none => .blocked
    | some x => do return (← c.recycle x).setState h none
  | .destroy h =>
    match c.holder h with
    | none => .blocked
    | some x => do return (← c.recycle x).set h none

/-- New pools, and no holders. -/
def init : Config w π η := ⟨fun _ => .new, fun _ => none⟩

end IdentifierPool
