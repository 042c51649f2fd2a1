/-
`SharedResourceMap.h`: `forEach`.

A thread goes through the entries, in the order of their keys, with the mutex
locked. It locks the `weakPtr` of an entry, and where it gets a handle gives it
to the visitor, which may keep it; else the handle goes when the visitor
returns. The visitor may let go of other handles too. Meanwhile the other
threads do what takes no lock of the mutex. A thread that drops the last handle
of a resource runs its deleter at once, and the deleter locks the mutex: where
that is the thread that has it locked, it locks it twice.
-/
import CxxHeaders.SharedResourceMapAgree
import Mathlib.Data.List.Sort

open Outcome

namespace SharedResourceMapForEach

variable {κ : Type}

/-- The entries that are to be visited. The visitor runs, and `handle` is the one that
it was given. -/
structure Iteration (κ : Type) where
  rest : List κ
  visitor : Bool
  handle : Option Nat

/-- The map, and the thread that is in `forEach`. -/
structure Config (κ : Type) where
  map : SharedResourceMap κ
  forEach : Option (Iteration κ)

inductive Act (κ : Type) where
  /-- An operation outside of `forEach`. -/
  | other (a : SharedResourceMap.Act κ)
  | forEach
  | visit
  /-- The visitor moves its handle elsewhere. -/
  | keep
  /-- Its handle goes. -/
  | drop
  /-- It lets go of another handle. -/
  | dropOther (f : Nat)
  /-- It returns, without the handle. -/
  | finish
  /-- There are no more entries, or it throws. -/
  | leave

/-- It locks the mutex, or destroys the map. -/
def Excluded : SharedResourceMap.Act κ → Bool
  | .getResource _ | .deleteSection _ | .destroy => true
  | _ => false

/-- How many handles the thread in `forEach` has of the control block. -/
def held (i : Iteration κ) (f : Nat) : Nat := if i.handle = some f then 1 else 0

/-- A handle goes, in a thread that has locked the mutex. -/
def dropLocked (s : SharedResourceMap κ) (f : Nat) : Outcome (SharedResourceMap κ) :=
  let s := s.setUseCount f ((s.block f).useCount - 1)
  if (s.block f).useCount = 0 then
    -- The deleter locks `container`, and then the mutex.
    if s.inner then .failed else return s.setDeleter f .returning
  else return s

variable [LinearOrder κ]

/-- The keys of `m_data`. -/
def keys (s : SharedResourceMap κ) : List κ :=
  ((List.range s.made).filterMap fun v =>
    let key := (s.valueObj v).key
    if s.data key = some v then some key else none).insertionSort (· ≤ ·)

def next (c : Config κ) : Act κ → Outcome (Config κ)
  | .other a =>
    match c.forEach with
    | none => return { c with map := ← c.map.next a }
    | some i => do
      requiring ¬Excluded a
      -- A handle that goes here is not the one in `forEach`.
      match a with
      | .drop f => requiring (held i f < (c.map.block f).useCount)
      | _ => pure ()
      return { c with map := ← c.map.next a }
  | .forEach => do
    requiring (c.map.map ∧ c.forEach.isNone)
    return { c with forEach := some ⟨keys c.map, false, none⟩ }
  | .visit =>
    match c.forEach with
    | some ⟨key :: rest, false, none⟩ =>
      match c.map.data key with
      | none => .failed
      | some v =>
        match (c.map.valueObj v).weakPtr with
        | some f =>
          let n := (c.map.block f).useCount
          if n = 0 then return { c with forEach := some ⟨rest, false, none⟩ }
          else return { map := c.map.setUseCount f (n + 1), forEach := some ⟨rest, true, some f⟩ }
        | none => return { c with forEach := some ⟨rest, false, none⟩ }
    | _ => .blocked
  | .keep =>
    match c.forEach with
    | some ⟨rest, true, some _⟩ => return { c with forEach := some ⟨rest, true, none⟩ }
    | _ => .blocked
  | .drop =>
    match c.forEach with
    | some ⟨rest, true, some f⟩ =>
      return { map := ← dropLocked c.map f, forEach := some ⟨rest, true, none⟩ }
    | _ => .blocked
  | .dropOther f =>
    match c.forEach with
    | some i => do
      requiring (i.visitor ∧ held i f < (c.map.block f).useCount)
      return { c with map := ← dropLocked c.map f }
    | none => .blocked
  | .finish =>
    match c.forEach with
    | some ⟨rest, true, none⟩ => return { c with forEach := some ⟨rest, false, none⟩ }
    | _ => .blocked
  | .leave =>
    match c.forEach with
    | some ⟨rest, visitor, none⟩ => do
      requiring (rest.isEmpty ∨ visitor)
      return { c with forEach := none }
    | _ => .blocked

def new (garbage : Nat → ValueObj κ) : Config κ := ⟨.new garbage, none⟩

end SharedResourceMapForEach
