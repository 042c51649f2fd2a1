/-
`SharedResourceMap.h`: `getResource` where something is thrown.

What can throw is named (`Fault`): the allocation of an entry, with the copy of
its key; the allocation of a `ValueObj_`; its construction, which copies the
key and runs the constructor that makes the resource; and the allocation of a
handle's control block. Without a fault this is `SharedResourceMap.getResource`
(`getResource_eq`).
-/
import CxxHeaders.SharedResourceMap
import CxxHeaders.Throwing

open Outcome Throwing

namespace SharedResourceMapThrows

open SharedResourceMap (release chain)

variable {κ : Type}

/-- What throws. -/
inductive Fault where
  | entry
  | valueObj
  | construction
  | controlBlock
  deriving DecidableEq, Repr

/-- The map, and whether the thread has locked its mutex. -/
structure Call (κ : Type) where
  map : SharedResourceMap κ
  locked : Bool

/-- Code of a call; `fault` is what throws in it, if anything. -/
abbrev Calling (κ : Type) := Throwing Fault (Call κ)

def modifyMap (f : SharedResourceMap κ → SharedResourceMap κ) : Calling κ Unit :=
  modify fun c => { c with map := f c.map }

/-- `std::lock_guard`, which does not lock a mutex twice, and unlocks it again
also where an exception leaves the section. -/
def lockGuard (body : Calling κ Unit) : Calling κ Unit := do
  let c ← get
  liftM (asserting ¬c.locked)
  set { c with locked := true }
  try body catch e =>
    modify ({ · with locked := false })
    throw e
  modify ({ · with locked := false })

/-- `f` can throw here. -/
def mayThrow (fault : Option Fault) (f : Fault) : Calling κ Unit :=
  if fault = some f then throw f else pure ()

variable [DecidableEq κ]

/-- The section of a deleter that is no control block's: what it captures is
not counted. -/
def deleteSection (v : Nat) (s : SharedResourceMap κ) : SharedResourceMap κ :=
  let key := (s.valueObj v).key
  match s.data key with
  | some w => if s.expired w then release chain (s.erase key) w else s
  | none => s

/-- The deleter. -/
def deleter (v : Nat) : Calling κ Unit := noexcept do
  if (← get).map.inner then lockGuard (modifyMap (deleteSection v))

/-- `std::shared_ptr` calls the deleter where it cannot allocate a control block. -/
def createShared (fault : Option Fault) (v : Nat) : Calling κ Unit := do
  try mayThrow fault .controlBlock catch e =>
    deleter v
    throw e
  modifyMap (·.createShared v)

/-- An entry, for the `ValueObj_` that is made next. -/
def emplaceEntry (s : SharedResourceMap κ) (key : κ) : SharedResourceMap κ :=
  { s with data := Function.update s.data key (some s.made) }

/-- `ValueObj_` -/
def makeValueObj (s : SharedResourceMap κ) (key : κ) : SharedResourceMap κ :=
  { s with valueObj := Function.update s.valueObj s.made ⟨key, none⟩, made := s.made + 1 }

def getResource (fault : Option Fault) (key : κ) : Calling κ Unit :=
  lockGuard do
    let s := (← get).map
    match s.data key with
    | some v =>
      match (s.valueObj v).weakPtr with
      | some f =>
        if (s.block f).useCount = 0 then createShared fault v
        else modifyMap (·.setUseCount f ((s.block f).useCount + 1))
      | none => createShared fault v
    | none => do
      mayThrow fault .entry
      modifyMap (emplaceEntry · key)
      try
        mayThrow fault .valueObj
        noexcept (mayThrow fault .construction)
        modifyMap (makeValueObj · key)
        createShared fault s.made
      catch e =>
        modifyMap (·.erase key)
        throw e

end SharedResourceMapThrows
