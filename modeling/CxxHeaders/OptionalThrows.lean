/-
`Optional.h`, where constructors and assignments of `T` throw.

A step of the program of `Optional.lean` comes with the call of `T`'s that
throws in it, if one does, and what that call leaves in the objects it had
(`Fault`). Where a constructor throws, what its bases have made is destroyed by
their destructors. Without a fault this is the program of `Optional.lean`
(`next_none`).
-/
import CxxHeaders.Optional
import CxxHeaders.Throwing

open Outcome Throwing

namespace OptionalThrows

open Optional (Objects Config Act ofBool)

variable {κ τ υ : Type}

/-- A call of `T`'s within an operation; `std::swap` makes all three of them. -/
inductive Call where
  | construction
  | assignment
  | secondAssignment
  deriving DecidableEq, Repr

/-- The call that throws, and what it leaves in the object assigned to and in
the one moved from. -/
structure Fault (τ : Type) where
  call : Call
  target : τ
  source : τ

/-- Code of an operation. -/
abbrev Running (κ τ : Type) := Throwing Unit (Config κ τ)

variable [DecidableEq κ]

/-! ## Storages -/

def read (x : κ) : Running κ τ (Optional τ) := do
  match (← get).opt x with
  | some o => return o
  | none => liftM (Outcome.failed : Outcome (Optional τ))

def store (x : κ) (o : Optional τ) : Running κ τ Unit := modify fun c => c.set x (o, c.objects)

/-- The storage of `x` is given up. -/
def leave (x : κ) : Running κ τ Unit := modify fun c => { c with opt := Function.update c.opt x none }

def setContainsValue (x : κ) (v : Bool) : Running κ τ Unit := do store x { ← read x with containsValue := v }

/-- `m_data`, which has to be there. -/
def object (x : κ) : Running κ τ (Nat × τ) := do liftM (← read x).object

/-- The `T` that is there gets another value. -/
def setData (x : κ) (v : τ) : Running κ τ Unit := do
  let (id, _) ← object x
  store x { ← read x with data := some (id, v) }

/-- `m_data.~T()`. -/
def destroyData (x : κ) : Running κ τ Unit := do
  let (id, _) ← object x
  store x { ← read x with data := none }
  modify fun c => { c with objects := { c.objects with destroyed := id :: c.objects.destroyed } }

/-- A `T` is made in the storage. -/
def makeData (x : κ) (v : τ) : Running κ τ Unit := do
  let s := (← get).objects
  store x { ← read x with data := some (s.made, v) }
  modify fun c => { c with objects := { c.objects with made := s.made + 1 } }

/-- A call that can throw, and what it leaves then. -/
def mayThrow (fault : Option (Fault τ)) (call : Call) (left : Fault τ → Running κ τ Unit) :
    Running κ τ Unit :=
  match fault with
  | none => return
  | some f => do
    if f.call = call then
      left f
      throw ()

variable (T : ObjectType τ υ) (fault : Option (Fault τ))

/-- `new (std::addressof(m_data)) T(v)`. -/
def construct (x : κ) (v : τ) : Running κ τ Unit := do
  mayThrow fault .construction fun _ => return
  makeData x v

/-- `new (std::addressof(m_data)) T(std::move(from.m_data))`. -/
def moveConstruct (x source : κ) : Running κ τ Unit := do
  let v := (← object source).2
  mayThrow fault .construction fun f => setData source f.source
  makeData x v
  setData source (T.moved v)

/-- `m_data = v`. -/
def assign (x : κ) (v : τ) : Running κ τ Unit := do
  let _ ← object x
  mayThrow fault .assignment fun f => setData x f.target
  setData x v

/-- `m_data = std::move(from.m_data)`. -/
def moveAssignData (x source : κ) : Running κ τ Unit := do
  let _ ← object x
  let v := (← object source).2
  mayThrow fault .assignment fun f => do
    setData x f.target
    setData source f.source
  if x = source then setData x (T.selfMoved v)
  else
    setData x v
    setData source (T.moved v)

/-- `reset_`, of either `DestructorBase`. -/
def reset (x : κ) : Running κ τ Unit := do
  if T.triviallyDestructible then setContainsValue x false
  else if (← read x).containsValue then
    destroyData x
    setContainsValue x false

/-- `~DestructorBase`. -/
def destructor (x : κ) : Running κ τ Unit := do
  if !T.triviallyDestructible then
    if (← read x).containsValue then destroyData x
  leave x

/-! ## Constructors -/

/-- `DestructorBase(InPlace, Args && ...)`. -/
def inPlaceConstructor (x : κ) (v : τ) : Running κ τ Unit := do
  mayThrow fault .construction fun _ => return
  store x (ofBool true)
  makeData x v

/-- A constructor with the base `o`, which is destroyed if `body` throws. -/
def withBase (x : κ) (o : Optional τ) (body : Running κ τ Unit) : Running κ τ Unit := do
  store x o
  try body catch e =>
    destructor T x
    throw e

def copyConstructor (x copy : κ) : Running κ τ Unit := do
  let o ← read copy
  if T.triviallyCopyConstructible then store x o
  else withBase T x (ofBool o.containsValue) do
    if o.containsValue then construct fault x (← object copy).2

def moveConstructor (x move : κ) : Running κ τ Unit := do
  let o ← read move
  if T.triviallyMoveConstructible then store x o
  else withBase T x (ofBool o.containsValue) do
    if o.containsValue then moveConstruct T fault x move

/-- From an `Optional<U>`, or by `Optional(U &&)`. -/
def convertConstructor (x : κ) (v : Option υ) : Running κ τ Unit :=
  match T.canGetValueFromOptional, v with
  | some f, v => inPlaceConstructor fault x (f v)
  | none, none => liftM (Outcome.failed : Outcome Unit)
  | none, some u => inPlaceConstructor fault x (T.convert u)

/-! ## Assignment -/

/-- What the macro for copies does with a value. -/
def put (x : κ) (v : τ) : Running κ τ Unit := do
  if (← read x).containsValue then assign fault x v
  else
    construct fault x v
    setContainsValue x true

def copyAssign (x copy : κ) : Running κ τ Unit := do
  if (← read copy).containsValue then put fault x (← object copy).2 else reset T x

def moveAssign (x move : κ) : Running κ τ Unit := do
  if (← read move).containsValue then
    if (← read x).containsValue then moveAssignData T fault x move
    else
      moveConstruct T fault x move
      setContainsValue x true
  else reset T x

def convertAssign (x : κ) (rhs : Option υ) : Running κ τ Unit :=
  match rhs with
  | some u => put fault x (T.convert u)
  | none => reset T x

def emplace (x : κ) (v : τ) : Running κ τ Unit := do
  reset T x
  construct fault x v
  setContainsValue x true

/-- The function `doMove` of `swap`. -/
def doMove (source dest : κ) : Running κ τ Unit := do
  moveConstruct T fault dest source
  setContainsValue dest true
  destroyData source
  setContainsValue source false

/-- `std::swap` of two `m_data`, by a temporary. -/
def swapData (x rhs : κ) : Running κ τ Unit := do
  let v := (← object x).2
  mayThrow fault .construction fun f => setData x f.source
  setData x (T.moved v)
  moveAssignData T fault x rhs
  mayThrow fault .secondAssignment fun f => setData rhs f.target
  setData rhs v

def swap (x rhs : κ) : Running κ τ Unit := do
  if (← read rhs).containsValue then
    if (← read x).containsValue then swapData T fault x rhs
    else doMove T fault rhs x
  else if (← read x).containsValue then doMove T fault x rhs

/-! ## Steps -/

def code : Act κ τ υ → Running κ τ Unit
  | .new x => store x (ofBool false)
  | .newValue x v => inPlaceConstructor fault x v
  | .newOther x u => inPlaceConstructor fault x (T.convert u)
  | .newBool x b direct => if direct then store x (ofBool b) else inPlaceConstructor fault x (T.ofBool b)
  | .newCopy x y => copyConstructor T fault x y
  | .newMove x y => moveConstructor T fault x y
  | .newConvert x v => convertConstructor T fault x v
  | .destroy x => destructor T x
  | .copyAssign x y => copyAssign T fault x y
  | .moveAssign x y => moveAssign T fault x y
  | .convertAssign x rhs => convertAssign T fault x rhs
  | .reset x => reset T x
  | .emplace x v => emplace T fault x v
  | .swap x y => swap T fault x y

/-- The step has the objects that it is about, and the operator is there. -/
def possible (c : Config κ τ) : Act κ τ υ → Bool
  | .new x | .newValue x _ | .newOther x _ | .newBool x _ _ | .newConvert x _ => (c.opt x).isNone
  | .newCopy x y | .newMove x y => (c.opt x).isNone && (c.opt y).isSome
  | .destroy x | .reset x | .emplace x _ => (c.opt x).isSome
  | .convertAssign x _ => T.convertAssignable && (c.opt x).isSome
  | .copyAssign x y | .moveAssign x y | .swap x y => (c.opt x).isSome && (c.opt y).isSome

/-- What its `noexcept` asks for is not what it calls: that of `swap` is about
the `swap` of `T`, and that of `emplace` with a list is not about the list. -/
def misdeclared : Act κ τ υ → Bool
  | .emplace .. | .swap .. => true
  | _ => false

/-- A step, the call that throws in it, and whether its `noexcept` says that
nothing is thrown. -/
structure Event (κ τ υ : Type) where
  act : Act κ τ υ
  fault : Option (Fault τ)
  nothrow : Bool

/-- What is thrown is caught by the caller, if it may be thrown. -/
def next (c : Config κ τ) (e : Event κ τ υ) : Outcome (Config κ τ) := do
  requiring (possible T c e.act)
  let x := code T e.fault e.act
  let r ← (if e.nothrow && misdeclared e.act then noexcept x else x).run.run c
  return r.2

end OptionalThrows
