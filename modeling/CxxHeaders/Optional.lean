/-
`Optional.h`: an optional object, kept in place.

The storage of an `Optional` has a `T` in it or not, and `m_containsValue` says
what the code believes. Every `T` that is made in a storage gets a number, so
that it can be told which ones were destroyed. Which of the base classes are
in force depends on what is trivial for `T` (`ObjectType`); what is trivial is
done without a call. To destroy or read a `T` that is not there is a failure.

Nothing throws. The `Optional<U>` of a conversion is given by what it holds.
Where `T` takes the `Optional<U>` itself, as `bool` does, the constructors and
assignments from an `Optional<U>` take no part in the overload resolution.
The assignment from an `Optional<U>` is modelled by its body, though this
names members of another class than its own that are private there.
-/
import CxxHeaders.Runs
import Mathlib.Logic.Function.Basic

open Outcome

/-- What is known of `T`, and of a type `U` that converts to it. -/
structure ObjectType (τ υ : Type) where
  triviallyDestructible : Bool
  triviallyCopyConstructible : Bool
  triviallyMoveConstructible : Bool
  /-- What is left behind when a `T` is moved from, and moved to itself. -/
  moved : τ → τ
  selfMoved : τ → τ
  convert : υ → τ
  ofBool : Bool → τ
  /-- What `T` makes of an `Optional<U>` itself, if it takes one. -/
  canGetValueFromOptional : Option (Option υ → τ)
  isOptionalAssignable : Bool
  destructible_of_copy : triviallyCopyConstructible = true → triviallyDestructible = true
  destructible_of_move : triviallyMoveConstructible = true → triviallyDestructible = true
  moved_eq : triviallyMoveConstructible = true → ∀ v, moved v = v

/-- The assignment from an `Optional<U>` is there. Where it is not, an
`Optional<T>` is made of it first, and then assigned. -/
def ObjectType.convertAssignable {τ υ : Type} (T : ObjectType τ υ) : Bool :=
  T.canGetValueFromOptional.isNone && !T.isOptionalAssignable

/-- `m_data`, if there is a `T`, and `m_containsValue`. -/
structure Optional (τ : Type) where
  data : Option (Nat × τ)
  containsValue : Bool

namespace Optional

variable {τ υ : Type}

/-- How many objects were made in the storages, and which were destroyed. -/
structure Objects where
  made : Nat
  destroyed : List Nat

def empty : Optional τ := ⟨none, false⟩

/-- `m_data`, which has to be there. -/
def object (o : Optional τ) : Outcome (Nat × τ) :=
  match o.data with
  | none => .failed
  | some d => .next d

/-- A `T` is made in the storage, and `m_containsValue` set. -/
def construct (s : Objects) (v : τ) : Optional τ × Objects :=
  (⟨some (s.made, v), true⟩, { s with made := s.made + 1 })

/-- `m_data.~T()`, and `m_containsValue` is cleared. -/
def destroy (s : Objects) (o : Optional τ) : Outcome (Optional τ × Objects) := do
  let (id, _) ← o.object
  return (empty, { s with destroyed := id :: s.destroyed })

variable (T : ObjectType τ υ)

/-- `reset_`, of either `DestructorBase`. -/
def reset (s : Objects) (o : Optional τ) : Outcome (Optional τ × Objects) :=
  if T.triviallyDestructible then return ({ o with containsValue := false }, s)
  else if o.containsValue then destroy s o
  else return (o, s)

/-- What the destructor does to the objects. -/
def destructor (s : Objects) (o : Optional τ) : Outcome Objects :=
  if T.triviallyDestructible then return s
  else if o.containsValue then do return (← destroy s o).2
  else return s

/-! ## Constructors -/

/-- The constructor that all classes pass through: nothing is made. -/
def ofBool (v : Bool) : Optional τ := ⟨none, v⟩

def copyConstructor (s : Objects) (copy : Optional τ) : Outcome (Optional τ × Objects) :=
  if T.triviallyCopyConstructible then return (copy, s)
  else if copy.containsValue then do return construct s (← copy.object).2
  else return (empty, s)

/-- Also what is left of `move`. -/
def moveConstructor (s : Objects) (move : Optional τ) : Outcome (Optional τ × Optional τ × Objects) :=
  if T.triviallyMoveConstructible then return (move, move, s)
  else if move.containsValue then do
    let (id, v) ← move.object
    let (o, s) := construct s v
    return (o, { move with data := some (id, T.moved v) }, s)
  else return (empty, move, s)

/-- From an `Optional<U>`, whose value is taken without a look, or by
`Optional(U &&)`, if `T` is made of what it is given there. -/
def convertConstructor (s : Objects) (v : Option υ) : Outcome (Optional τ × Objects) :=
  match T.canGetValueFromOptional, v with
  | some f, v => return construct s (f v)
  | none, none => .failed
  | none, some u => return construct s (T.convert u)

/-! ## Assignment -/

/-- What the assignment macros do with a value. -/
def put (s : Objects) (o : Optional τ) (v : τ) : Outcome (Optional τ × Objects) :=
  if o.containsValue then do return ({ o with data := some ((← o.object).1, v) }, s)
  else return construct s v

def copyAssign (s : Objects) (o copy : Optional τ) : Outcome (Optional τ × Objects) := do
  if copy.containsValue then put s o (← copy.object).2 else reset T s o

/-- Also what is left of `move`, another object than `o`. -/
def moveAssign (s : Objects) (o move : Optional τ) : Outcome (Optional τ × Optional τ × Objects) :=
  if move.containsValue then do
    let (id, v) ← move.object
    let (o, s) ← put s o v
    return (o, { move with data := some (id, T.moved v) }, s)
  else do
    let (o, s) ← reset T s o
    return (o, move, s)

/-- From itself. -/
def selfMoveAssign (s : Objects) (o : Optional τ) : Outcome (Optional τ × Objects) :=
  if o.containsValue then do
    let (id, v) ← o.object
    return ({ o with data := some (id, T.selfMoved v) }, s)
  else reset T s o

def convertAssign (s : Objects) (o : Optional τ) (rhs : Option υ) : Outcome (Optional τ × Objects) :=
  match rhs with
  | some u => put s o (T.convert u)
  | none => reset T s o

def emplace (s : Objects) (o : Optional τ) (v : τ) : Outcome (Optional τ × Objects) := do
  let (_, s) ← reset T s o
  return construct s v

/-- The function `doMove` of `swap`: what it moves to and from, as they are then. -/
def doMove (s : Objects) (o : Optional τ) : Outcome (Optional τ × Optional τ × Objects) := do
  let (_, v) ← o.object
  let (dest, s) := construct s v
  let (o, s) ← destroy s o
  return (dest, o, s)

def swap (s : Objects) (o rhs : Optional τ) : Outcome (Optional τ × Optional τ × Objects) :=
  if rhs.containsValue then
    if o.containsValue then do
      let (i, v) ← o.object
      let (j, u) ← rhs.object
      return ({ o with data := some (i, u) }, { rhs with data := some (j, v) }, s)
    else doMove s rhs
  else if o.containsValue then do
    let (rhs, o, s) ← doMove s o
    return (o, rhs, s)
  else return (o, rhs, s)

/-! ## Any number of objects -/

structure Config (κ τ : Type) where
  opt : κ → Option (Optional τ)
  objects : Objects

inductive Act (κ τ υ : Type) where
  | new (x : κ)
  | newValue (x : κ) (v : τ)
  | newOther (x : κ) (u : υ)
  /-- From an argument of type `bool`, by direct initialization or else by a
  conversion. -/
  | newBool (x : κ) (b direct : Bool)
  | newCopy (x y : κ)
  | newMove (x y : κ)
  | newConvert (x : κ) (v : Option υ)
  | destroy (x : κ)
  | copyAssign (x y : κ)
  | moveAssign (x y : κ)
  | convertAssign (x : κ) (rhs : Option υ)
  /-- `x = nullOption`, and `x.reset()`. -/
  | reset (x : κ)
  | emplace (x : κ) (v : τ)
  | swap (x y : κ)

variable {κ : Type} [DecidableEq κ]

def Config.set (c : Config κ τ) (x : κ) (r : Optional τ × Objects) : Config κ τ :=
  ⟨Function.update c.opt x (some r.1), r.2⟩

@[simp] theorem Config.set_opt (c : Config κ τ) (x : κ) (r : Optional τ × Objects) :
    (c.set x r).opt = Function.update c.opt x (some r.1) := rfl

@[simp] theorem Config.set_objects (c : Config κ τ) (x : κ) (r : Optional τ × Objects) :
    (c.set x r).objects = r.2 := rfl

/-- Makes `x`. -/
def Config.make (c : Config κ τ) (x : κ) (f : Objects → Outcome (Optional τ × Objects)) :
    Outcome (Config κ τ) :=
  match c.opt x with
  | some _ => .blocked
  | none => do return c.set x (← f c.objects)

/-- Changes `x`. -/
def Config.on (c : Config κ τ) (x : κ) (f : Objects → Optional τ → Outcome (Optional τ × Objects)) :
    Outcome (Config κ τ) :=
  match c.opt x with
  | none => .blocked
  | some o => do return c.set x (← f c.objects o)

/-- Changes `x` and `y`. -/
def Config.onBoth (c : Config κ τ) (x y : κ)
    (f : Objects → Optional τ → Optional τ → Outcome (Optional τ × Optional τ × Objects)) :
    Outcome (Config κ τ) :=
  match c.opt x, c.opt y with
  | some o, some p => do
    let (o, p, s) ← f c.objects o p
    return (c.set x (o, s)).set y (p, s)
  | _, _ => .blocked

def next (c : Config κ τ) : Act κ τ υ → Outcome (Config κ τ)
  | .new x => c.make x fun s => return (empty, s)
  | .newValue x v => c.make x fun s => return construct s v
  | .newOther x u => c.make x fun s => return construct s (T.convert u)
  -- the constructor of the macro is not a template, and so the better match
  | .newBool x b direct => c.make x fun s => return if direct then (ofBool b, s) else construct s (T.ofBool b)
  | .newCopy x y =>
    match c.opt y with
    | none => .blocked
    | some copy => c.make x fun s => copyConstructor T s copy
  | .newMove x y =>
    match c.opt x, c.opt y with
    | none, some move => do
      let (o, move, s) ← moveConstructor T c.objects move
      return (c.set x (o, s)).set y (move, s)
    | _, _ => .blocked
  | .newConvert x v => c.make x fun s => convertConstructor T s v
  | .destroy x =>
    match c.opt x with
    | none => .blocked
    | some o => do return ⟨Function.update c.opt x none, ← destructor T c.objects o⟩
  | .copyAssign x y =>
    match c.opt y with
    | none => .blocked
    | some copy => c.on x fun s o => copyAssign T s o copy
  | .moveAssign x y => if x = y then c.on x (selfMoveAssign T) else c.onBoth x y (moveAssign T)
  | .convertAssign x rhs => do
    requiring T.convertAssignable
    c.on x fun s o => convertAssign T s o rhs
  | .reset x => c.on x (reset T)
  | .emplace x v => c.on x fun s o => emplace T s o v
  -- an object swapped with itself is moved out and back in
  | .swap x y => if x = y then c.on x fun s o => return (o, s) else c.onBoth x y swap

/-- No `Optional`s, and nothing made. -/
def init : Config κ τ := ⟨fun _ => none, 0, []⟩

end Optional
