/-
`Future.h`: promises, futures and packaged tasks over shared states, used one
operation after another (`next`).

A `SharedState` lives at an address, and promises, tasks and futures are the
named objects that point to it; an object that does not exist yet, or is
destroyed, is `none`. `Promise<void>` is the case of a value type with one
value. Continuations are left out: no operation here attaches one.
-/
import CxxHeaders.Runs
import Mathlib.Logic.Function.Basic

open Outcome

namespace Future

variable {τ ε φ : Type}

inductive Exception (ε : Type) where
  | brokenPromise
  | badFunctionCall
  | other (e : ε)
  deriving DecidableEq

structure SharedState (τ ε : Type) where
  isSet : Bool
  exception : Option (Exception ε)
  data : Option τ

namespace SharedState

def new : SharedState τ ε := ⟨false, none, none⟩

def setException (s : SharedState τ ε) (e : Exception ε) : Outcome (SharedState τ ε) := do
  asserting ¬s.isSet
  return { s with exception := some e, isSet := true }

/-- No `value` means that its construction throws, which the `noexcept`
around it turns into the end of the program. -/
def emplaceValue (s : SharedState τ ε) (value : Option τ) : Outcome (SharedState τ ε) := do
  asserting ¬s.isSet
  match value with
  | none => .ended
  | some v => return { s with data := some v, isSet := true }

end SharedState

structure Promise where
  state : Option Nat
  futureState : Option Nat

/-- Where a promise is: by itself, or in a task. -/
inductive Place where
  | promise (p : Nat)
  | task (t : Nat)
  deriving DecidableEq

/-- The shared states, of which `made` were made so far; the promises; the
functions of the tasks; and the futures. -/
structure Config (τ ε φ : Type) where
  state : Nat → SharedState τ ε
  made : Nat
  promise : Place → Option Promise
  function : Nat → Option φ
  future : Nat → Option (Option Nat)

namespace Config

def setPromise (c : Config τ ε φ) (l : Place) (x : Option Promise) : Config τ ε φ :=
  { c with promise := Function.update c.promise l x }

def setFunction (c : Config τ ε φ) (t : Nat) (f : Option φ) : Config τ ε φ :=
  { c with function := Function.update c.function t f }

def setFuture (c : Config τ ε φ) (f : Nat) (x : Option (Option Nat)) : Config τ ε φ :=
  { c with future := Function.update c.future f x }

/-- `Promise()`. -/
def newPromise (c : Config τ ε φ) (l : Place) : Config τ ε φ :=
  { c with
    state := Function.update c.state c.made .new, made := c.made + 1,
    promise := Function.update c.promise l (some ⟨some c.made, some c.made⟩) }

/-- `~Promise()`, of the promise `x`. -/
def breakPromise (c : Config τ ε φ) (x : Promise) : Outcome (Config τ ε φ) :=
  match x.state with
  | none => return c
  | some s => do
    return { c with state := Function.update c.state s (← (c.state s).setException .brokenPromise) }

/-- `SharedStatePtr(std::move(m_state))->set(..)`. -/
def fulfil (c : Config τ ε φ) (l : Place) (x : Promise)
    (set : SharedState τ ε → Outcome (SharedState τ ε)) : Outcome (Config τ ε φ) :=
  match x.state with
  | none => .failed
  | some s => do
    let c := c.setPromise l (some { x with state := none })
    return { c with state := Function.update c.state s (← set (c.state s)) }

/-- `m_state = std::move(move.m_state)`. -/
def moveState (c : Config τ ε φ) (l move : Place) : Config τ ε φ :=
  let taken := (c.promise move).bind Promise.state
  let c := c.setPromise move ((c.promise move).map ({ · with state := none }))
  c.setPromise l ((c.promise l).map ({ · with state := taken }))

/-- `m_futureState = std::move(move.m_futureState)`. -/
def moveFutureState (c : Config τ ε φ) (l move : Place) : Config τ ε φ :=
  let taken := (c.promise move).bind Promise.futureState
  let c := c.setPromise move ((c.promise move).map ({ · with futureState := none }))
  c.setPromise l ((c.promise l).map ({ · with futureState := taken }))

end Config

inductive Act (τ ε φ : Type) where
  | promise (p : Nat)
  | movePromise (p move : Nat)
  | assignPromise (p move : Nat)
  | swapPromise (p other : Nat)
  | emplaceValue (p : Nat) (value : Option τ)
  | setException (p : Nat) (e : ε)
  | abandon (p : Nat)
  | destroyPromise (p : Nat)
  /-- Of a promise or of a task. -/
  | takeFuture (l : Place) (f : Nat)
  /-- `PackagedTask()`, whose promise is not valid. -/
  | emptyTask (t : Nat)
  | task (t : Nat) (function : Option φ)
  | moveTask (t move : Nat)
  | assignTask (t move : Nat)
  | swapTask (t other : Nat)
  /-- `result` is what the function returns or throws. -/
  | invoke (t : Nat) (result : Except ε τ)
  | destroyTask (t : Nat)
  | future (f : Nat)
  | moveFuture (f move : Nat)
  | assignFuture (f move : Nat)
  | swapFuture (f other : Nat)
  | takeValue (f : Nat)
  | destroyFuture (f : Nat)

/-- What a task sets its promise to, given its function and how that ends. -/
def callFunction (function : Option φ) (result : Except ε τ) (s : SharedState τ ε) :
    Outcome (SharedState τ ε) :=
  match function, result with
  | none, _ => s.setException .badFunctionCall
  | some _, .ok v => s.emplaceValue (some v)
  | some _, .error e => s.setException (.other e)

def next (c : Config τ ε φ) : Act τ ε φ → Outcome (Config τ ε φ)
  | .promise p => do
    requiring (c.promise (.promise p)).isNone
    return c.newPromise (.promise p)
  | .movePromise p move =>
    match c.promise (.promise move) with
    | none => .blocked
    | some x => do
      requiring (c.promise (.promise p)).isNone
      return (c.setPromise (.promise p) (some x)).setPromise (.promise move) (some ⟨none, none⟩)
  | .assignPromise p move => do
    requiring ((c.promise (.promise p)).isSome ∧ (c.promise (.promise move)).isSome)
    return (c.moveState (.promise p) (.promise move)).moveFutureState (.promise p) (.promise move)
  | .swapPromise p other =>
    match c.promise (.promise p), c.promise (.promise other) with
    | some x, some y => return (c.setPromise (.promise p) (some y)).setPromise (.promise other) (some x)
    | _, _ => .blocked
  | .emplaceValue p value =>
    match c.promise (.promise p) with
    | none => .blocked
    | some x => c.fulfil (.promise p) x (·.emplaceValue value)
  | .setException p e =>
    match c.promise (.promise p) with
    | none => .blocked
    | some x => c.fulfil (.promise p) x (·.setException (.other e))
  | .abandon p =>
    match c.promise (.promise p) with
    | none => .blocked
    | some x => c.fulfil (.promise p) x (·.setException .brokenPromise)
  | .destroyPromise p =>
    match c.promise (.promise p) with
    | none => .blocked
    | some x => do return (← c.breakPromise x).setPromise (.promise p) none
  | .takeFuture l f =>
    match c.promise l with
    | none => .blocked
    | some x => do
      requiring (c.future f).isNone
      asserting x.futureState.isSome
      return (c.setPromise l (some { x with futureState := none })).setFuture f (some x.futureState)
  | .emptyTask t => do
    requiring (c.promise (.task t)).isNone
    return (c.setPromise (.task t) (some ⟨none, none⟩)).setFunction t none
  | .task t function => do
    requiring (c.promise (.task t)).isNone
    return (c.newPromise (.task t)).setFunction t function
  | .moveTask t move =>
    match c.promise (.task move) with
    | none => .blocked
    | some x => do
      requiring (c.promise (.task t)).isNone
      let c := (c.setPromise (.task t) (some x)).setPromise (.task move) (some ⟨none, none⟩)
      return (c.setFunction t (c.function move)).setFunction move none
  | .assignTask t move =>
    match c.promise (.task t), c.promise (.task move) with
    | some _, some y => do
      -- `tmp` is moved from, then swapped with, and then destroyed.
      let function := c.function move
      let c := (c.setPromise (.task move) (some ⟨none, none⟩)).setFunction move none
      let old := c.promise (.task t)
      let c := (c.setPromise (.task t) (some y)).setFunction t function
      match old with
      | none => return c
      | some x => c.breakPromise x
    | _, _ => .blocked
  | .swapTask t other =>
    match c.promise (.task t), c.promise (.task other) with
    | some x, some y =>
      let c' := (c.setPromise (.task t) (some y)).setPromise (.task other) (some x)
      return (c'.setFunction t (c.function other)).setFunction other (c.function t)
    | _, _ => .blocked
  | .invoke t result =>
    match c.promise (.task t) with
    | none => .blocked
    | some x => c.fulfil (.task t) x (callFunction (c.function t) result)
  | .destroyTask t =>
    match c.promise (.task t) with
    | none => .blocked
    | some x => do return ((← c.breakPromise x).setPromise (.task t) none).setFunction t none
  | .future f => do
    requiring (c.future f).isNone
    return c.setFuture f (some none)
  | .moveFuture f move =>
    match c.future move with
    | none => .blocked
    | some s => do
      requiring (c.future f).isNone
      return (c.setFuture f (some s)).setFuture move (some none)
  | .assignFuture f move =>
    match c.future f, c.future move with
    | some _, some s => return (c.setFuture move (some none)).setFuture f (some s)
    | _, _ => .blocked
  | .swapFuture f other =>
    match c.future f, c.future other with
    | some s, some s' => return (c.setFuture f (some s')).setFuture other (some s)
    | _, _ => .blocked
  | .takeValue f =>
    match c.future f with
    | none => .blocked
    | some none => .failed
    | some (some s) => do
      requiring (c.state s).isSet
      return c.setFuture f (some none)
  | .destroyFuture f =>
    match c.future f with
    | none => .blocked
    | some _ => return c.setFuture f none

/-- What is asked of the caller: that promises and futures are valid where
the operation needs it. -/
def Allowed (c : Config τ ε φ) : Act τ ε φ → Prop
  | .emplaceValue p _ | .setException p _ | .abandon p =>
    ∀ x, c.promise (.promise p) = some x → x.state ≠ none
  | .invoke t _ => ∀ x, c.promise (.task t) = some x → x.state ≠ none
  | .takeFuture l _ => ∀ x, c.promise l = some x → x.futureState ≠ none
  | .takeValue f => c.future f ≠ some none
  | _ => True

/-- Nothing is made yet. -/
def init : Config τ ε φ := ⟨fun _ => .new, 0, fun _ => none, fun _ => none, fun _ => none⟩

end Future
