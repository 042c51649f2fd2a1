/-
`Future.h`: values whose constructors throw.

A promise, with the continuations that were attached to its future, to the one
that `then` returned, and so on: the state at `i` is the one that the promise at
`i` sets, and the continuation at `i` is attached to it and has the promise at
`i + 1`. Nobody else has that one, so that what is done here is done to the
first promise and to the last future.

`T` can throw whenever it is constructed in `Future.h`: in the storage of a
shared state, or as `takeValue` moves it out. A function of a continuation or of
a task throws what it throws, for whatever reason.
-/
import CxxHeaders.FutureThen
import CxxHeaders.Throwing

open Outcome Throwing

namespace FutureThrows

open Future (Exception SharedState)
open FutureThen (Result)

variable {τ ε : Type}

/-- How the function of a continuation ends. A future that it returns is set
sooner or later, to a state that is known here. -/
inductive Return (τ ε : Type) where
  | value (v : τ)
  | void
  | throws (e : Exception ε)
  | future (s : SharedState τ ε)
  | invalidFuture

/-- The function of a continuation, by the state of its future. -/
abbrev Function (τ ε : Type) := SharedState τ ε → Return τ ε

/-- `promise` are the promises that are valid. It is counted how often `T` was constructed,
and `propagated` is what left the last call. -/
structure Config (τ ε : Type) where
  state : Nat → SharedState τ ε
  promise : Nat → Bool
  continuations : List (Function τ ε)
  calls : Nat
  propagated : Option (Exception ε)

abbrev Code (τ ε : Type) := Throwing (Exception ε) (Config τ ε)

namespace Config

def new : Config τ ε := ⟨fun _ => .new, fun _ => true, [], 0, none⟩

def setState (c : Config τ ε) (i : Nat) (s : SharedState τ ε) : Config τ ε :=
  { c with state := Function.update c.state i s }

/-- `std::move(m_state)`. -/
def giveUp (c : Config τ ε) (i : Nat) : Config τ ε :=
  { c with promise := Function.update c.promise i false }

end Config

section
variable (throws : Nat → Option (Exception ε))

/-- A constructor of `T`. -/
def construct : Code τ ε Unit := do
  let c ← get
  set { c with calls := c.calls + 1 }
  match throws c.calls with
  | some e => throw e
  | none => pure ()

/-- `SharedState::emplaceValue`, `setReady` and `setException`, up to the continuation. -/
def setResult (i : Nat) (r : Result τ ε) : Code τ ε Unit := noexcept do
  liftM (asserting ¬((← get).state i).isSet)
  match r with
  | .value v =>
    construct throws
    modify fun c => c.setState i { c.state i with data := some v, isSet := true }
  | .ready => modify fun c => c.setState i { c.state i with isSet := true }
  | .exception e => modify fun c => c.setState i { c.state i with exception := some e, isSet := true }

/-- `SharedState::takeValue`, of a state that is set. -/
def takeValue (s : SharedState τ ε) : Code τ ε (Option τ) :=
  match s.exception, s.data with
  | some e, _ => throw e
  | none, some v => do
    construct throws
    return some v
  | none, none => return none

/-- `ContinuationRun::run`, where `fulfil` sets its promise. -/
def run (fulfil : Result τ ε → Code τ ε Unit) (r : Return τ ε) : Code τ ε Unit := noexcept do
  try
    match r with
    | .value v => fulfil (.value v)
    | .void => fulfil .ready
    | .throws e => throw e
    | .future s =>
      match ← takeValue throws s with
      | some v => fulfil (.value v)
      | none => fulfil .ready
    | .invalidFuture => fulfil (.exception .brokenPromise)
  catch e => fulfil (.exception e)

/-- `continuation->run()`, and then `~Continuation()`. -/
def runContinuation (fulfil : Result τ ε → Code τ ε Unit) (f : Function τ ε) (i : Nat) :
    Code τ ε Unit := do
  run throws fulfil (f ((← get).state i))
  if (← get).promise (i + 1) then fulfil (.exception .brokenPromise)

/-- `SharedStatePtr(std::move(m_state))->set(..)`, of the promise at `i`. -/
def moveAndSet (i : Nat) (r : Result τ ε) : Code τ ε Unit := do
  liftM (asserting ((← get).promise i))
  modify (·.giveUp i)
  setResult throws i r

/-- The promise at `i`, from which on these are the continuations, is fulfilled. -/
def fulfil : List (Function τ ε) → Nat → Result τ ε → Code τ ε Unit
  | [], i, r => moveAndSet throws i r
  | f :: rest, i, r => do
    moveAndSet throws i r
    runContinuation throws (fulfil rest (i + 1)) f i

def emplaceValue (v : τ) : Code τ ε Unit := do
  fulfil throws (← get).continuations 0 (.value v)

def setValue (v : τ) : Code τ ε Unit := emplaceValue throws v

def setException (e : Exception ε) : Code τ ε Unit := noexcept do
  fulfil throws (← get).continuations 0 (.exception e)

/-- `PackagedTask::operator()`; an empty `std::function` throws. -/
def call (function : Option (Except (Exception ε) τ)) : Code τ ε Unit := noexcept do
  try
    match function with
    | none => throw .badFunctionCall
    | some (.error e) => throw e
    | some (.ok v) => setValue throws v
  catch e => setException throws e

/-- `Future::then`, of the last future. -/
def «then» (f : Function τ ε) : Code τ ε Unit := do
  let c ← get
  let i := c.continuations.length
  set { c with continuations := c.continuations ++ [f] }
  if (c.state i).isSet then noexcept (runContinuation throws (fulfil throws [] (i + 1)) f i)

inductive Act (τ ε : Type) where
  | emplaceValue (v : τ)
  | setValue (v : τ)
  | setException (e : Exception ε)
  | call (function : Option (Except (Exception ε) τ))
  /-- `abandon()` or `~Promise()`. -/
  | abandon
  | «then» (f : Function τ ε)

def code : Act τ ε → Code τ ε Unit
  | .emplaceValue v => emplaceValue throws v
  | .setValue v => setValue throws v
  | .setException e => setException throws e
  | .call function => call throws function
  | .abandon => setException throws .brokenPromise
  | .then f => «then» throws f

/-- A promise is to be used only as long as it is valid. -/
def allowed (c : Config τ ε) : Act τ ε → Bool
  | .then _ => true
  | _ => c.promise 0

/-- The program has to go on. -/
def next (c : Config τ ε) (a : Act τ ε) : Outcome (Config τ ε) := do
  requiring (allowed c a)
  let (r, c) ← mustReturn ((code throws a).run.run c)
  return { c with propagated := match r with | .ok _ => none | .error e => some e }

end

end FutureThrows
