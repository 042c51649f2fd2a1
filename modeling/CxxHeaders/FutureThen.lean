/-
`Future.h`: continuations. Any number of threads make promises, fulfil them and
call `then`; what a mutex guards is one step, and so is what comes between two
such sections.

A shared state has a name, which is also the name of its promise, of its future
and, where the promise is a continuation's, of the continuation. Names are
chosen freely, so that two runs can give the same thing the same name. The
promises and futures that are valid are whoever's that uses them next: the
function of a continuation may be the one, as it runs in a thread. Of a state
whose value was taken the value is kept, but no future is left to take it again.
-/
import CxxHeaders.Future

open Outcome

namespace FutureThen

open Future (Exception)

variable {τ ε : Type}

/-- What a shared state is set to. -/
inductive Result (τ ε : Type) where
  | value (v : τ)
  | ready
  | exception (e : Exception ε)

/-- How the function of a continuation ends. -/
inductive Return (τ ε : Type) where
  | value (v : τ)
  | void
  | throws (e : Exception ε)
  | future (n : Nat)
  | invalidFuture

structure SharedState (τ ε : Type) extends Future.SharedState τ ε where
  continuation : Option Nat

namespace SharedState

def new : SharedState τ ε := ⟨.new, none⟩

/-! What was `m_continuation` is returned. -/

def setException (s : SharedState τ ε) (e : Exception ε) : Outcome (Option Nat × SharedState τ ε) := do
  return (s.continuation, ⟨← s.toSharedState.setException e, none⟩)

def emplaceValue (s : SharedState τ ε) (value : Option τ) : Outcome (Option Nat × SharedState τ ε) := do
  return (s.continuation, ⟨← s.toSharedState.emplaceValue value, none⟩)

def setReady (s : SharedState τ ε) : Outcome (Option Nat × SharedState τ ε) := do
  asserting ¬s.isSet
  return (s.continuation, { s with isSet := true, continuation := none })

def set (s : SharedState τ ε) : Result τ ε → Outcome (Option Nat × SharedState τ ε)
  | .value v => s.emplaceValue (some v)
  | .ready => s.setReady
  | .exception e => s.setException e

/-- `takeValue`, where it does not wait. -/
def takeValue (s : SharedState τ ε) : Result τ ε :=
  match s.exception, s.data with
  | some e, _ => .exception e
  | none, some v => .value v
  | none, none => .ready

/-- `SharedState::then`: the continuation that is to be run is returned. -/
def attach (s : SharedState τ ε) (c : Nat) : Outcome (Option Nat × SharedState τ ε) := do
  asserting s.continuation.isNone
  if s.isSet then return (some c, s)
  return (none, { s with continuation := some c })

end SharedState

/-- `Continuation`: the state of `m_future`, and `m_function`, by what is to be
had from that future. -/
structure Continuation (τ ε : Type) where
  function : Result τ ε → Return τ ε
  future : Nat

/-- What a thread is about to do, in one of the functions it is in. -/
inductive Frame (τ ε : Type) where
  /-- `Future::then` returns the future. -/
  | returning (r : Nat)
  /-- `continuation->run()`. -/
  | run (k : Nat)
  /-- It is in the function of the continuation. -/
  | call (k : Nat)
  /-- `f2.takeValue()`. -/
  | wait (k m : Nat)
  /-- `p.setValue(..)`, `p.setReady()` or `p.setException(..)`. -/
  | set (k : Nat) (o : Result τ ε)

/-- `made` are the names that are used. What was fulfilled other than by a
continuation, and what the continuations were handed, is recorded. -/
structure Config (τ ε : Type) where
  state : Nat → SharedState τ ε
  made : Nat → Bool
  promise : Nat → Bool
  future : Nat → Bool
  continuation : Nat → Option (Continuation τ ε)
  thread : Nat → List (Frame τ ε)
  fulfilled : Nat → Option (Result τ ε)
  invoked : Nat → List (Nat × SharedState τ ε)

namespace Config

variable (c : Config τ ε)

def setState (n : Nat) (s : SharedState τ ε) : Config τ ε :=
  { c with state := Function.update c.state n s }

def setThread (t : Nat) (stack : List (Frame τ ε)) : Config τ ε :=
  { c with thread := Function.update c.thread t stack }

def push (t : Nat) (x : Frame τ ε) : Config τ ε := c.setThread t (x :: c.thread t)

def setPromise (n : Nat) (valid : Bool) : Config τ ε :=
  { c with promise := Function.update c.promise n valid }

def setFuture (n : Nat) (valid : Bool) : Config τ ε :=
  { c with future := Function.update c.future n valid }

/-- `make_shared<SharedState<T>>()`. -/
def makeState (n : Nat) : Config τ ε :=
  { c.setState n .new with made := Function.update c.made n true }

/-- The function of the continuation `k` is handed the future `n`. -/
def invoke (k n : Nat) : Config τ ε :=
  { c.setFuture n true with invoked := Function.update c.invoked k (c.invoked k ++ [(n, c.state n)]) }

/-- The promise is used up. -/
def usePromise (n : Nat) (o : Result τ ε) : Config τ ε :=
  { c.setPromise n false with fulfilled := Function.update c.fulfilled n (some o) }

/-- `make_unique<Continuation<..>>(..)`, for which there is a new promise. -/
def makeContinuation (k : Nat) (x : Continuation τ ε) : Config τ ε :=
  { (c.setFuture x.future false).makeState k with
    continuation := Function.update c.continuation k (some x) }

/-- The thread runs the continuation next, if there is one. -/
def runNext (t : Nat) : Option Nat → Config τ ε
  | none => c
  | some k => c.push t (.run k)

/-- The thread sets the state. -/
def settle (t n : Nat) (o : Result τ ε) : Outcome (Config τ ε) := do
  let (continuation, s) ← (c.state n).set o
  return (c.setState n s).runNext t continuation

/-- The thread attaches the continuation. -/
def attach (t n k : Nat) : Outcome (Config τ ε) := do
  let (continuation, s) ← (c.state n).attach k
  return (c.setState n s).runNext t continuation

/-- A thread calls `then`, or fulfils a promise, by itself or in the function of
a continuation. -/
def isFree : List (Frame τ ε) → Bool
  | [] | .call _ :: _ => true
  | _ => false

end Config

inductive Act (τ ε : Type) where
  /-- `Promise()`, and `takeFuture`. -/
  | promise (n : Nat)
  /-- A thread fulfils the promise, or abandons or destroys it. -/
  | fulfil (t n : Nat) (o : Result τ ε)
  /-- A thread calls `then` of the future `n`, which returns the future `r`. -/
  | attach (t n r : Nat) (function : Result τ ε → Return τ ε)
  | takeValue (n : Nat)
  | destroyFuture (n : Nat)
  /-- The thread goes on. -/
  | go (t : Nat)

/-- A thread goes on with the innermost function. -/
def go (c : Config τ ε) (t : Nat) : List (Frame τ ε) → Outcome (Config τ ε)
  | [] => .blocked
  | .returning r :: rest => return (c.setThread t rest).setFuture r true
  | .run k :: rest =>
    match c.continuation k with
    | none => .failed
    | some x => return (c.setThread t (.call k :: rest)).invoke k x.future
  | .call k :: rest =>
    match c.continuation k with
    | none => .failed
    | some x =>
      match x.function (c.state x.future).takeValue with
      | .value v => return c.setThread t (.set k (.value v) :: rest)
      | .void => return c.setThread t (.set k .ready :: rest)
      | .throws e => return c.setThread t (.set k (.exception e) :: rest)
      | .future m => do
        requiring (c.future m)
        return (c.setThread t (.wait k m :: rest)).setFuture m false
      | .invalidFuture => return c.setThread t (.set k (.exception .brokenPromise) :: rest)
  | .wait k m :: rest => do
    requiring (c.state m).isSet
    return c.setThread t (.set k (c.state m).takeValue :: rest)
  | .set k o :: rest => (c.setThread t rest).settle t k o

def next (c : Config τ ε) : Act τ ε → Outcome (Config τ ε)
  | .promise n => do
    requiring ¬c.made n
    return ((c.makeState n).setPromise n true).setFuture n true
  | .fulfil t n o => do
    requiring (Config.isFree (c.thread t) ∧ c.promise n)
    (c.usePromise n o).settle t n o
  | .attach t n r function => do
    requiring (Config.isFree (c.thread t) ∧ c.future n ∧ ¬c.made r)
    ((c.makeContinuation r ⟨function, n⟩).push t (.returning r)).attach t n r
  | .takeValue n => do
    requiring (c.future n ∧ (c.state n).isSet)
    return c.setFuture n false
  | .destroyFuture n => do
    requiring (c.future n)
    return c.setFuture n false
  | .go t => go c t (c.thread t)

/-- Nothing is made yet. -/
def init : Config τ ε :=
  ⟨fun _ => .new, fun _ => false, fun _ => false, fun _ => false, fun _ => none, fun _ => [],
    fun _ => none, fun _ => []⟩

end FutureThen
