/-
`Future.h`: who keeps a shared state, and what becomes of the value in it.

Everything that points to a shared state is a `std::shared_ptr`: `m_state` and
`m_futureState` of a promise, `m_state` of a future, and the temporary that
keeps a state while it is set. A continuation has a promise and a future of its
own. A pointer that is given up is on its way out until it is released, and
with the last one goes the state. The steps of any number of threads may come
in any order; what a continuation's function does are steps too.
-/
import CxxHeaders.FutureThen
import CxxHeaders.UseCounts

open Outcome

namespace FutureLifetimes

open Future (Exception)

variable {τ ε : Type}

/-- What a promise sets its state to. A value may fail to be constructed, and
an exception pointer may be null. -/
inductive Setting (τ ε : Type) where
  | value (v : Option τ)
  | ready
  | exception (e : Option (Exception ε))

/-- A shared state, whether it is a `SharedState<void>`, which has no `m_data`,
and how often a value was constructed and destroyed in `m_data`. -/
structure SharedState (τ ε : Type) extends toThenState : FutureThen.SharedState τ ε where
  void : Bool
  constructed : Nat
  destroyed : Nat

namespace SharedState

def new (void : Bool) : SharedState τ ε := ⟨.new, void, 0, 0⟩

/-! What was `m_continuation` is returned. -/

def emplaceValue (s : SharedState τ ε) (value : Option τ) : Outcome (Option Nat × SharedState τ ε) := do
  requiring ¬s.void
  let (k, t) ← s.toThenState.emplaceValue value
  return (k, { s with toThenState := t, constructed := s.constructed + 1 })

def setReady (s : SharedState τ ε) : Outcome (Option Nat × SharedState τ ε) := do
  requiring s.void
  let (k, t) ← s.toThenState.setReady
  return (k, { s with toThenState := t })

def setException (s : SharedState τ ε) (e : Option (Exception ε)) :
    Outcome (Option Nat × SharedState τ ε) := do
  asserting ¬s.isSet
  return (s.continuation, { s with exception := e, isSet := true, continuation := none })

def set (s : SharedState τ ε) : Setting τ ε → Outcome (Option Nat × SharedState τ ε)
  | .value v => s.emplaceValue v
  | .ready => s.setReady
  | .exception e => s.setException e

/-- `takeValue`, which waits until the state is set. `m_data` is read, unless
there is an exception or no `m_data`. -/
def takeValue (s : SharedState τ ε) : Outcome (FutureThen.Result τ ε) := do
  requiring s.isSet
  match s.exception with
  | some e => return .exception e
  | none =>
    if s.void then return .ready
    match s.data with
    | some v => return .value v
    | none => .failed

/-- `SharedState::then`: the continuation that is to be run is returned. -/
def attach (s : SharedState τ ε) (k : Nat) : Outcome (Option Nat × SharedState τ ε) := do
  let (run, t) ← s.toThenState.attach k
  return (run, { s with toThenState := t })

end SharedState

/-- Where a promise or a future is: by itself, or in a continuation. -/
inductive Place where
  | named (n : Nat)
  | continuation (k : Nat)
  deriving DecidableEq

/-- The pointers to shared states. -/
inductive Handle where
  | state (l : Place)
  | futureState (p : Nat)
  | future (l : Place)
  /-- What keeps the state whose setting runs the continuation. -/
  | temp (k : Nat)
  deriving DecidableEq

/-- Where a continuation is. -/
inductive Stage where
  | absent
  /-- In `m_continuation`. -/
  | attached
  | running
  | finished
  deriving DecidableEq

/-- The shared states, of which `made` were made so far, and their use counts;
the pointers to them, those on their way out, and which objects exist. -/
structure Config (τ ε : Type) where
  state : Nat → SharedState τ ε
  made : Nat
  uses : Nat → Nat
  ptr : Handle → Option Nat
  dying : List Nat
  promise : Nat → Bool
  future : Nat → Bool
  stage : Nat → Stage

namespace Config

def setState (c : Config τ ε) (s : Nat) (x : SharedState τ ε) : Config τ ε :=
  { c with state := Function.update c.state s x }

/-- The pointer goes. -/
def drop (c : Config τ ε) (h : Handle) : Config τ ε :=
  match c.ptr h with
  | none => c
  | some s => { c with ptr := Function.update c.ptr h none, dying := s :: c.dying }

def swap (c : Config τ ε) (h k : Handle) : Config τ ε :=
  { c with ptr := Function.update (Function.update c.ptr h (c.ptr k)) k (c.ptr h) }

/-- `h = std::move(k)` -/
def assign (c : Config τ ε) (h k : Handle) : Config τ ε :=
  if h = k then c else (c.drop h).swap h k

/-- The empty pointer `h` is set to the state `s`. -/
def point (c : Config τ ε) (h : Handle) (s : Nat) : Config τ ε :=
  { c with ptr := Function.update c.ptr h (some s), uses := Function.update c.uses s (c.uses s + 1) }

/-- `Promise()`, with its `m_futureState` at `h`. -/
def newPromise (c : Config τ ε) (l : Place) (h : Handle) (void : Bool) : Config τ ε :=
  let s := c.made
  (({ c with made := s + 1 }.setState s (.new void)).point (.state l) s).point h s

/-- `SharedStatePtr(std::move(m_state))->set(..)`, which runs a continuation
with the temporary pointer in place. -/
def settle (c : Config τ ε) (l : Place) (x : Setting τ ε) : Outcome (Config τ ε) :=
  match c.ptr (.state l) with
  | none => .failed
  | some s => do
    let (run, t) ← (c.state s).set x
    let c := c.setState s t
    match run with
    | none => return c.drop (.state l)
    | some k => return { c.swap (.state l) (.temp k) with stage := Function.update c.stage k .running }

/-- `~Promise()`, but for `m_futureState`. -/
def breakPromise (c : Config τ ε) (l : Place) : Outcome (Config τ ε) :=
  match c.ptr (.state l) with
  | none => return c
  | some _ => c.settle l (.exception (some .brokenPromise))

/-- `~Continuation()` -/
def destroyContinuation (c : Config τ ε) (k : Nat) : Outcome (Config τ ε) := do
  let c ← (c.drop (.future (.continuation k))).breakPromise (.continuation k)
  let c := c.drop (.temp k)
  return { c with stage := Function.update c.stage k .absent }

/-- A pointer on its way out is released. The last one destroys the state:
`m_continuation` goes, and of `m_data`, which is raw storage, nothing is known. -/
def release (c : Config τ ε) (s : Nat) : Outcome (Config τ ε) :=
  let c := { c with dying := c.dying.erase s, uses := Function.update c.uses s (c.uses s - 1) }
  if c.uses s = 0 then
    match (c.state s).continuation with
    | none => return c
    | some k => c.destroyContinuation k
  else return c

/-- A future that can be used: that of a continuation by its function. -/
def hasFuture (c : Config τ ε) : Place → Bool
  | .named f => c.future f
  | .continuation k => c.stage k = .running

end Config

inductive Act (τ ε : Type) where
  | promise (p : Nat) (void : Bool)
  | movePromise (p move : Nat)
  | assignPromise (p move : Nat)
  | swapPromise (p other : Nat)
  /-- `emplaceValue`, `setValue`, `setReady`, `setException` or `abandon`. -/
  | set (p : Nat) (x : Setting τ ε)
  | destroyPromise (p : Nat)
  | takeFuture (p f : Nat)
  | future (f : Nat)
  | moveFuture (f : Nat) (move : Place)
  | assignFuture (l move : Place)
  | swapFuture (l other : Place)
  | takeValue (l : Place)
  | destroyFuture (f : Nat)
  /-- A future of a `void` or another type is returned as `f`. -/
  | then (l : Place) (k f : Nat) (void : Bool)
  /-- The function of a continuation has returned or thrown. -/
  | finish (k : Nat) (x : Setting τ ε)
  | destroyContinuation (k : Nat)
  | release (s : Nat)

def next (c : Config τ ε) : Act τ ε → Outcome (Config τ ε)
  | .promise p void => do
    requiring ¬c.promise p
    let c := c.newPromise (.named p) (.futureState p) void
    return { c with promise := Function.update c.promise p true }
  | .movePromise p move => do
    requiring (¬c.promise p ∧ c.promise move)
    let c := (c.swap (.state (.named p)) (.state (.named move))).swap (.futureState p) (.futureState move)
    return { c with promise := Function.update c.promise p true }
  | .assignPromise p move => do
    requiring (c.promise p ∧ c.promise move)
    return (c.assign (.state (.named p)) (.state (.named move))).assign (.futureState p) (.futureState move)
  | .swapPromise p other => do
    requiring (c.promise p ∧ c.promise other)
    return (c.swap (.state (.named p)) (.state (.named other))).swap (.futureState p) (.futureState other)
  | .set p x => do
    requiring (c.promise p)
    c.settle (.named p) x
  | .destroyPromise p => do
    requiring (c.promise p)
    let c ← c.breakPromise (.named p)
    let c := c.drop (.futureState p)
    return { c with promise := Function.update c.promise p false }
  | .takeFuture p f => do
    requiring (c.promise p ∧ ¬c.future f)
    asserting (c.ptr (.futureState p)).isSome
    let c := c.swap (.future (.named f)) (.futureState p)
    return { c with future := Function.update c.future f true }
  | .future f => do
    requiring ¬c.future f
    return { c with future := Function.update c.future f true }
  | .moveFuture f move => do
    requiring (¬c.future f ∧ c.hasFuture move)
    let c := c.swap (.future (.named f)) (.future move)
    return { c with future := Function.update c.future f true }
  | .assignFuture l move => do
    requiring (c.hasFuture l ∧ c.hasFuture move)
    return c.assign (.future l) (.future move)
  | .swapFuture l other => do
    requiring (c.hasFuture l ∧ c.hasFuture other)
    return c.swap (.future l) (.future other)
  | .takeValue l => do
    requiring (c.hasFuture l)
    match c.ptr (.future l) with
    | none => .failed
    | some s => do
      let _ ← (c.state s).takeValue
      return c.drop (.future l)
  | .destroyFuture f => do
    requiring (c.future f)
    let c := c.drop (.future (.named f))
    return { c with future := Function.update c.future f false }
  | .then l k f void => do
    requiring (c.hasFuture l ∧ c.stage k = .absent ∧ ¬c.future f)
    match c.ptr (.future l) with
    | none => .failed
    | some s => do
      let c := (c.newPromise (.continuation k) (.future (.named f)) void).swap
        (.future (.continuation k)) (.future l)
      let (run, t) ← (c.state s).attach k
      let c := c.setState s t
      return { c with
        stage := Function.update c.stage k (if run.isSome then .running else .attached)
        future := Function.update c.future f true }
  | .finish k x => do
    requiring (c.stage k = .running)
    let c ← c.settle (.continuation k) x
    return { c with stage := Function.update c.stage k .finished }
  | .destroyContinuation k => do
    requiring (c.stage k = .finished)
    c.destroyContinuation k
  | .release s => do
    requiring (s ∈ c.dying)
    c.release s

/-- What is asked of the caller: that promises and futures are valid where
the operation needs it. -/
def Allowed (c : Config τ ε) : Act τ ε → Prop
  | .set p _ => c.promise p → c.ptr (.state (.named p)) ≠ none
  | .takeFuture p _ => c.promise p → c.ptr (.futureState p) ≠ none
  | .takeValue l | .then l _ _ _ => c.hasFuture l → c.ptr (.future l) ≠ none
  | _ => True

/-- Nothing is made yet. -/
def init : Config τ ε where
  state _ := .new false
  made := 0
  uses _ := 0
  ptr _ := none
  dying := []
  promise _ := false
  future _ := false
  stage _ := .absent

end FutureLifetimes
