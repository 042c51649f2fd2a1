/-
`ParticipatoryThreadPool.h`: a pool whose workers are the threads that come by.

A thread that takes part gets a place first, of which there are `max`, is then
one of the workers of the `ThreadPool`, and gives its place back at last; `join`
waits until nobody has one. Each of these sections under `m_mutex` is a step
(`next`), as are the steps of the pool. There are two condition variables
(`signals`): the one of the pool, and `m_cond`, for places and for `join`.
-/
import CxxHeaders.ThreadPoolSleepers

open Outcome

namespace ParticipatoryThreadPool

/-- `ThreadPool::Status` -/
inductive Status where
  | ok
  | timeout
  | stopNotified
  deriving DecidableEq

/-- Which of the `participate` methods it is: for one task only, or until some
time only. -/
structure Mode where
  once : Bool
  timed : Bool

/-- Where a thread is. -/
inductive Role where
  | outside
  /-- It waits for a place. -/
  | entering (m : Mode)
  /-- It has one, and is a worker of the pool. -/
  | inside (m : Mode)
  /-- It still has it, and knows what to return. -/
  | leaving (status : Status)
  | joining

/-- It has a place. -/
def Role.takesPart : Role → Bool
  | .inside _ | .leaving _ => true
  | _ => false

structure Config (ω τ : Type) where
  pool : ThreadPool.Config ω τ
  numParticipants : Nat
  role : ω → Role
  returned : List (ω × Status)
  joined : Nat

inductive Act (ω τ : Type) where
  /-- Of a worker that takes part, or of anybody. -/
  | pool (a : ThreadPool.Act ω τ)
  | participate (w : ω) (m : Mode)
  /-- A thread that waits for a place looks again. -/
  | enter (w : ω)
  /-- Its time is over. -/
  | giveUp (w : ω)
  | leave (w : ω)
  | join (w : ω)
  /-- A thread in `join` looks again. -/
  | joined (w : ω)

variable {ω τ : Type}

def isTimeout : ThreadPool.Act ω τ → Bool
  | .timeout _ => true
  | _ => false

/-- Where a worker is after its action, which left it so in the pool. -/
def goesOn (m : Mode) : ThreadPool.Act ω τ → ThreadPool.Worker τ → Role
  | .check _, .idle => .leaving .stopNotified
  | .timeout _, _ => .leaving .timeout
  | .executed _, _ => if m.once then .leaving .ok else .inside m
  | _, _ => .inside m

variable [DecidableEq ω]

namespace Config

def setRole (c : Config ω τ) (w : ω) (r : Role) : Config ω τ :=
  { c with role := Function.update c.role w r }

/-- `ParticipatorContext`: the look at the number of places. -/
def enter (max : Nat) (c : Config ω τ) (w : ω) (m : Mode) : Config ω τ :=
  if c.numParticipants < max then { c.setRole w (.inside m) with
    numParticipants := c.numParticipants + 1 }
  else c.setRole w (.entering m)

/-- The look of `join`. -/
def awaitEmpty (c : Config ω τ) (w : ω) : Config ω τ :=
  if c.numParticipants = 0 then { c.setRole w .outside with joined := c.joined + 1 }
  else c.setRole w .joining

/-- A thread returns. -/
def finish (c : Config ω τ) (w : ω) (status : Status) : Config ω τ :=
  { c.setRole w .outside with returned := (w, status) :: c.returned }

end Config

def next (max : Nat) (c : Config ω τ) : Act ω τ → Outcome (Config ω τ)
  | .pool a =>
    match ThreadPool.actor a with
    | none => do return { c with pool := ← ThreadPool.next c.pool a }
    | some w =>
      match c.role w with
      | .inside m => do
        requiring (isTimeout a → m.timed)
        let pool ← ThreadPool.next c.pool a
        return { c.setRole w (goesOn m a (pool.worker w)) with pool }
      | _ => .blocked
  | .participate w m =>
    match c.role w with
    | .outside => return c.enter max w m
    | _ => .blocked
  | .enter w =>
    match c.role w with
    | .entering m => return c.enter max w m
    | _ => .blocked
  | .giveUp w =>
    match c.role w with
    | .entering m => do
      requiring (m.timed ∧ ¬c.numParticipants < max)
      return c.finish w .timeout
    | _ => .blocked
  | .leave w =>
    match c.role w with
    | .leaving status => do
      asserting (0 < c.numParticipants)
      return { c.finish w status with numParticipants := c.numParticipants - 1 }
    | _ => .blocked
  | .join w =>
    match c.role w with
    | .outside => return c.awaitEmpty w
    | _ => .blocked
  | .joined w =>
    match c.role w with
    | .joining => return c.awaitEmpty w
    | _ => .blocked

/-- A new pool, where nobody is. -/
def Init (c : Config ω τ) : Prop :=
  ThreadPool.Init c.pool ∧ c.numParticipants = 0 ∧ (∀ w, c.role w = .outside) ∧ c.returned = [] ∧
    c.joined = 0

/-- The condition variables: `m_dataCond` of the pool, and `m_cond`. -/
inductive Cond where
  | data
  | participants
  deriving DecidableEq

def signals (max : Nat) : Signals (Config ω τ) (Act ω τ) ω Cond where
  actor
    | .pool a => ThreadPool.actor a
    | .participate w _ | .enter w | .giveUp w | .leave w | .join w | .joined w => some w
  sleeps c
    | .pool a => (ThreadPool.signals.sleeps c.pool a).map fun _ => .data
    | .participate _ _ | .enter _ => if c.numParticipants < max then none else some .participants
    | .join _ | .joined _ => if c.numParticipants = 0 then none else some .participants
    | _ => none
  notifies c
    | .pool a => match ThreadPool.signals.notifies c.pool a with
      | .nobody => .nobody
      | .one _ => .one .data
      | .all _ => .all .data
    | .leave _ => .all .participants
    | _ => .nobody

end ParticipatoryThreadPool
