/-
`TimeoutsThread.h`: a thread that executes tasks when their time has come.

`addTask` puts the time point into the task, then inserts the task and notifies
the worker under the mutex: a step each. The worker's steps are what it does
between two moments at which others can have the mutex, or read of the clock:
it locks the mutex, looks for a task, compares the time of the first one with
the clock, waits, takes the first task, and executes it. A wait may end at any
time, and because of a time-out only when the clock has got there.
`boost::intrusive::multiset` inserts behind equal elements.

A task is known by its address. What a task does is up to whoever made it; it
is given back for that, and may be added again. One thread at a time calls
`stop`: `m_stopTask` is not under the mutex.
-/
import CxxHeaders.Runs
import CxxHeaders.StableInsert
import Mathlib.Logic.Function.Basic

open Outcome

/-- `m_tasks`, whether `m_stopTask` is set, and what is in the tasks:
`m_timePoint`, and whether `m_selfPtr` is set. -/
structure TimeoutsThread (τ : Type) where
  tasks : List Nat
  stopTask : Bool
  timePoint : Nat → τ
  selfPtr : Nat → Bool

namespace TimeoutsThread

variable {τ : Type} [LinearOrder τ]

/-- What `addTask` does before it locks the mutex. -/
def prepare (s : TimeoutsThread τ) (task : Nat) (timePoint : τ) : Outcome (TimeoutsThread τ) := do
  asserting ¬s.selfPtr task
  return { s with
    selfPtr := Function.update s.selfPtr task true, timePoint := Function.update s.timePoint task timePoint }

def insert (s : TimeoutsThread τ) (task : Nat) : TimeoutsThread τ :=
  { s with tasks := StableInsert.insert s.timePoint task s.tasks }

def takeFirstTask (s : TimeoutsThread τ) : Outcome (TimeoutsThread τ × Nat) :=
  match s.tasks with
  | [] => .failed
  | task :: rest => do
    asserting (s.selfPtr task)
    return ({ s with tasks := rest, selfPtr := Function.update s.selfPtr task false }, task)

/-- Where the worker stands in `run`. A wait may have been notified. -/
inductive Worker (τ : Type) where
  | starting
  | locked
  | waiting (notified : Bool)
  | choosing
  | waitingUntil (timePoint : τ) (notified : Bool)
  /-- It is going to take a task. -/
  | due
  | took (task : Nat)
  | executing (task : Nat)
  | stopped

namespace Worker

def hasLock : Worker τ → Bool
  | .locked | .choosing | .due => true
  | _ => false

/-- `m_cond.notify_one()` -/
def notify : Worker τ → Worker τ
  | .waiting _ => .waiting true
  | .waitingUntil timePoint _ => .waitingUntil timePoint true
  | w => w

end Worker

inductive Owner where
  | nobody
  | caller
  /-- A call of `addTask`. -/
  | call
  | thread
  deriving DecidableEq

/-- The thread, where its `StopTask` is, the clock, the worker, and who owns
which task. What was added is recorded in order, and what was taken and
executed by its number there, which a task bears as its `stamp`. -/
structure Config (τ : Type) where
  thread : TimeoutsThread τ
  stop : Nat
  now : τ
  worker : Worker τ
  owner : Nat → Owner
  stamp : Nat → Nat
  added : List (Nat × τ)
  taken : List Nat
  executed : List Nat

inductive Act (τ : Type) where
  | createTask (task : Nat)
  | dropTask (task : Nat)
  | addTask (task : Nat) (timePoint : τ)
  /-- The call inserts its task. -/
  | insert (task : Nat)
  | stop
  /-- Time passes. -/
  | tick (now : τ)
  | lock
  | look
  | choose
  | wake (timeout : Bool)
  | take
  | execute
  /-- The task returns. -/
  | executed

/-- `epoch` is `Clock::time_point()`. -/
def next (epoch : τ) (c : Config τ) : Act τ → Outcome (Config τ)
  | .createTask task => do
    requiring (c.owner task = .nobody)
    return { c with
      thread := { c.thread with selfPtr := Function.update c.thread.selfPtr task false }
      owner := Function.update c.owner task .caller }
  | .dropTask task => do
    requiring (c.owner task = .caller)
    return { c with owner := Function.update c.owner task .nobody }
  | .addTask task timePoint => do
    requiring (c.owner task = .caller)
    return { c with
      thread := ← c.thread.prepare task timePoint, owner := Function.update c.owner task .call }
  | .insert task => do
    requiring (c.owner task = .call ∧ ¬c.worker.hasLock)
    return { c with
      thread := c.thread.insert task, owner := Function.update c.owner task .thread
      worker := c.worker.notify, stamp := Function.update c.stamp task c.added.length
      added := c.added ++ [(task, c.thread.timePoint task)] }
  | .stop =>
    if c.thread.stopTask then do
      let thread ← c.thread.prepare c.stop epoch
      return { c with
        thread := { thread with stopTask := false }, owner := Function.update c.owner c.stop .call }
    else return c
  | .tick now => do
    requiring (c.now ≤ now)
    return { c with now }
  | .lock =>
    match c.worker with
    | .starting => return { c with worker := .locked }
    | _ => .blocked
  | .look =>
    match c.worker with
    | .locked => return { c with worker := if c.thread.tasks.isEmpty then .waiting false else .choosing }
    | _ => .blocked
  | .choose =>
    match c.worker, c.thread.tasks with
    | .choosing, [] => .failed
    | .choosing, task :: _ =>
      let nextTimePoint := c.thread.timePoint task
      return { c with worker := if nextTimePoint ≤ c.now then .due else .waitingUntil nextTimePoint false }
    | _, _ => .blocked
  | .wake timeout =>
    match c.worker with
    | .waiting _ => do
      requiring ¬timeout
      return { c with worker := .locked }
    | .waitingUntil timePoint _ => do
      requiring (timeout → timePoint ≤ c.now)
      return { c with worker := if timeout then .due else .choosing }
    | _ => .blocked
  | .take =>
    match c.worker with
    | .due => do
      let (thread, task) ← c.thread.takeFirstTask
      return { c with thread, worker := .took task, taken := c.taken ++ [c.stamp task] }
    | _ => .blocked
  | .execute =>
    match c.worker with
    | .took task =>
      if task = c.stop then return { c with worker := .stopped }
      else return { c with
        worker := .executing task, owner := Function.update c.owner task .caller
        executed := c.executed ++ [c.stamp task] }
    | _ => .blocked
  | .executed =>
    match c.worker with
    | .executing _ => return { c with worker := .starting }
    | _ => .blocked

/-- A new thread: its `StopTask` is at `stop`. -/
def new (stop : Nat) (now : τ) (garbage : Nat → τ) : Config τ where
  thread := ⟨[], true, garbage, fun _ => false⟩
  stop := stop
  now := now
  worker := .starting
  owner := Function.update (fun _ => .nobody) stop .thread
  stamp _ := 0
  added := []
  taken := []
  executed := []

def Init (c : Config τ) : Prop := ∃ stop now garbage, c = new stop now garbage

end TimeoutsThread
