/-
`ThreadPool.h`: a queue of tasks with two locks.

`submit` works at the tail, under the tail lock. `waitAndPop` holds the head
lock from beginning to end: it looks at `m_stop` and at both ends under the
tail lock, waits there as long as it must, and then takes the head off with
the tail lock released. Each of these sections is a step of its own (`next`),
and so is what a worker does with the task it got. A wait may end at any time.
-/
import CxxHeaders.Runs
import CxxHeaders.LinkedQueue

open Outcome LinkedQueue

/-- `m_head`, `m_tail` and the wrappers in memory; `m_stop`. -/
structure ThreadPool (τ : Type) extends Queue τ where
  stop : Bool

namespace ThreadPool

variable {τ : Type}

def submit (p : ThreadPool τ) (task : Nat) : Outcome (ThreadPool τ) := do
  asserting (p.heap task).value.isSome
  asserting ((p.heap task).next = none)
  return { p with heap := link p.heap p.tail task, tail := task }

def notifyStop (p : ThreadPool τ) : ThreadPool τ := { p with stop := true }

/-- What `waitAndPop` finds under the tail lock. -/
inductive Finding where
  | stopNotified
  | available
  | empty

def check (p : ThreadPool τ) : Finding :=
  if p.stop then .stopNotified else if p.head ≠ some p.tail then .available else .empty

/-- The end of `waitAndPop`, which gives out the old head. -/
def detach (p : ThreadPool τ) : Outcome (ThreadPool τ × Nat) :=
  match p.head with
  | none => .failed
  | some oldHead => do
    asserting (p.heap oldHead).value.isSome
    return ({ p with heap := unlink p.heap oldHead, head := (p.heap oldHead).next }, oldHead)

/-- Where a worker stands. -/
inductive Worker (τ : Type) where
  | idle
  /-- In `waitAndPop`, about to look. -/
  | locked
  | waiting
  /-- There was a task, and there was no stop. -/
  | found
  | popped (task : Nat)
  | executing (job : τ)

namespace Worker

/-- In `waitAndPop`, with the head lock. -/
def isInside : Worker τ → Bool
  | .locked | .waiting | .found => true
  | _ => false

end Worker

/-- Who owns a `TaskWrapper`. -/
inductive Owner (ω : Type) where
  | nobody
  | caller
  | pool
  | worker (w : ω)
  deriving DecidableEq

/-- The pool, who holds its head lock, and the workers; who owns which
wrapper, and the jobs submitted and popped so far. -/
structure Config (ω τ : Type) where
  pool : ThreadPool τ
  headMutex : Option ω
  worker : ω → Worker τ
  owner : Nat → Owner ω
  submitted : List τ
  popped : List τ

inductive Act (ω τ : Type) where
  | createTask (task : Nat) (job : τ)
  | dropTask (task : Nat)
  | submit (task : Nat)
  | notifyStop
  /-- `waitAndPop` begins. -/
  | lockHead (w : ω)
  | check (w : ω)
  /-- The wait of the other `waitAndPop` ends without a task. -/
  | timeout (w : ω)
  | detach (w : ω)
  | execute (w : ω)
  /-- The job returns. -/
  | executed (w : ω)

variable {ω : Type}

/-- A new pool: its empty wrapper is at `dummy`, and nobody works for it. -/
def new (dummy : Nat) (garbage : Nat → Node τ) : Config ω τ where
  pool := ⟨⟨Function.update garbage dummy ⟨none, none⟩, some dummy, dummy⟩, false⟩
  headMutex := none
  worker _ := .idle
  owner := Function.update (fun _ => .nobody) dummy .pool
  submitted := []
  popped := []

def Init (c : Config ω τ) : Prop := ∃ dummy garbage, c = new dummy garbage

variable [DecidableEq ω]

def next (c : Config ω τ) : Act ω τ → Outcome (Config ω τ)
  | .createTask task job => do
    requiring (c.owner task = .nobody)
    return { c with
      pool := { c.pool with heap := Function.update c.pool.heap task ⟨some job, none⟩ },
      owner := Function.update c.owner task .caller }
  | .dropTask task => do
    requiring (c.owner task = .caller)
    return { c with owner := Function.update c.owner task .nobody }
  | .submit task => do
    requiring (c.owner task = .caller)
    let p ← c.pool.submit task
    return { c with
      pool := p, owner := Function.update c.owner task .pool,
      submitted := c.submitted ++ (c.pool.heap task).value.toList }
  | .notifyStop => return { c with pool := c.pool.notifyStop }
  | .lockHead w =>
    match c.worker w with
    | .idle => do
      requiring (c.headMutex = none)
      asserting c.pool.head.isSome
      return { c with headMutex := some w, worker := Function.update c.worker w .locked }
    | _ => .blocked
  | .check w =>
    match c.worker w with
    | .locked | .waiting =>
      match c.pool.check with
      | .stopNotified => return { c with
        headMutex := none, worker := Function.update c.worker w .idle }
      | .available => return { c with worker := Function.update c.worker w .found }
      | .empty => return { c with worker := Function.update c.worker w .waiting }
    | _ => .blocked
  | .timeout w =>
    match c.worker w with
    | .waiting => return { c with headMutex := none, worker := Function.update c.worker w .idle }
    | _ => .blocked
  | .detach w =>
    match c.worker w with
    | .found => do
      let (p, task) ← c.pool.detach
      return { c with
        pool := p, headMutex := none, worker := Function.update c.worker w (.popped task),
        owner := Function.update c.owner task (.worker w),
        popped := c.popped ++ (p.heap task).value.toList }
    | _ => .blocked
  | .execute w =>
    match c.worker w with
    | .popped task =>
      match (c.pool.heap task).value with
      | none => .failed
      | some job => return { c with
        worker := Function.update c.worker w (.executing job),
        owner := Function.update c.owner task .caller }
    | _ => .blocked
  | .executed w =>
    match c.worker w with
    | .executing _ => return { c with worker := Function.update c.worker w .idle }
    | _ => .blocked

end ThreadPool
