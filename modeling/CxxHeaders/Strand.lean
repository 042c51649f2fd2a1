/-
`Strand.h`: jobs that must not run in parallel, on a thread pool that may.

The strand has one slice task. It is in `m_sliceTask` while there is nothing
to do, and otherwise handed to the pool, whose worker runs one job and then
gives it back or hands it to the pool again. Every critical section of
`submit`, `run` and the stop methods is a step of its own (`next`), and so is
what a worker does between them. Of the pool only this is modelled: it holds
so many copies of the slice task, and a worker that takes one runs it.
-/
import CxxHeaders.Runs
import CxxHeaders.LinkedQueue

open Outcome LinkedQueue

/-- `Strand::Internal`: the queue of its jobs, and whether `m_threadPool` and
`m_sliceTask` are set. -/
structure Strand (τ : Type) extends Queue τ where
  threadPool : Bool
  sliceTask : Bool

namespace Strand

variable {τ : Type}

/-- Also whether the slice task goes to the pool. -/
def submit (s : Strand τ) (task : Nat) : Outcome (Strand τ × Bool) := do
  asserting (s.heap task).value.isSome
  asserting ((s.heap task).next = none)
  let s := { s with heap := link s.heap s.tail task, tail := task }
  if s.sliceTask ∧ s.threadPool then return ({ s with sliceTask := false }, true)
  return (s, false)

/-- The first critical section of `run`: the task at the front, or none if
the strand is stopping. -/
def retrieve (s : Strand τ) : Outcome (Strand τ × Option Nat) := do
  if ¬s.threadPool then
    asserting ¬s.sliceTask
    return ({ s with sliceTask := true }, none)
  match s.head with
  | none => .failed
  | some task => do
    asserting (task ≠ s.tail)
    asserting (s.heap task).value.isSome
    asserting (s.heap task).next.isSome
    return ({ s with heap := unlink s.heap task, head := (s.heap task).next }, some task)

/-- The last critical section of `run`; also whether the slice task goes to
the pool. -/
def resubmit (s : Strand τ) : Outcome (Strand τ × Bool) := do
  if s.threadPool ∧ s.head ≠ some s.tail then return (s, true)
  asserting ¬s.sliceTask
  return ({ s with sliceTask := true }, false)

/-- Where a worker of the pool stands in `run`. -/
inductive Worker (τ : Type) where
  | idle
  /-- It has been given the slice task. -/
  | started
  | retrieved (task : Nat)
  | executing (job : τ)
  | executed

/-- Where a call of `stopAndJoin` stands. -/
inductive Stopper where
  | idle
  | waiting
  | returned

/-- Who owns a `TaskWrapper`. -/
inductive Owner where
  | nobody
  | caller
  | strand
  deriving DecidableEq

/-- The strand, how many copies of its slice task the pool holds, the workers
and the threads that stop the strand; who owns which wrapper, and the jobs
submitted and started so far. -/
structure Config (ω σ τ : Type) where
  strand : Strand τ
  pool : Nat
  worker : ω → Worker τ
  stopper : σ → Stopper
  owner : Nat → Owner
  submitted : List τ
  started : List τ

inductive Act (ω σ τ : Type) where
  | createTask (task : Nat) (job : τ)
  | dropTask (task : Nat)
  | submit (task : Nat)
  /-- A worker takes the slice task from the pool. -/
  | take (w : ω)
  | retrieve (w : ω)
  | execute (w : ω)
  /-- The job returns. -/
  | executed (w : ω)
  | resubmit (w : ω)
  | stopAndJoin (s : σ)
  /-- The wait of `stopAndJoin` ends. -/
  | joined (s : σ)
  /-- `stopAndMaybeJoin`, called from within a job. -/
  | stopInJob (w : ω)

variable {ω σ : Type} [DecidableEq ω] [DecidableEq σ]

def next (c : Config ω σ τ) : Act ω σ τ → Outcome (Config ω σ τ)
  | .createTask task job => do
    requiring (c.owner task = .nobody)
    return { c with
      strand := { c.strand with heap := Function.update c.strand.heap task ⟨some job, none⟩ },
      owner := Function.update c.owner task .caller }
  | .dropTask task => do
    requiring (c.owner task = .caller)
    return { c with owner := Function.update c.owner task .nobody }
  | .submit task => do
    requiring (c.owner task = .caller)
    let (s, handed) ← c.strand.submit task
    return { c with
      strand := s, pool := c.pool + handed.toNat, owner := Function.update c.owner task .strand,
      submitted := c.submitted ++ (c.strand.heap task).value.toList }
  | .take w =>
    match c.worker w with
    | .idle => do
      requiring (0 < c.pool)
      return { c with pool := c.pool - 1, worker := Function.update c.worker w .started }
    | _ => .blocked
  | .retrieve w =>
    match c.worker w with
    | .started => do
      let (s, task) ← c.strand.retrieve
      return { c with strand := s, worker := Function.update c.worker w (task.elim .idle .retrieved) }
    | _ => .blocked
  | .execute w =>
    match c.worker w with
    | .retrieved task =>
      match (c.strand.heap task).value with
      | none => .failed
      | some job => return { c with
        worker := Function.update c.worker w (.executing job),
        owner := Function.update c.owner task .caller, started := c.started ++ [job] }
    | _ => .blocked
  | .executed w =>
    match c.worker w with
    | .executing _ => return { c with worker := Function.update c.worker w .executed }
    | _ => .blocked
  | .resubmit w =>
    match c.worker w with
    | .executed => do
      let (s, handed) ← c.strand.resubmit
      return { c with
        strand := s, pool := c.pool + handed.toNat, worker := Function.update c.worker w .idle }
    | _ => .blocked
  | .stopAndJoin s =>
    match c.stopper s with
    | .idle => return { c with
      strand := { c.strand with threadPool := false }, stopper := Function.update c.stopper s .waiting }
    | _ => .blocked
  | .joined s =>
    match c.stopper s with
    | .waiting => do
      requiring c.strand.sliceTask
      return { c with stopper := Function.update c.stopper s .returned }
    | _ => .blocked
  | .stopInJob w =>
    match c.worker w with
    | .executing _ => return { c with strand := { c.strand with threadPool := false } }
    | _ => .blocked

/-- A new strand: its empty node is at `dummy`, its slice task is made, and
nothing runs. -/
def new (dummy : Nat) (threadPool : Bool) (garbage : Nat → Node τ) : Config ω σ τ where
  strand := ⟨⟨Function.update garbage dummy ⟨none, none⟩, some dummy, dummy⟩, threadPool, true⟩
  pool := 0
  worker _ := .idle
  stopper _ := .idle
  owner := Function.update (fun _ => .nobody) dummy .strand
  submitted := []
  started := []

def Init (c : Config ω σ τ) : Prop := ∃ dummy threadPool garbage, c = new dummy threadPool garbage

end Strand
