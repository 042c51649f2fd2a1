/-
Strands on a pool: `Strand.h` on top of `ThreadPool.h`.

Any number of strands give their slice tasks to one pool, which has other
tasks as well. A step of the whole is a step of a strand, of the pool, or of
both: where `submit` and `run` of a strand call `m_threadPool->submit`, the
pool takes the step too, and a worker that executes a slice task is in `run` of
its strand until that returns. A task that goes from one queue to another is
dropped in the first and created in the second.
-/
import CxxHeaders.ThreadPoolFifo
import CxxHeaders.StrandSerial

open Outcome LinkedQueue

namespace StrandsOnPool

variable {ι ω σ τ : Type}

/-- What a task of the pool is: the slice task of a strand, or another one. -/
inductive Job (ι τ : Type) where
  | slice (i : ι)
  | other (job : τ)

def Job.isSlice : Job ι τ → Bool
  | .slice _ => true
  | .other _ => false

/-- The strands, the pool, and in which wrapper a strand, or the worker in its
`run`, has the slice task: none while that is in the pool. -/
structure Config (ι ω σ τ : Type) where
  strand : ι → Strand.Config ω σ τ
  pool : ThreadPool.Config ω (Job ι τ)
  sliceTask : ι → Option Nat

inductive Act (ι ω σ τ : Type) where
  | strand (i : ι) (a : Strand.Act ω σ τ)
  | pool (a : ThreadPool.Act ω (Job ι τ))

variable [DecidableEq ι] [DecidableEq ω] [DecidableEq σ]

def Config.setStrand (c : Config ι ω σ τ) (i : ι) (s : Strand.Config ω σ τ) : Config ι ω σ τ :=
  { c with strand := Function.update c.strand i s }

def Config.setSliceTask (c : Config ι ω σ τ) (i : ι) (task : Option Nat) : Config ι ω σ τ :=
  { c with sliceTask := Function.update c.sliceTask i task }

/-- A step of the pool alone. -/
def inPool (c : Config ι ω σ τ) (a : ThreadPool.Act ω (Job ι τ)) : Outcome (Config ι ω σ τ) := do
  let p ← ThreadPool.next c.pool a
  return { c with pool := p }

/-- `m_threadPool->submit(std::move(m_sliceTask))`, or `sliceTask`. -/
def handOver (c : Config ι ω σ τ) (i : ι) : Outcome (Config ι ω σ τ) :=
  match c.sliceTask i with
  | none => .failed
  | some task => inPool (c.setSliceTask i none) (.submit task)

def inStrand (c : Config ι ω σ τ) (i : ι) (a : Strand.Act ω σ τ) : Outcome (Config ι ω σ τ) := do
  let s ← Strand.next (c.strand i) a
  if (c.strand i).pool < s.pool then handOver (c.setStrand i s) i else return c.setStrand i s

/-- A worker executes the task it has popped. A slice task calls `run`. -/
def execute (c : Config ι ω σ τ) (w : ω) : Outcome (Config ι ω σ τ) := do
  let d ← inPool c (.execute w)
  match c.pool.worker w, d.pool.worker w with
  | .popped task, .executing (.slice i) => do
    let s ← Strand.next (c.strand i) (.take w)
    return (d.setStrand i s).setSliceTask i (some task)
  | _, _ => return d

/-- The task of a worker returns. -/
def executed (c : Config ι ω σ τ) (w : ω) : Outcome (Config ι ω σ τ) :=
  match c.pool.worker w with
  | .executing (.slice i) =>
    match (c.strand i).worker w with
    | .idle => inPool c (.executed w)
    | _ => .blocked
  | _ => inPool c (.executed w)

/-- The wrapper is not one with a slice task, which only strands and the pool get. -/
def isOther (c : Config ι ω σ τ) (task : Nat) : Bool := !(c.pool.pool.heap task).value.any Job.isSlice

def next (c : Config ι ω σ τ) : Act ι ω σ τ → Outcome (Config ι ω σ τ)
  | .strand _ (.take _) | .pool (.createTask _ (.slice _)) => .blocked
  | .strand i a => inStrand c i a
  | .pool (.dropTask task) => do
    requiring (isOther c task)
    inPool c (.dropTask task)
  | .pool (.submit task) => do
    requiring (isOther c task)
    inPool c (.submit task)
  | .pool (.execute w) => execute c w
  | .pool (.executed w) => executed c w
  | .pool a => inPool c a

/-- New strands, each with the slice task that its constructor made, and a pool
that has done nothing yet. -/
structure Init (c : Config ι ω σ τ) : Prop where
  strand : ∀ i, Strand.Init (c.strand i)
  pool : Runs.Reachable ThreadPool.next ThreadPool.Init c.pool
  submitted : c.pool.submitted = []
  worker : ∀ w, c.pool.worker w = .idle
  sliceTask : ∀ i a, c.pool.owner a = .caller ∧ (c.pool.pool.heap a).value = some (.slice i) ↔
    c.sliceTask i = some a
  made : ∀ i, (c.sliceTask i).isSome

end StrandsOnPool
