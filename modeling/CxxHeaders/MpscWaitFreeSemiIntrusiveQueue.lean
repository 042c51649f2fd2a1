/-
`MpscWaitFreeSemiIntrusiveQueue.h`: a queue with many producers and one
consumer, which share no lock.

Its nodes are linked from `m_head` to `m_tail`. The first one is empty: a pop
moves the data of the second node into the first and gives that one out. A push
exchanges the tail and then links the old one to the new. Every access to
memory is a step of its own (`next`), and all of them happen one after another.
Whoever has a node from outside may drop it, or push it again with other data.
-/
import CxxHeaders.Runs
import Mathlib.Logic.Function.Basic

open Outcome

namespace MpscWaitFreeSemiIntrusiveQueue

structure Node (τ : Type) where
  next : Option Nat
  data : τ

end MpscWaitFreeSemiIntrusiveQueue

/-- `m_tail` and `m_head`, and the nodes in memory. -/
structure MpscWaitFreeSemiIntrusiveQueue (τ : Type) where
  tail : Option Nat
  head : Option Nat
  heap : Nat → MpscWaitFreeSemiIntrusiveQueue.Node τ

namespace MpscWaitFreeSemiIntrusiveQueue

variable {ω τ : Type}

/-- `node->next.store(next)` -/
def storeNext (heap : Nat → Node τ) (node : Nat) (next : Option Nat) : Nat → Node τ :=
  Function.update heap node { heap node with next }

/-- `node->data = data` -/
def storeData (heap : Nat → Node τ) (node : Nat) (data : τ) : Nat → Node τ :=
  Function.update heap node { heap node with data }

/-- `target->data = std::move(source->data)`, which leaves `moved` in the source. -/
def moveData (moved : τ → τ) (heap : Nat → Node τ) (target source : Nat) : Nat → Node τ :=
  storeData (storeData heap source (moved (heap source).data)) target (heap source).data

/-- Where a producer stands in `push`. -/
inductive Producer where
  | idle
  | pushing (newNode : Nat)
  /-- It has exchanged the tail. -/
  | linking (oldTail newNode : Nat)
  deriving DecidableEq

/-- Where the consumer stands, in `pop` or in `empty`. -/
inductive Consumer where
  | idle
  | popping (head : Nat)
  | taking (head next : Nat)
  | moved (head next : Nat)
  /-- It has stored the head. -/
  | advanced (head : Nat)
  | asking (head : Nat)
  deriving DecidableEq

inductive Owner (ω : Type) where
  | nobody
  | caller
  | producer (w : ω)
  | queue
  deriving DecidableEq

/-- The queue, the threads, and who owns which node; the data whose nodes were
exchanged for the tail and what `pop` returned, in order; and the last answer
of `empty`. -/
structure Config (ω τ : Type) where
  queue : MpscWaitFreeSemiIntrusiveQueue τ
  producer : ω → Producer
  consumer : Consumer
  owner : Nat → Owner ω
  exchanged : List τ
  popped : List τ
  empty : Bool

inductive Act (ω τ : Type) where
  | createNode (node : Nat) (data : τ)
  | dropNode (node : Nat)
  | setData (node : Nat) (data : τ)
  /-- The push begins: the node is released, and looked at. -/
  | push (w : ω) (node : Nat)
  | exchange (w : ω)
  | link (w : ω)
  | pop
  | loadNext
  | moveData
  | storeHead
  /-- The pop ends. -/
  | clearNext
  | empty
  | answer

/-- A new queue: its first node is `node`. -/
def new (node : Nat) (heap : Nat → Node τ) : Config ω τ where
  queue := { tail := some node, head := some node, heap := storeNext heap node none }
  producer _ := .idle
  consumer := .idle
  owner := Function.update (fun _ => .nobody) node .queue
  exchanged := []
  popped := []
  empty := true

def Init (c : Config ω τ) : Prop := ∃ node heap, c = new node heap

variable [DecidableEq ω]

def next (moved : τ → τ) (c : Config ω τ) : Act ω τ → Outcome (Config ω τ)
  | .createNode node data => do
    requiring (c.owner node = .nobody)
    return { c with
      queue := { c.queue with heap := Function.update c.queue.heap node { next := none, data } }
      owner := Function.update c.owner node .caller }
  | .dropNode node => do
    requiring (c.owner node = .caller)
    return { c with owner := Function.update c.owner node .nobody }
  | .setData node data => do
    requiring (c.owner node = .caller)
    return { c with queue := { c.queue with heap := storeData c.queue.heap node data } }
  | .push w node => do
    requiring (c.producer w = .idle ∧ c.owner node = .caller)
    asserting ((c.queue.heap node).next = none)
    return { c with
      producer := Function.update c.producer w (.pushing node)
      owner := Function.update c.owner node (.producer w) }
  | .exchange w =>
    match c.producer w with
    | .pushing newNode =>
      match c.queue.tail with
      | none => .failed
      | some oldTail => return { c with
        queue := { c.queue with tail := some newNode }
        producer := Function.update c.producer w (.linking oldTail newNode)
        owner := Function.update c.owner newNode .queue
        exchanged := c.exchanged ++ [(c.queue.heap newNode).data] }
    | _ => .blocked
  | .link w =>
    match c.producer w with
    | .linking oldTail newNode => return { c with
      queue := { c.queue with heap := storeNext c.queue.heap oldTail (some newNode) }
      producer := Function.update c.producer w .idle }
    | _ => .blocked
  | .pop =>
    match c.consumer with
    | .idle =>
      match c.queue.head with
      | none => .failed
      | some head => return { c with consumer := .popping head }
    | _ => .blocked
  | .loadNext =>
    match c.consumer with
    | .popping head =>
      match (c.queue.heap head).next with
      | none => return { c with consumer := .idle }
      | some next => return { c with consumer := .taking head next }
    | _ => .blocked
  | .moveData =>
    match c.consumer with
    | .taking head next => return { c with
      queue := { c.queue with heap := moveData moved c.queue.heap head next }
      consumer := .moved head next }
    | _ => .blocked
  | .storeHead =>
    match c.consumer with
    | .moved head next => return { c with
      queue := { c.queue with head := some next }, consumer := .advanced head }
    | _ => .blocked
  | .clearNext =>
    match c.consumer with
    | .advanced head => return { c with
      queue := { c.queue with heap := storeNext c.queue.heap head none }
      consumer := .idle
      owner := Function.update c.owner head .caller
      popped := c.popped ++ [(c.queue.heap head).data] }
    | _ => .blocked
  | .empty =>
    match c.consumer with
    | .idle =>
      match c.queue.head with
      | none => .failed
      | some head => return { c with consumer := .asking head }
    | _ => .blocked
  | .answer =>
    match c.consumer with
    | .asking head => return { c with consumer := .idle, empty := (c.queue.heap head).next.isNone }
    | _ => .blocked

/-- A whole `pop` that finds something. -/
def popSteps : List (Act ω τ) := [.pop, .loadNext, .moveData, .storeHead, .clearNext]

/-- Not an action on `node` by its owner. -/
def Act.Leaves (node : Nat) : Act ω τ → Prop
  | .dropNode n | .setData n _ | .push _ n => n ≠ node
  | _ => True

end MpscWaitFreeSemiIntrusiveQueue
