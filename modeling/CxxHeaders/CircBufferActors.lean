/-
`CircBufferSCSP.h`: transfers by an actor, which works in the buffer itself. The
actor is called with the cells up to the end of the array, and says how many of
them it took; a writer may have changed all of them.

`operate` also returns its calls. A transfer is one step here, for the other
party is idle; `totalTransferred` is a `size_t`, of which `sizeMax` is the
greatest.
-/
import CxxHeaders.CircBuffer

open Outcome

namespace CircBuffer

variable {α σ : Type}

/-! ## Actors -/

/-- What the actor does to the cells it is called with, and how many it takes; it
is a `σ` itself. -/
structure InputProducerActor (α σ : Type) where
  act : σ → List α → σ × List α × Nat
  length_eq : ∀ s cells, (act s cells).2.1.length = cells.length
  accepted_le : ∀ s cells, (act s cells).2.2 ≤ cells.length

/-- How many of the elements it takes. -/
structure OutputConsumerActor (α σ : Type) where
  act : σ → List α → σ × Nat
  accepted_le : ∀ s elems, (act s elems).2 ≤ elems.length

/-- A call of the actor: the first of the cells, their number, what is in them
after the call, and how many were accepted. -/
structure Call (α : Type) where
  start : Nat
  toTransfer : Nat
  elems : List α
  accepted : Nat

/-- `FifoBufferActions`, as far as `operate` uses them with an actor. -/
structure ActorActions (α σ : Type) where
  availableUntilBufferEnd : CircBuffer α → Outcome Nat
  /-- `actor(operatePtr(this), toTransfer)`. -/
  actor : CircBuffer α → σ → Nat → Outcome (CircBuffer α × σ × Call α)
  doneNoRet : CircBuffer α → Nat → Outcome (CircBuffer α)
  doneRetUbe : CircBuffer α → Nat → Outcome (CircBuffer α × Nat)

def writeActorActions (p : InputProducerActor α σ) : ActorActions α σ where
  availableUntilBufferEnd := spaceAvailableUntilBufferEnd
  actor b s n := do
    asserting (b.writeOffset + n ≤ b.bufferSize)
    let (s, elems, accepted) := p.act s (Ring.load b.buffer b.writeOffset n)
    return ({ b with buffer := Ring.store b.buffer b.writeOffset elems }, s,
      ⟨b.writeOffset, n, elems, accepted⟩)
  doneNoRet b n := do
    let (b, _) ← haveWritten b n
    return b
  doneRetUbe := haveWrittenRetUbe

def readActorActions (p : OutputConsumerActor α σ) : ActorActions α σ where
  availableUntilBufferEnd := dataAvailableUntilBufferEnd
  actor b s n := do
    asserting (b.readOffset + n ≤ b.bufferSize)
    let elems := Ring.load b.buffer b.readOffset n
    let (s, accepted) := p.act s elems
    return (b, s, ⟨b.readOffset, n, elems, accepted⟩)
  doneNoRet b n := do
    let (b, _) ← haveRead b n
    return b
  doneRetUbe := haveReadRetUbe

/-! ## `operate` -/

/-- What `operate` leaves behind, and what it returns. -/
structure Transfer (α σ : Type) where
  buf : CircBuffer α
  actor : σ
  totalTransferred : Nat
  calls : List (Call α)

variable (sizeMax : Nat) (A : ActorActions α σ)

/-- `x + y` on `size_t`. -/
def add (x y : Nat) : Outcome Nat := do
  asserting (x + y ≤ sizeMax)
  return x + y

/-- The other iterations. -/
def operateLoop : Nat → Transfer α σ → (availableUntilBufferEnd maxTransfer : Nat) → Outcome (Transfer α σ)
  | 0, _, _, _ => .blocked
  | fuel + 1, t, availableUntilBufferEnd, maxTransfer => do
    asserting (availableUntilBufferEnd > 0)
    if availableUntilBufferEnd < maxTransfer then
      let toTransfer := availableUntilBufferEnd
      let (b, s, call) ← A.actor t.buf t.actor toTransfer
      asserting (call.accepted ≤ toTransfer)
      let (b, availableUntilBufferEnd) ← A.doneRetUbe b call.accepted
      let t := ⟨b, s, ← add sizeMax t.totalTransferred call.accepted, t.calls ++ [call]⟩
      if call.accepted < toTransfer ∨ availableUntilBufferEnd ≤ 0 then return t
      else operateLoop fuel t availableUntilBufferEnd (← sub maxTransfer call.accepted)
    else
      let (b, s, call) ← A.actor t.buf t.actor maxTransfer
      asserting (call.accepted ≤ maxTransfer)
      let b ← A.doneNoRet b call.accepted
      return ⟨b, s, ← add sizeMax t.totalTransferred call.accepted, t.calls ++ [call]⟩

/-- `operate` with an actor. -/
def operate (b : CircBuffer α) (s : σ) : Outcome (Transfer α σ) := do
  let availableUntilBufferEnd ← A.availableUntilBufferEnd b
  if availableUntilBufferEnd ≤ 0 then return ⟨b, s, 0, []⟩
  else
    let toTransfer := availableUntilBufferEnd
    let (b, s, call) ← A.actor b s toTransfer
    asserting (call.accepted ≤ toTransfer)
    let (b, availableUntilBufferEnd) ← A.doneRetUbe b call.accepted
    let t := ⟨b, s, call.accepted, [call]⟩
    if call.accepted < toTransfer ∨ availableUntilBufferEnd ≤ 0 then return t
    else operateLoop sizeMax A (b.bufferSize + 1) t availableUntilBufferEnd (← sub sizeMax call.accepted)

/-! ## The two parties -/

/-- An act of the parties, or a transfer by an actor. -/
inductive ActorAct (α σ : Type) where
  | act (a : Act α)
  | write (p : InputProducerActor α σ) (s : σ)
  | read (p : OutputConsumerActor α σ) (s : σ)

/-- The elements that were accepted, in order. -/
def accepted (calls : List (Call α)) : List α := (calls.map fun call => call.elems.take call.accepted).flatten

def nextActor (c : Config α) : ActorAct α σ → Outcome (Config α)
  | .act a => next c a
  | .write p s => do
    requiring (c.producer.pc.isIdle ∧ c.consumer.pc.isIdle)
    let t ← operate sizeMax (writeActorActions p) c.buf s
    return { c with
      buf := t.buf,
      producer := ⟨.idle, c.producer.granted - t.totalTransferred, t.totalTransferred⟩,
      sent := c.sent ++ accepted t.calls }
  | .read p s => do
    requiring (c.producer.pc.isIdle ∧ c.consumer.pc.isIdle)
    let t ← operate sizeMax (readActorActions p) c.buf s
    return { c with
      buf := t.buf,
      consumer := ⟨.idle, c.consumer.granted - t.totalTransferred, t.totalTransferred⟩,
      received := c.received ++ accepted t.calls }

end CircBuffer
