/-
`CircBufferSCSP.h`: the circular buffer of one producer and one consumer.

The methods are given as the code computes them, split where the lock is
taken and given back: `haveWritten` is `increaseDataAvailable` (under the
lock) and then `moveWriteOffset` (outside it). Two parties run them step by
step (`next`): each access to `dataAvailable`, each copy and each move of an
offset is a step of its own, in any order between the parties.

A `size_t` difference that would wrap is a failure here (`sub`), as is a copy
that leaves the array; the code has no such check, and none is ever needed. The
caller gives an array to `write` and `read`, so that `copyPtr` is not null.
-/
import CxxHeaders.Runs
import CxxHeaders.Ring

open Outcome

/-- `CircBufferBase`, with the counter its locking policy protects. -/
structure CircBuffer (α : Type) where
  buffer : Nat → α
  bufferSize : Nat
  readOffset : Nat
  writeOffset : Nat
  dataAvailable : Nat

namespace CircBuffer

variable {α δ : Type}

/-- The constructor: the array holds whatever it held. -/
def new (bufferSize : Nat) (garbage : Nat → α) : CircBuffer α := ⟨garbage, bufferSize, 0, 0, 0⟩

/-- `x - y` on `size_t`. -/
def sub (x y : Nat) : Outcome Nat := do
  asserting (y ≤ x)
  return x - y

/-! ## Procedures for the producer -/

def spaceAvailable (b : CircBuffer α) : Outcome Nat := do
  asserting (b.dataAvailable ≤ b.bufferSize)
  return b.bufferSize - b.dataAvailable

def spaceAvailableUntilBufferEnd (b : CircBuffer α) : Outcome Nat := do
  let available ← spaceAvailable b
  return min available (← sub b.bufferSize b.writeOffset)

def increaseDataAvailable (b : CircBuffer α) (size : Nat) : Outcome (CircBuffer α × Nat) := do
  asserting (size ≤ b.bufferSize)
  return ({ b with dataAvailable := b.dataAvailable + size }, b.dataAvailable + size)

/-- An offset moved on by `size`: what `haveWritten` and `haveRead` do after
the counter is updated. -/
def advance (bufferSize offset size : Nat) : Outcome Nat := do
  asserting (offset < bufferSize)
  let offsetLimit ← sub bufferSize size
  let moved ← if offset < offsetLimit then pure (offset + size) else do
    asserting (size ≥ bufferSize - offset)
    pure (size - (bufferSize - offset))
  asserting (moved < bufferSize)
  return moved

def moveWriteOffset (b : CircBuffer α) (size : Nat) : Outcome (CircBuffer α) := do
  return { b with writeOffset := ← advance b.bufferSize b.writeOffset size }

def haveWritten (b : CircBuffer α) (size : Nat) : Outcome (CircBuffer α × Nat) := do
  let (b, ret) ← increaseDataAvailable b size
  let b ← moveWriteOffset b size
  return (b, ← sub b.bufferSize ret)

def haveWrittenRetUbe (b : CircBuffer α) (size : Nat) : Outcome (CircBuffer α × Nat) := do
  let (b, ret) ← haveWritten b size
  return (b, min ret (← sub b.bufferSize b.writeOffset))

/-! ## Procedures for the consumer -/

def dataAvailableUntilBufferEnd (b : CircBuffer α) : Outcome Nat := do
  return min b.dataAvailable (← sub b.bufferSize b.readOffset)

def decreaseDataAvailable (b : CircBuffer α) (size : Nat) : Outcome (CircBuffer α × Nat) := do
  asserting (size ≤ b.bufferSize)
  asserting (size ≤ b.dataAvailable)
  return ({ b with dataAvailable := b.dataAvailable - size }, b.dataAvailable - size)

def moveReadOffset (b : CircBuffer α) (size : Nat) : Outcome (CircBuffer α) := do
  return { b with readOffset := ← advance b.bufferSize b.readOffset size }

def haveRead (b : CircBuffer α) (size : Nat) : Outcome (CircBuffer α × Nat) := do
  let (b, ret) ← decreaseDataAvailable b size
  let b ← moveReadOffset b size
  return (b, ret)

def haveReadRetUbe (b : CircBuffer α) (size : Nat) : Outcome (CircBuffer α × Nat) := do
  let (b, ret) ← haveRead b size
  return (b, min ret (← sub b.bufferSize b.readOffset))

/-! ## Actions of `operate` -/

/-- `FifoBufferActions`: where `operate` differs between a writer and a
reader. `δ` is the caller's array, as far as it is not yet transferred; the
elements copied are returned with it. `done` is in three parts: the update of
the counter, the move of the offset, and the value returned. -/
structure Actions (α δ : Type) where
  size : δ → Nat
  availableUntilBufferEnd : CircBuffer α → Outcome Nat
  copyAction : CircBuffer α → δ → Nat → Outcome (CircBuffer α × List α × δ)
  update : CircBuffer α → Nat → Outcome (CircBuffer α × Nat)
  move : CircBuffer α → Nat → Outcome (CircBuffer α)
  ret : CircBuffer α → Nat → Outcome Nat
  retUbe : CircBuffer α → Nat → Outcome Nat

/-- The writer's array is what is left of its data. -/
def writeActions : Actions α (List α) where
  size := List.length
  availableUntilBufferEnd := spaceAvailableUntilBufferEnd
  copyAction b data n := do
    asserting (n ≤ data.length)
    asserting (b.writeOffset + n ≤ b.bufferSize)
    return ({ b with buffer := Ring.store b.buffer b.writeOffset (data.take n) }, data.take n, data.drop n)
  update := increaseDataAvailable
  move := moveWriteOffset
  ret b ret := sub b.bufferSize ret
  retUbe b ret := do return min (← sub b.bufferSize ret) (← sub b.bufferSize b.writeOffset)

/-- The reader's array: how many elements still fit, and those in it. -/
structure Dest (α : Type) where
  want : Nat
  got : List α

def readActions : Actions α (Dest α) where
  size := Dest.want
  availableUntilBufferEnd := dataAvailableUntilBufferEnd
  copyAction b d n := do
    asserting (n ≤ d.want)
    asserting (b.readOffset + n ≤ b.bufferSize)
    let xs := Ring.load b.buffer b.readOffset n
    return (b, xs, ⟨d.want - n, d.got ++ xs⟩)
  update := decreaseDataAvailable
  move := moveReadOffset
  ret _ ret := return ret
  retUbe b ret := do return min ret (← sub b.bufferSize b.readOffset)

/-! ## A party, step by step -/

/-- What follows `done`. -/
inductive After (δ : Type) where
  /-- `operate` returns the total. -/
  | doneNoRet (total : Nat)
  /-- `operate` goes on, or returns the total, as there is room. -/
  | doneRetUbe (total : Nat) (rest : δ)
  /-- `haveWritten` or `haveRead` was called from outside. -/
  | caller

/-- Where a party stands. -/
inductive Pc (α δ : Type) where
  | idle
  | entered (d : δ)
  | loop (aUBE transferred : Nat) (d : δ)
  /-- The elements are copied, the counter not yet updated. -/
  | copied (chunk : List α) (after : After δ)
  /-- The counter is updated, the offset not yet moved. -/
  | updated (size ret : Nat) (after : After δ)

/-- A party: `granted` is what remains of the space or data last reported to
it, `result` what its last call returned. -/
structure Party (α δ : Type) where
  pc : Pc α δ
  granted : Nat
  result : Nat

/-- The next step of a running call; also the elements it hands over, which
is when the counter is updated. -/
def Party.step (A : Actions α δ) (b : CircBuffer α) (p : Party α δ) :
    Outcome (CircBuffer α × Party α δ × List α) :=
  match p.pc with
  | .idle => .blocked
  | .entered d => do
    asserting (A.size d > 0)
    let aUBE ← A.availableUntilBufferEnd b
    if aUBE = 0 then return (b, { p with pc := .idle, result := 0 }, [])
    return (b, { p with pc := .loop aUBE 0 d }, [])
  | .loop aUBE transferred d => do
    asserting (aUBE > 0)
    if aUBE ≥ A.size d then
      let (b, xs, _) ← A.copyAction b d (A.size d)
      return (b, { p with pc := .copied xs (.doneNoRet (transferred + A.size d)) }, [])
    else
      asserting (A.size d > aUBE)
      let (b, xs, rest) ← A.copyAction b d aUBE
      return (b, { p with pc := .copied xs (.doneRetUbe (transferred + aUBE) rest) }, [])
  | .copied xs after => do
    let (b, ret) ← A.update b xs.length
    return (b, { p with pc := .updated xs.length ret after, granted := p.granted - xs.length }, xs)
  | .updated size ret after => do
    let b ← A.move b size
    match after with
    | .doneNoRet total => return (b, { p with pc := .idle, result := total }, [])
    | .doneRetUbe total rest =>
      let newAUBE ← A.retUbe b ret
      if newAUBE = 0 then return (b, { p with pc := .idle, result := total }, [])
      return (b, { p with pc := .loop newAUBE total rest }, [])
    | .caller =>
      let left ← A.ret b ret
      return (b, ⟨.idle, left, left⟩, [])

/-! ## The two parties -/

/-- The buffer, its two parties, and what went in and out so far. -/
structure Config (α : Type) where
  buf : CircBuffer α
  producer : Party α (List α)
  consumer : Party α (Dest α)
  sent : List α
  received : List α

inductive Act (α : Type) where
  | write (data : List α)
  | spaceAvailable
  /-- The producer stores `xs` behind `writeOffset` itself, then calls
  `haveWritten`. -/
  | haveWritten (xs : List α)
  | producer
  | read (size : Nat)
  | dataAvailable
  /-- The consumer takes `size` elements from `readOffset` on itself, then
  calls `haveRead`. -/
  | haveRead (size : Nat)
  | consumer

def Pc.isIdle : Pc α δ → Bool
  | .idle => true
  | _ => false

def next (c : Config α) : Act α → Outcome (Config α)
  | .write data => do
    requiring (c.producer.pc.isIdle ∧ data ≠ [])
    return { c with producer := { c.producer with pc := .entered data } }
  | .spaceAvailable => do
    requiring c.producer.pc.isIdle
    let space ← CircBuffer.spaceAvailable c.buf
    return { c with producer := ⟨.idle, space, space⟩ }
  | .haveWritten xs => do
    requiring (c.producer.pc.isIdle ∧ xs.length ≤ c.producer.granted)
    return { c with
      buf := { c.buf with buffer := Ring.put c.buf.bufferSize c.buf.buffer c.buf.writeOffset xs },
      producer := { c.producer with pc := .copied xs .caller } }
  | .producer => do
    let (b, p, xs) ← c.producer.step writeActions c.buf
    return { c with buf := b, producer := p, sent := c.sent ++ xs }
  | .read size => do
    requiring (c.consumer.pc.isIdle ∧ size ≠ 0)
    return { c with consumer := { c.consumer with pc := .entered ⟨size, []⟩ } }
  | .dataAvailable => do
    requiring c.consumer.pc.isIdle
    return { c with consumer := ⟨.idle, c.buf.dataAvailable, c.buf.dataAvailable⟩ }
  | .haveRead size => do
    requiring (c.consumer.pc.isIdle ∧ size ≤ c.consumer.granted)
    let xs := Ring.slice c.buf.bufferSize c.buf.buffer c.buf.readOffset size
    return { c with consumer := { c.consumer with pc := .copied xs .caller } }
  | .consumer => do
    let (b, p, xs) ← c.consumer.step readActions c.buf
    return { c with buf := b, consumer := p, received := c.received ++ xs }

/-- A new buffer, with nothing running. -/
def Init (bufferSize : Nat) (c : Config α) : Prop :=
  ∃ garbage, c = ⟨new bufferSize garbage, ⟨.idle, 0, 0⟩, ⟨.idle, 0, 0⟩, [], []⟩

end CircBuffer
