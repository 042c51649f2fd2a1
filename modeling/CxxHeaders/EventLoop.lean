/-
`EventLoop.h`: an iteration of `run` that was woken up.

Whoever waits for the end of an iteration writes a byte to a pipe, whose read
end is one of the loop's events; `run` empties the pipe before it counts the
iteration. A call of `read` returns what it is given to return (`Read`), and no
bytes are written meanwhile.
-/
import CxxHeaders.Runs
import CxxHeaders.SystemRead

open Outcome

namespace EventLoop

abbrev EventSet := BitVec 32

/-! ### `<sys/epoll.h>` -/

def EPOLLIN : EventSet := 0x001
def EPOLLPRI : EventSet := 0x002
def EPOLLERR : EventSet := 0x008
def EPOLLHUP : EventSet := 0x010
def EPOLLRDHUP : EventSet := 0x2000

/-- `sizeof(::epoll_event)`; an array of these fits in memory. -/
structure EpollEvent where
  size : Nat
  pos : 0 < size
  fits : size * 128 < 2 ^ 63

/-! ### Constants -/

def DEFAULT_MAX_EVENTS : Nat := 128
def ALL_ERROR_EVENTS : EventSet := EPOLLERR
def ALL_HUP_EVENTS : EventSet := EPOLLHUP ||| EPOLLRDHUP
def ALL_FATAL_EVENTS : EventSet := ALL_ERROR_EVENTS ||| ALL_HUP_EVENTS
def INPUT_DATA_EVENTS : EventSet := EPOLLPRI ||| EPOLLIN

def DISCARD_SIZE (e : EpollEvent) : Nat := e.size * DEFAULT_MAX_EVENTS

/-- What `read` returns, and `errno`. -/
inductive Read where
  | bytes (n : Nat)
  | error (errno : Errno)
  deriving DecidableEq, Repr

def Read.result : Read → Int
  | .bytes n => n
  | .error _ => -1

def Read.errno : Read → Option Errno
  | .bytes _ => none
  | .error e => some e

variable {η : Type}

/-- `::epoll_event`; that of the pipe has no handler. -/
structure Event (η : Type) where
  ptr : Option η
  events : EventSet

/-- The bytes in the pipe, the counter, and what was handled. -/
structure State (η : Type) where
  pending : Nat
  loopCounter : BitVec 32
  handled : List (η × EventSet)

/-- How an iteration goes on. -/
inductive After where
  | stops
  | continues
  deriving DecidableEq, Repr

namespace State

def handleEvent (s : State η) (h : η) (events : EventSet) : State η :=
  { s with handled := s.handled ++ [(h, events)] }

def loopIterationFinish (s : State η) : State η := { s with loopCounter := s.loopCounter + 1 }

/-- The last loop of `spinOnLoopIterationEnd_` goes on. -/
def Spins (s : State η) (start : BitVec 32) : Prop := s.loopCounter = start

/-- What a call takes out of the pipe. -/
def taken (s : State η) : Read → State η
  | .bytes n => { s with pending := s.pending - n }
  | .error _ => s

end State

/-- The loop that flushes the pipe. -/
def flush (e : EpollEvent) : Nat → (Nat → Read) → State η → Outcome (After × State η)
  | 0, _, _ => .blocked
  | fuel + 1, reads, s => do
    let rd := (reads 0).result
    let s := s.taken (reads 0)
    asserting (toSize rd ≤ DISCARD_SIZE e)
    if rd ≤ 0 then
      if rd = 0 then return (.stops, s)
      asserting (rd = -1)
      if (reads 0).errno ≠ some .eagain ∧ (reads 0).errno ≠ some .eintr then return (.stops, s)
      flush e fuel (laterCalls reads) s
    else if toSize rd < DISCARD_SIZE e then return (.continues, s)
    else flush e fuel (laterCalls reads) s

/-- The events after that of the pipe. -/
def handleRemaining : List (Event η) → State η → Outcome (State η)
  | [], s => return s
  | it :: rest, s =>
    match it.ptr with
    | none => .failed
    | some h => handleRemaining rest (s.handleEvent h it.events)

/-- The events of an iteration. -/
def handleEvents (e : EpollEvent) (fuel : Nat) (reads : Nat → Read) :
    List (Event η) → State η → Outcome (After × State η)
  | [], s => return (.continues, s)
  | it :: rest, s =>
    match it.ptr with
    | some h => handleEvents e fuel reads rest (s.handleEvent h it.events)
    | none => do
      let s ← handleRemaining rest s
      if it.events &&& ALL_FATAL_EVENTS ≠ 0 then return (.stops, s)
      asserting (it.events &&& INPUT_DATA_EVENTS ≠ 0)
      flush e fuel reads s

/-- An iteration of `run`, which is counted also when it is the last one. -/
def iteration (e : EpollEvent) (fuel : Nat) (reads : Nat → Read) (events : List (Event η)) (s : State η) :
    Outcome (After × State η) := do
  let (after, s) ← handleEvents e fuel reads events s
  return (after, s.loopIterationFinish)

/-! ## What the pipe can do -/

/-- The bytes of the first calls. -/
def total (reads : Nat → Read) : Nat → Nat
  | 0 => 0
  | k + 1 => (reads 0).result.toNat + total (laterCalls reads) k

/-- What `read` can return where there are `left` bytes, and somebody could
write more. -/
def Fits (e : EpollEvent) (left : Nat) : Read → Prop
  | .bytes n => 1 ≤ n ∧ n ≤ left ∧ n ≤ DISCARD_SIZE e
  | .error .eintr => True
  | .error .eagain => left = 0
  | .error (.other _) => False

/-- The calls of `read` from `n` bytes on. -/
def Consistent (e : EpollEvent) (n : Nat) (reads : Nat → Read) : Prop :=
  ∀ k, Fits e (n - total reads k) (reads k)

/-- The event of the pipe, and those of handlers. -/
def signal : Event η := ⟨none, EPOLLIN⟩

def ofHandler (x : η × EventSet) : Event η := ⟨some x.1, x.2⟩

/-- **The iteration empties the pipe, handles all other events and releases
those who wait for its end.** -/
structure Woken (s : State η) (others : List (η × EventSet)) (r : After × State η) : Prop where
  continues : r.1 = .continues
  empty : r.2.pending = 0
  handled : r.2.handled = s.handled ++ others
  released : ∀ start, s.Spins start → ¬r.2.Spins start

end EventLoop
