/-
`EventLoop.h`: the loop, and the threads that wait for the end of an iteration.

Each call of the system, of a handler and of an operation on `m_loopCounter` or
`m_stopMutex` is a step of its own (`next`). Every file descriptor has a handler
of its own, by which it is named. `epoll_wait` reports what is armed, and disarms
it, as `EPOLLONESHOT` is set for all but the pipe; `try_lock` may fail for no
reason. A `write` to the pipe fails for good only if its end is closed.
-/
import CxxHeaders.EventLoop
import Mathlib.Logic.Function.Basic

open Outcome

namespace EventLoop

/-- Where `run` is. -/
inductive Loop (η : Type) where
  | outside
  | polling
  /-- The events that are left, and what the pipe has signalled. -/
  | handling (rest : List (Event η)) (signal : Option EventSet)
  | flushing
  /-- It returns: the counter is next, and then the mutex. -/
  | leaving
  | unlocking

/-- Why a wait has returned: the mutex was free, the counter has changed, or the
byte could not be written. -/
inductive Reason where
  | locked
  | counted
  | failed
  deriving DecidableEq

/-- Where a call of `spinOnLoopIterationEnd_` or of `stop` is. -/
inductive Waiter where
  | outside
  | loaded (start : BitVec 32)
  | locked
  | missed (start : BitVec 32)
  | writing (start : BitVec 32)
  | spinning (start : BitVec 32)
  | stopping
  | returned (reason : Reason)

/-- Who has `m_stopMutex`. -/
inductive Holder (ω : Type) where
  | nobody
  | loop
  | waiter (w : ω)
  deriving DecidableEq

/-- `ended` iterations were counted, in `m_loopCounter` modulo 2^32. -/
structure Config (ω η : Type) where
  armed : η → Bool
  loop : Loop η
  ended : Nat
  stopMutex : Holder ω
  writeEnd : Bool
  pending : Nat
  waiter : ω → Waiter
  handled : List η

/-- What `epoll_wait` returns. -/
inductive Poll (η : Type) where
  | events (events : List (Event η))
  | interrupted
  | error

/-- What `write` returns. -/
inductive Write where
  | written
  | again
  | error
  deriving DecidableEq

inductive Act (ω η : Type) where
  /-- `insert` or `modify`. -/
  | arm (h : η)
  /-- `remove` or `disable`. -/
  | disarm (h : η)
  | run
  | poll (result : Poll η)
  /-- The next event, or what comes after the last one. -/
  | handle
  | read (result : Read)
  | leave
  | unlock
  | wait (w : ω)
  | tryLock (w : ω) (fails : Bool)
  | reload (w : ω)
  | write (w : ω) (result : Write)
  | look (w : ω)
  | stop (w : ω)
  | lock (w : ω)
  | unlockStop (w : ω)
  | stopAsync

variable {ω η : Type}

namespace Config

def loopCounter (c : Config ω η) : BitVec 32 := BitVec.ofNat 32 c.ended

/-- The events of the read end of the pipe. -/
def pipeEvents (c : Config ω η) : EventSet :=
  (if 0 < c.pending then EPOLLIN else 0) ||| if c.writeEnd then 0 else EPOLLHUP

/-- What `epoll_wait` can report. -/
def canReport (c : Config ω η) (e : Event η) : Bool :=
  match e.ptr with
  | some h => c.armed h
  | none => e.events = c.pipeEvents ∧ e.events ≠ 0

/-- What `read` can return. -/
def canRead (e : EpollEvent) (c : Config ω η) : Read → Bool
  | .bytes n => n ≤ c.pending ∧ n ≤ DISCARD_SIZE e ∧ (n = 0 → c.pending = 0 ∧ c.writeEnd = false)
  | .error .eintr => true
  | .error .eagain => c.pending = 0 ∧ c.writeEnd
  | .error (.other _) => false

end Config

variable [DecidableEq ω] [DecidableEq η]

namespace Config

def setWaiter (c : Config ω η) (w : ω) (x : Waiter) : Config ω η :=
  { c with waiter := Function.update c.waiter w x }

/-- `EPOLLONESHOT` -/
def disarmAll (c : Config ω η) (events : List (Event η)) : Config ω η :=
  { c with armed := fun h => c.armed h && decide (some h ∉ events.map Event.ptr) }

end Config

def next (e : EpollEvent) (c : Config ω η) : Act ω η → Outcome (Config ω η)
  | .arm h => return { c with armed := Function.update c.armed h true }
  | .disarm h => return { c with armed := Function.update c.armed h false }
  | .run =>
    match c.loop with
    | .outside => do
      requiring (c.stopMutex = .nobody)
      return { c with loop := .polling, stopMutex := .loop }
    | _ => .blocked
  | .poll result =>
    match c.loop, result with
    | .polling, .events events => do
      requiring (events.length ≤ DEFAULT_MAX_EVENTS ∧ (events.map Event.ptr).Nodup ∧
        ∀ it ∈ events, c.canReport it)
      return { c.disarmAll events with loop := .handling events none }
    | .polling, .interrupted => return c
    | .polling, .error => return { c with loop := .leaving }
    | _, _ => .blocked
  | .handle =>
    match c.loop with
    | .handling (it :: rest) signal =>
      match it.ptr, signal with
      | some h, signal => return { c with loop := .handling rest signal, handled := c.handled ++ [h] }
      | none, none => return { c with loop := .handling rest (some it.events) }
      | none, some _ => .failed
    | .handling [] none => return { c with loop := .polling, ended := c.ended + 1 }
    | .handling [] (some events) =>
      if events &&& ALL_FATAL_EVENTS ≠ 0 then return { c with loop := .leaving }
      else do
        asserting (events &&& INPUT_DATA_EVENTS ≠ 0)
        return { c with loop := .flushing }
    | _ => .blocked
  | .read result =>
    match c.loop with
    | .flushing => do
      requiring (c.canRead e result)
      let rd := result.result
      asserting (toSize rd ≤ DISCARD_SIZE e)
      let c := { c with pending := c.pending - rd.toNat }
      if rd ≤ 0 then
        if rd = 0 then return { c with loop := .leaving }
        asserting (rd = -1)
        if result.errno ≠ some .eagain ∧ result.errno ≠ some .eintr then return { c with loop := .leaving }
        return c
      else if toSize rd < DISCARD_SIZE e then return { c with loop := .polling, ended := c.ended + 1 }
      else return c
    | _ => .blocked
  | .leave =>
    match c.loop with
    | .leaving => return { c with loop := .unlocking, ended := c.ended + 1 }
    | _ => .blocked
  | .unlock =>
    match c.loop with
    | .unlocking => return { c with loop := .outside, stopMutex := .nobody }
    | _ => .blocked
  | .wait w =>
    match c.waiter w with
    | .outside | .returned _ => return c.setWaiter w (.loaded c.loopCounter)
    | _ => .blocked
  | .tryLock w fails =>
    match c.waiter w with
    | .loaded start =>
      if c.stopMutex = .nobody ∧ ¬fails then return { c.setWaiter w .locked with stopMutex := .waiter w }
      else return c.setWaiter w (.missed start)
    | _ => .blocked
  | .reload w =>
    match c.waiter w with
    | .missed start => return c.setWaiter w (if c.loopCounter ≠ start then .returned .counted else .writing start)
    | _ => .blocked
  | .write w result =>
    match c.waiter w, result with
    | .writing start, .written => do
      requiring c.writeEnd
      return { c.setWaiter w (.spinning start) with pending := c.pending + 1 }
    | .writing _, .again => return c
    | .writing _, .error => do
      requiring ¬c.writeEnd
      return c.setWaiter w (.returned .failed)
    | _, _ => .blocked
  | .look w =>
    match c.waiter w with
    | .spinning start => return c.setWaiter w (if c.loopCounter = start then .spinning start else .returned .counted)
    | _ => .blocked
  | .stop w =>
    match c.waiter w with
    | .outside | .returned _ => return { c.setWaiter w .stopping with writeEnd := false }
    | _ => .blocked
  | .lock w =>
    match c.waiter w with
    | .stopping => do
      requiring (c.stopMutex = .nobody)
      return { c.setWaiter w .locked with stopMutex := .waiter w }
    | _ => .blocked
  | .unlockStop w =>
    match c.waiter w with
    | .locked => return { c.setWaiter w (.returned .locked) with stopMutex := .nobody }
    | _ => .blocked
  | .stopAsync => return { c with writeEnd := false }

/-- A new loop, with nothing registered. -/
def Init (c : Config ω η) : Prop :=
  (∀ h, c.armed h = false) ∧ c.loop = .outside ∧ c.ended = 0 ∧ c.stopMutex = .nobody ∧ c.writeEnd = true ∧
    c.pending = 0 ∧ (∀ w, c.waiter w = .outside) ∧ c.handled = []

end EventLoop
