/-
`FileDescriptor.h`: file descriptors, each with one owner.

Besides the objects, whoever uses them may own a file descriptor: one that a
system call has returned, or that was released; and gives it away by
constructing or resetting an object with it. Every call of `::close` is
recorded, with whether the file descriptor was open.
-/
import CxxHeaders.Runs
import Mathlib.Logic.Function.Basic

open Outcome

namespace FileDescriptor

variable {ω : Type}

inductive Party (ω : Type) where
  | object (w : ω)
  | user (fd : Int)
  deriving DecidableEq

/-- `m_fd` of the objects that exist, what the users own, and what the system has
open. -/
structure Config (ω : Type) where
  fd : ω → Option Int
  mine : Int → Bool
  isOpen : Int → Bool
  closes : List (Int × Bool)

inductive Act (ω : Type) where
  /-- A system call returns a new file descriptor. -/
  | open (fd : Int)
  | closeMine (fd : Int)
  | construct (w : ω) (fd : Int)
  | moveConstruct (w move : ω)
  | moveAssign (w move : ω)
  /-- `fcntl` fails, or returns a new file descriptor. -/
  | duplicate (w : ω) (r : ω) (answer : Option Int)
  | reset (w : ω) (fd : Int)
  | release (w : ω)
  | close (w : ω)
  | destroy (w : ω)

namespace Config

/-- What an object with this `m_fd` owns. -/
def owns (fd : Option Int) : Option Int := fd.filter (· ≠ -1)

def own (c : Config ω) : Party ω → Option Int
  | .object w => owns (c.fd w)
  | .user fd => if c.mine fd then some fd else none

def valid (c : Config ω) (w : ω) : Bool := (c.fd w).any (0 ≤ ·)

/-- `::close` -/
def sysClose (c : Config ω) (fd : Int) : Config ω :=
  { c with isOpen := Function.update c.isOpen fd false, closes := c.closes ++ [(fd, c.isOpen fd)] }

def setMine (c : Config ω) (fd : Int) (b : Bool) : Config ω :=
  { c with mine := Function.update c.mine fd b }

/-- The system finds a file descriptor that is not in use. -/
def allocate (c : Config ω) (fd : Int) : Outcome (Config ω) := do
  requiring (0 ≤ fd ∧ c.isOpen fd = false)
  return { c with isOpen := Function.update c.isOpen fd true }

/-- The users may give it away. -/
def given (c : Config ω) (fd : Int) : Bool := fd = -1 || c.mine fd

variable [DecidableEq ω]

def setFd (c : Config ω) (w : ω) (fd : Option Int) : Config ω :=
  { c with fd := Function.update c.fd w fd }

/-- `close()`, where `m_fd` is `fd`. -/
def close (c : Config ω) (w : ω) (fd : Int) : Config ω :=
  if fd ≠ -1 then (c.sysClose fd).setFd w (some (-1)) else c

end Config

variable [DecidableEq ω]

def next (c : Config ω) : Act ω → Outcome (Config ω)
  | .open fd => do return (← c.allocate fd).setMine fd true
  | .closeMine fd => do
    requiring (c.mine fd)
    return (c.sysClose fd).setMine fd false
  | .construct w fd => do
    requiring (c.fd w = none ∧ c.given fd)
    return (c.setMine fd false).setFd w (some fd)
  | .moveConstruct w move =>
    match c.fd w, c.fd move with
    | none, some fd => return (c.setFd move (some (-1))).setFd w (some fd)
    | _, _ => .blocked
  | .moveAssign w move =>
    match c.fd w, c.fd move with
    | some old, some fd =>
      if move ≠ w then return ((c.close w old).setFd move (some (-1))).setFd w (some fd)
      else return c
    | _, _ => .blocked
  | .duplicate w r answer =>
    match c.fd w, answer with
    | some _, none => return c
    | some old, some fd => do
      requiring (c.isOpen old ∧ c.fd r = none)
      return (← c.allocate fd).setFd r (some fd)
    | none, _ => .blocked
  | .reset w fd =>
    match c.fd w with
    | some old => do
      requiring (c.given fd ∨ fd = old)
      if old ≠ fd then return ((c.close w old).setMine fd false).setFd w (some fd)
      else return c
    | none => .blocked
  | .release w =>
    match c.fd w with
    | some fd => return (c.setFd w (some (-1))).setMine fd (fd ≠ -1)
    | none => .blocked
  | .close w =>
    match c.fd w with
    | some fd => return c.close w fd
    | none => .blocked
  | .destroy w =>
    match c.fd w with
    | some fd => return (c.close w fd).setFd w none
    | none => .blocked

/-- No objects yet, and what is open is the users'. -/
def Init (c : Config ω) : Prop :=
  (∀ w, c.fd w = none) ∧ c.mine = c.isOpen ∧ (∀ fd, c.isOpen fd → 0 ≤ fd) ∧ c.closes = []

end FileDescriptor
