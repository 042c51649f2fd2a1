/-
`TicketSpinLock.h`: whoever wants the lock draws a ticket from `m_next`, and
waits until `m_active` is that ticket.

Every access to one of the two counters is a step of its own (`Config.next`), so that
the steps of the threads mix in any order. The counters are `w` bits wide and
wrap around. Which threads have drawn tickets and which have got the lock is
recorded in the order in which they did.
-/
import CxxHeaders.Runs
import Mathlib.Logic.Function.Basic

/-- `m_active` and `m_next`. -/
structure TicketSpinLock (w : Nat) where
  active : BitVec w
  next : BitVec w

namespace TicketSpinLock

variable {κ : Type} {w : Nat}

/-- Where a thread stands. -/
inductive Phase (w : Nat) where
  | outside
  /-- In the loop of `lock`. -/
  | waiting (ticket : BitVec w)
  /-- Between `lock` and `unlock`. -/
  | locked
  /-- In `unlock`, which has loaded `m_active` and not yet stored it. -/
  | unlocking (active : BitVec w)
  deriving DecidableEq

/-- The lock and its threads; `drawn` and `entered` are the threads that have
drawn a ticket and those that have returned from `lock`, in order. -/
structure Config (κ : Type) (w : Nat) where
  lock : TicketSpinLock w
  phase : κ → Phase w
  drawn : List κ
  entered : List κ

def start : Config κ w := ⟨⟨0, 0⟩, fun _ => .outside, [], []⟩

/-- A thread is between `lock` and `unlock`. -/
def Config.Holds (c : Config κ w) (k : κ) : Prop :=
  c.phase k = .locked ∨ ∃ active, c.phase k = .unlocking active

inductive Act (κ : Type) where
  /-- `m_next.fetch_add(1u)`, where `lock` starts. -/
  | fetchAdd (k : κ)
  /-- `ticket != m_active.load()`, once. -/
  | compare (k : κ)
  /-- `m_active.load()`, where `unlock` starts. -/
  | load (k : κ)
  /-- `m_active.store(… + 1u)`. -/
  | store (k : κ)

variable [DecidableEq κ]

def Config.next (c : Config κ w) : Act κ → Outcome (Config κ w)
  | .fetchAdd k =>
    match c.phase k with
    | .outside => .next { c with
        lock := { c.lock with next := c.lock.next + 1 }
        phase := Function.update c.phase k (.waiting c.lock.next)
        drawn := c.drawn ++ [k] }
    | _ => .blocked
  | .compare k =>
    match c.phase k with
    | .waiting ticket =>
      if ticket ≠ c.lock.active then .next c
      else .next { c with
        phase := Function.update c.phase k .locked
        entered := c.entered ++ [k] }
    | _ => .blocked
  | .load k =>
    match c.phase k with
    | .locked => .next { c with phase := Function.update c.phase k (.unlocking c.lock.active) }
    | _ => .blocked
  | .store k =>
    match c.phase k with
    | .unlocking active => .next { c with
        lock := { c.lock with active := active + 1 }
        phase := Function.update c.phase k .outside }
    | _ => .blocked

end TicketSpinLock
