/-
`EventLoop.h`: what is registered with a loop.

Any number of threads call the registration methods; a call of `epoll_ctl` is a
step (`next`), and may fail for other reasons than what is registered
(`fault`), in particular because it was interrupted. A method is logged with its
last system call, behind which there is nothing left to do but to return; the
log says how long it was when the method began, and when it found the file
descriptor registered. `spec` is what a method does to a map from file
descriptors.
-/
import CxxHeaders.EventLoop
import Mathlib.Logic.Function.Basic

open Outcome

namespace EventLoop

/-! ### `<errno.h>`, `<sys/epoll.h>` -/

def ENOENT : Errno := .other 2
def EEXIST : Errno := .other 17
def EPOLLONESHOT : EventSet := 1 <<< 30

/-- `::epoll_event`, as it is registered; the handler of a disabled one is
`nullHandler()`. -/
structure Entry (η : Type) where
  events : EventSet
  handler : Option η
  deriving DecidableEq

/-- What is registered, by the file descriptor. -/
abbrev Interest (η : Type) := Int → Option (Entry η)

inductive Op where
  | add
  | mod
  | del

variable {ω η : Type}

/-- `::epoll_ctl` -/
def epollCtl (op : Op) (fd : Int) (e : Entry η) (s : Interest η) : Except Errno (Interest η) :=
  match op, s fd with
  | .add, none => .ok (Function.update s fd (some e))
  | .add, some _ => .error EEXIST
  | .mod, some _ => .ok (Function.update s fd (some e))
  | .mod, none => .error ENOENT
  | .del, some _ => .ok (Function.update s fd none)
  | .del, none => .error ENOENT

/-- The methods of `EventLoop`. -/
inductive Method (η : Type) where
  | insertDisabled (fd : Int)
  | modify (fd : Int) (events : EventSet) (handler : η)
  | disable (fd : Int)
  | insert (fd : Int) (events : EventSet) (handler : η)
  | insertOrModify (fd : Int) (events : EventSet) (handler : η)
  | insertDisabledOrDisable (fd : Int)
  | remove (fd : Int)

namespace Method

def fd : Method η → Int
  | .insertDisabled fd | .modify fd _ _ | .disable fd | .insert fd _ _ | .insertOrModify fd _ _
  | .insertDisabledOrDisable fd | .remove fd => fd

def entry : Method η → Entry η
  | .modify _ events handler | .insert _ events handler | .insertOrModify _ events handler =>
    ⟨events ||| EPOLLONESHOT, some handler⟩
  | _ => ⟨EPOLLONESHOT, none⟩

end Method

/-- The private method that does it: `epollCtl<OP>`, `epollInsert`,
`epollInsertOrModify`, `epollRemove`. -/
inductive Body where
  | ctl (op : Op)
  | insert
  | insertOrModify
  | remove

def Method.body : Method η → Body
  | .insertDisabled _ => .ctl .add
  | .modify _ _ _ | .disable _ => .ctl .mod
  | .insert _ _ _ => .insert
  | .insertOrModify _ _ _ | .insertDisabledOrDisable _ => .insertOrModify
  | .remove _ => .remove

inductive Result where
  | void
  | bool (b : Bool)
  | thrown (e : Errno)
  deriving DecidableEq

/-- A call: the length of the log when it began, and when `epollInsertOrModify`
found the file descriptor registered, if it did. -/
structure Call (η : Type) where
  method : Method η
  since : Nat
  found : Option Nat

structure Returned (ω η : Type) where
  thread : ω
  call : Call η
  result : Result

structure Registry (ω η : Type) where
  interest : Interest η
  call : ω → Option (Call η)
  log : List (Returned ω η)

/-- How a call goes on after an `epoll_ctl`. -/
inductive Verdict where
  | again
  | modify
  | return_ (r : Result)

namespace Call

/-- It is at the `EPOLL_CTL_MOD` of `epollInsertOrModify`. -/
def modifying (c : Call η) : Bool := c.found.isSome

def op (c : Call η) : Op :=
  match c.method.body with
  | .ctl op => op
  | .insert => .add
  | .insertOrModify => if c.modifying then .mod else .add
  | .remove => .del

/-- After a call that has succeeded. -/
def succeeded (c : Call η) : Result :=
  match c.method.body with
  | .ctl _ => .void
  | .insert | .remove => .bool true
  | .insertOrModify => .bool !c.modifying

/-- After one that has not. -/
def failed (c : Call η) (errno : Errno) : Verdict :=
  match c.method.body with
  | .ctl _ => if errno ≠ .eagain ∧ errno ≠ .eintr then .return_ (.thrown errno) else .again
  | .insert =>
    if errno = EEXIST then .return_ (.bool false)
    else if errno ≠ .eagain ∧ errno ≠ .eintr then .return_ (.thrown errno) else .again
  | .insertOrModify =>
    if errno = EEXIST ∧ ¬c.modifying then .modify
    else if errno ≠ .eagain ∧ errno ≠ .eintr then .return_ (.thrown errno) else .again
  | .remove =>
    if errno = .eagain ∨ errno = .eintr then .again
    else if errno = ENOENT then .return_ (.bool false) else .return_ (.thrown errno)

end Call

inductive RegistryAct (ω η : Type) where
  | call (w : ω) (method : Method η)
  /-- The `epoll_ctl` of the thread, which may fail for a reason of its own. -/
  | epollCtl (w : ω) (fault : Option Errno)

variable [DecidableEq ω]

namespace Registry

def setCall (c : Registry ω η) (w : ω) (x : Option (Call η)) : Registry ω η :=
  { c with call := Function.update c.call w x }

def finish (c : Registry ω η) (w : ω) (call : Call η) (r : Result) : Registry ω η :=
  { c.setCall w none with log := c.log ++ [⟨w, call, r⟩] }

/-- What the system call says. -/
def answer (c : Registry ω η) (call : Call η) : Option Errno → Except Errno (Interest η)
  | some errno => .error errno
  | none => epollCtl call.op call.method.fd call.method.entry c.interest

def next (c : Registry ω η) : RegistryAct ω η → Outcome (Registry ω η)
  | .call w method =>
    match c.call w with
    | none => return c.setCall w (some ⟨method, c.log.length, none⟩)
    | some _ => .blocked
  | .epollCtl w fault =>
    match c.call w with
    | none => .blocked
    | some call => do
      requiring (fault ≠ some EEXIST ∧ fault ≠ some ENOENT)
      match c.answer call fault with
      | .ok interest => return { c.finish w call call.succeeded with interest }
      | .error errno =>
        match call.failed errno with
        | .again => return c
        | .modify => return c.setCall w (some { call with found := some c.log.length })
        | .return_ r => return c.finish w call r

/-- Nothing is registered yet. -/
def Init (c : Registry ω η) : Prop :=
  (∀ fd, c.interest fd = none) ∧ (∀ w, c.call w = none) ∧ c.log = []

end Registry

/-! ## What the methods are for -/

/-- What a method does to the map, and what it returns. -/
def spec (m : Method η) (s : Interest η) : Interest η × Result :=
  match m.body, s m.fd with
  | .ctl .add, none => (Function.update s m.fd (some m.entry), .void)
  | .ctl .add, some _ => (s, .thrown EEXIST)
  | .ctl .mod, some _ => (Function.update s m.fd (some m.entry), .void)
  | .ctl .mod, none => (s, .thrown ENOENT)
  | .ctl .del, some _ => (Function.update s m.fd none, .void)
  | .ctl .del, none => (s, .thrown ENOENT)
  | .insert, none => (Function.update s m.fd (some m.entry), .bool true)
  | .insert, some _ => (s, .bool false)
  | .insertOrModify, x => (Function.update s m.fd (some m.entry), .bool x.isNone)
  | .remove, some _ => (Function.update s m.fd none, .bool true)
  | .remove, none => (s, .bool false)

/-- Another thread removed the file descriptor after the log had this length. -/
def Removed (log : List (Returned ω η)) (found : Nat) (w : ω) (fd : Int) : Prop :=
  ∃ x ∈ log.drop found, x.thread ≠ w ∧ x.call.method = .remove fd ∧ x.result = .bool true

/-- The map after the methods in the log, one after another. A method does what
it is for, or throws and does nothing: because `epoll_ctl` failed for good, or
because what `epollInsertOrModify` had found was removed by another thread before
its second system call. -/
inductive Linear : List (Returned ω η) → Interest η → Prop
  | nil : Linear [] fun _ => none
  | acts {log s} (w : ω) (call : Call η) (h : Linear log s) :
      Linear (log ++ [⟨w, call, (spec call.method s).2⟩]) (spec call.method s).1
  | faults {log s} (w : ω) (call : Call η) (e : Errno) (h : Linear log s) (he : e ≠ .eintr ∧ e ≠ .eagain)
      (hs : e ≠ EEXIST ∧ e ≠ ENOENT) : Linear (log ++ [⟨w, call, .thrown e⟩]) s
  | overtaken {log s} (w : ω) (call : Call η) (found : Nat) (h : Linear log s) (hc : call.found = some found)
      (hn : s call.method.fd = none) (hr : Removed log found w call.method.fd) :
      Linear (log ++ [⟨w, call, .thrown ENOENT⟩]) s

/-- A call that began, and that found the file descriptor registered, by the
time the log had this length. -/
def Call.Within (call : Call η) (n : Nat) : Prop :=
  call.since ≤ n ∧ ∀ found, call.found = some found → call.since ≤ found ∧ found ≤ n

/-- Every method is logged after it began: one that began after another's last
system call is logged behind it. -/
def Ordered (log : List (Returned ω η)) : Prop :=
  ∀ (i : Nat) (x : Returned ω η), log[i]? = some x → x.call.Within i

end EventLoop
