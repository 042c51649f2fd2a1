/-
`SharedResourceMap.h`: resources that are shared as long as somebody has a
handle.

Threads take turns: a section under the mutex is one step, and so is every
operation on a `std::shared_ptr` outside of one. `ValueObj_`s and the control
blocks that `createShared` makes are named in the order in which they are made,
and a resource by its `ValueObj_`, which alone owns it. A handle is one of the
`useCount` strong references to a control block.

An object goes when the last reference to it goes: a `ValueObj_` with the last
`std::shared_ptr`, in the map or captured by a deleter; a control block, with
its deleter, with the last `std::weak_ptr`, but not before the deleter has run;
`Inner` when neither the map nor a running deleter has it.

Allocations that fail are left out.
-/
import CxxHeaders.Runs
import Mathlib.Logic.Function.Basic

open Outcome

/-- How far the deleter of a control block is. -/
inductive Deleter where
  /-- There are handles. -/
  | unused
  | pending
  /-- It has locked `container`, -/
  | locked
  /-- and has been through its section. -/
  | leaving
  | returning
  | done
  deriving DecidableEq, Repr

/-- `ValueObj_`. -/
structure ValueObj (κ : Type) where
  key : κ
  weakPtr : Option Nat

/-- `captured` if the deleter has not reset its `valueObj`. -/
structure ControlBlock where
  valueObj : Nat
  captured : Bool
  useCount : Nat
  deleter : Deleter

structure SharedResourceMap (κ : Type) where
  /-- The map has not been destroyed. -/
  map : Bool
  data : κ → Option Nat
  valueObj : Nat → ValueObj κ
  made : Nat
  /-- How often the resource was destroyed. -/
  destroyed : Nat → Nat
  block : Nat → ControlBlock
  blocks : Nat

namespace SharedResourceMap

variable {κ : Type}

def new (garbage : Nat → ValueObj κ) : SharedResourceMap κ :=
  ⟨true, fun _ => none, garbage, 0, fun _ => 0, fun _ => ⟨0, false, 0, .done⟩, 0⟩

/-! ## References -/

/-- There is a `std::shared_ptr` to the `ValueObj_`. -/
def owned (s : SharedResourceMap κ) (v : Nat) : Bool :=
  s.data (s.valueObj v).key = some v ||
    (List.range s.blocks).any fun f => (s.block f).captured && (s.block f).valueObj = v

/-- The deleter has not run, or there is a `std::weak_ptr` to the control block. -/
def observed (s : SharedResourceMap κ) (f : Nat) : Bool :=
  (s.block f).deleter ≠ .done ||
    (List.range s.made).any fun v => s.destroyed v = 0 && (s.valueObj v).weakPtr = some f

/-- `Inner` exists. -/
def inner (s : SharedResourceMap κ) : Bool :=
  s.map || (List.range s.blocks).any fun f => (s.block f).deleter = .locked || (s.block f).deleter = .leaving

def uncapture (s : SharedResourceMap κ) (f : Nat) : SharedResourceMap κ :=
  { s with block := Function.update s.block f { s.block f with captured := false } }

/-- What `~ValueObj_()` does to the resource. -/
def destroyResource (s : SharedResourceMap κ) (v : Nat) : SharedResourceMap κ :=
  { s with destroyed := Function.update s.destroyed v (s.destroyed v + 1) }

mutual

/-- A `std::shared_ptr` to the `ValueObj_` is gone. -/
def release : Nat → SharedResourceMap κ → Nat → SharedResourceMap κ
  | 0, s, _ => s
  | fuel + 1, s, v =>
    if s.owned v then s
    else
      match (s.valueObj v).weakPtr with
      | some f => releaseWeak fuel (s.destroyResource v) f
      | none => s.destroyResource v

/-- A `std::weak_ptr` to the control block is gone. -/
def releaseWeak : Nat → SharedResourceMap κ → Nat → SharedResourceMap κ
  | 0, s, _ => s
  | fuel + 1, s, f =>
    if s.observed f then s
    else if (s.block f).captured then release fuel (s.uncapture f) (s.block f).valueObj
    else s

end

/-- What goes at once: a control block, its `ValueObj_`, and the control block
that this one observes. -/
def chain : Nat := 3

def setDeleter (s : SharedResourceMap κ) (f : Nat) (d : Deleter) : SharedResourceMap κ :=
  { s with block := Function.update s.block f { s.block f with deleter := d } }

def setUseCount (s : SharedResourceMap κ) (f n : Nat) : SharedResourceMap κ :=
  { s with block := Function.update s.block f { s.block f with useCount := n } }

/-- `weakPtr.expired()`. -/
def expired (s : SharedResourceMap κ) (v : Nat) : Bool :=
  (s.valueObj v).weakPtr.all fun f => (s.block f).useCount = 0

variable [DecidableEq κ]

def erase (s : SharedResourceMap κ) (key : κ) : SharedResourceMap κ :=
  { s with data := Function.update s.data key none }

/-- The entry of the `ValueObj_` goes, if it has one. -/
def dropEntry (s : SharedResourceMap κ) (v : Nat) : SharedResourceMap κ :=
  if s.data (s.valueObj v).key = some v then release chain (s.erase (s.valueObj v).key) v else s

/-- `~Inner()`, once nothing refers to it. -/
def destroyInner (s : SharedResourceMap κ) : SharedResourceMap κ :=
  if s.inner then s else (List.range s.made).foldl dropEntry s

/-! ## Operations -/

/-- A handle with a control block of its own, which `weakPtr` then observes. -/
def newHandle (s : SharedResourceMap κ) (v : Nat) : SharedResourceMap κ :=
  { s with
    block := Function.update s.block s.blocks ⟨v, true, 1, .unused⟩, blocks := s.blocks + 1
    valueObj := Function.update s.valueObj v { s.valueObj v with weakPtr := some s.blocks } }

def createShared (s : SharedResourceMap κ) (v : Nat) : SharedResourceMap κ :=
  match (s.valueObj v).weakPtr with
  | some g => releaseWeak chain (s.newHandle v) g
  | none => s.newHandle v

/-- A new `ValueObj_` and its entry. -/
def emplace (s : SharedResourceMap κ) (key : κ) : SharedResourceMap κ :=
  { s with
    data := Function.update s.data key (some s.made)
    valueObj := Function.update s.valueObj s.made ⟨key, none⟩, made := s.made + 1 }

def getResource (s : SharedResourceMap κ) (key : κ) : SharedResourceMap κ :=
  match s.data key with
  | some v =>
    match (s.valueObj v).weakPtr with
    | some f =>
      if (s.block f).useCount = 0 then s.createShared v
      else s.setUseCount f ((s.block f).useCount + 1)
    | none => s.createShared v
  | none => (s.emplace key).createShared s.made

/-- The section of the deleter. -/
def deleteSection (s : SharedResourceMap κ) (f : Nat) : SharedResourceMap κ :=
  let v := (s.block f).valueObj
  let key := (s.valueObj v).key
  match s.data key with
  | some w =>
    if s.expired w then
      let s := release chain (s.uncapture f) v
      release chain (s.erase key) w
    else s
  | none => s

inductive Act (κ : Type) where
  | getResource (key : κ)
  | copy (f : Nat)
  | drop (f : Nat)
  /-- The deleter tries to lock `container`. -/
  | lock (f : Nat)
  | deleteSection (f : Nat)
  /-- It lets go of `container`. -/
  | leave (f : Nat)
  /-- It returns. -/
  | finish (f : Nat)
  /-- The map is destroyed. -/
  | destroy

def next (s : SharedResourceMap κ) : Act κ → Outcome (SharedResourceMap κ)
  | .getResource key => do
    requiring s.map
    return s.getResource key
  | .copy f => do
    requiring (0 < (s.block f).useCount)
    return s.setUseCount f ((s.block f).useCount + 1)
  | .drop f => do
    requiring (0 < (s.block f).useCount)
    let s := s.setUseCount f ((s.block f).useCount - 1)
    return if (s.block f).useCount = 0 then s.setDeleter f .pending else s
  | .lock f => do
    requiring ((s.block f).deleter = .pending)
    return s.setDeleter f (if s.inner then .locked else .returning)
  | .deleteSection f => do
    requiring ((s.block f).deleter = .locked)
    return (s.setDeleter f .leaving).deleteSection f
  | .leave f => do
    requiring ((s.block f).deleter = .leaving)
    return (s.setDeleter f .returning).destroyInner
  | .finish f => do
    requiring ((s.block f).deleter = .returning)
    return releaseWeak chain (s.setDeleter f .done) f
  | .destroy => do
    requiring s.map
    return { s with map := false }.destroyInner

end SharedResourceMap
