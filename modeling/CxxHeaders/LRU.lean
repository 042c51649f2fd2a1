/-
`LRU.h`: a cache that holds its most recently used values strongly, and the
others as long as somebody else does.

The two `std::list`s are lists of iterators, that is of addresses of
`CacheElement`s. A key stands for what is equal to it under `==`, with which
the hash agrees, so that the hash map is a function of the key. A value is
the object a `std::shared_ptr` points to: it is alive while `held`, the number
of pointers outside the cache, or a strong pointer in it says so, and once it
is not it never is again. `erase` and `splice` of an element that is not in
the list they are called on fail.

Allocations that fail are left out: they leave the cache as it is.
-/
import CxxHeaders.Runs
import Mathlib.Logic.Function.Basic

open Outcome

/-- `CacheElement`. -/
structure CacheElement (κ ν : Type) where
  key : κ
  strong : Option ν
  weak : Option ν

structure LRU (κ ν : Type) where
  sizeLimit : Nat
  element : Nat → CacheElement κ ν
  made : Nat
  cacheList : List Nat
  weakList : List Nat
  cacheMap : κ → Option Nat

namespace LRU

variable {κ ν : Type} [DecidableEq κ] [DecidableEq ν]

def new (limit : Nat) (garbage : Nat → CacheElement κ ν) : LRU κ ν := ⟨limit, garbage, 0, [], [], fun _ => none⟩

/-- Somebody holds the value strongly. -/
def alive (l : LRU κ ν) (held : ν → Nat) (v : ν) : Bool :=
  0 < held v || (l.cacheList ++ l.weakList).any fun n => (l.element n).strong = some v

/-- `m_weak_ptr.lock()`. -/
def lock (l : LRU κ ν) (held : ν → Nat) (n : Nat) : Option ν := (l.element n).weak.filter (l.alive held)

def getValue (l : LRU κ ν) (held : ν → Nat) (n : Nat) : Option ν :=
  match (l.element n).strong with
  | some v => some v
  | none => l.lock held n

def isStrong (l : LRU κ ν) (n : Nat) : Bool := (l.element n).strong.isSome

def expired (l : LRU κ ν) (held : ν → Nat) (n : Nat) : Bool := (l.lock held n).isNone

def setStrong (l : LRU κ ν) (n : Nat) (strong : Option ν) : LRU κ ν :=
  { l with element := Function.update l.element n { l.element n with strong := strong } }

def demote (l : LRU κ ν) (n : Nat) : Outcome (LRU κ ν) := do
  asserting (l.isStrong n)
  return l.setStrong n none

def promote (l : LRU κ ν) (n : Nat) (v : ν) : Outcome (LRU κ ν) := do
  asserting ¬l.isStrong n
  return l.setStrong n (some v)

/-- Taking an element out of a list. -/
def take (list : List Nat) (n : Nat) : Outcome (List Nat) := do
  asserting (n ∈ list)
  return list.erase n

/-- The first loop of `grow`. -/
def demoteOver : Nat → LRU κ ν → Outcome (LRU κ ν)
  | fuel, l =>
    if l.cacheList.length ≤ l.sizeLimit then return l else
    match fuel, l.cacheList.getLast? with
    | fuel + 1, some n => do
      let l ← l.demote n
      demoteOver fuel { l with cacheList := l.cacheList.dropLast, weakList := n :: l.weakList }
    | _, _ => .failed

/-- The second loop of `grow`, over what is left of the weak list. -/
def collect (held : ν → Nat) : List Nat → LRU κ ν → LRU κ ν
  | [], l => l
  | n :: rest, l =>
    if l.expired held n then
      collect held rest { l with
        cacheMap := Function.update l.cacheMap (l.element n).key none, weakList := l.weakList.erase n }
    else collect held rest l

def grow (held : ν → Nat) (l : LRU κ ν) : Outcome (LRU κ ν) := do
  let l ← demoteOver l.cacheList.length l
  return collect held l.weakList l

def insert (held : ν → Nat) (l : LRU κ ν) (key : κ) (value : Option ν) : Outcome (LRU κ ν) := do
  let it := l.cacheMap key
  let n := l.made
  let l := { l with
    element := Function.update l.element n ⟨key, value, value⟩, made := n + 1, cacheList := n :: l.cacheList }
  let l ← match it with
    | some old => do
      let l ←
        if l.isStrong old then do pure { l with cacheList := ← take l.cacheList old }
        else do pure { l with weakList := ← take l.weakList old }
      pure { l with cacheMap := Function.update l.cacheMap key (some n) }
    | none => pure { l with cacheMap := Function.update l.cacheMap key (some n) }
  grow held l

/-- Also the pointer returned, which is held from the moment it is found. -/
def get (held : ν → Nat) (l : LRU κ ν) (key : κ) : Outcome (LRU κ ν × Option ν) :=
  match l.cacheMap key with
  | none => return (l, none)
  | some n =>
    match l.getValue held n with
    | some ptr =>
      if l.isStrong n then do
        return ({ l with cacheList := n :: (← take l.cacheList n) }, some ptr)
      else do
        let l ← l.promote n ptr
        let l := { l with weakList := ← take l.weakList n, cacheList := n :: l.cacheList }
        return (← grow (Function.update held ptr (held ptr + 1)) l, some ptr)
    | none => do
      return ({ l with
        weakList := ← take l.weakList n, cacheMap := Function.update l.cacheMap key none }, none)

def clear (l : LRU κ ν) : LRU κ ν := { l with cacheMap := fun _ => none, cacheList := [], weakList := [] }

/-! ## In an environment -/

/-- The cache; how many strong pointers there are elsewhere, and which values
were ever made; and what `get` returned last. -/
structure Config (κ ν : Type) where
  lru : LRU κ ν
  held : ν → Nat
  created : ν → Bool
  returned : Option ν

inductive Act (κ ν : Type) where
  /-- A new value, with one pointer to it. -/
  | create (v : ν)
  | copy (v : ν)
  | drop (v : ν)
  | insert (key : κ) (value : Option ν)
  | get (key : κ)
  | clear

def next (c : Config κ ν) : Act κ ν → Outcome (Config κ ν)
  | .create v => do
    requiring ¬c.created v
    return { c with held := Function.update c.held v 1, created := Function.update c.created v true }
  | .copy v => do
    requiring (0 < c.held v)
    return { c with held := Function.update c.held v (c.held v + 1) }
  | .drop v => do
    requiring (0 < c.held v)
    return { c with held := Function.update c.held v (c.held v - 1) }
  | .insert key value => do
    requiring (∀ v ∈ value, 0 < c.held v)
    return { c with lru := ← insert c.held c.lru key value }
  | .get key => do
    let (l, ptr) ← get c.held c.lru key
    let held := ptr.elim c.held fun v => Function.update c.held v (c.held v + 1)
    return { c with lru := l, held := held, returned := ptr }
  | .clear => return { c with lru := c.lru.clear }

def init (limit : Nat) (garbage : Nat → CacheElement κ ν) : Config κ ν :=
  ⟨new limit garbage, fun _ => 0, fun _ => false, none⟩

end LRU
