/-
`BitVector.h`: `BitVec`, a vector of bits in blocks.

The bits of the last block behind the end of the vector are not kept at zero,
and an operation may leave anything there. A block that is asked for and not
there is a failure, as is an assertion that does not hold. A `std::vector`
that was moved from is empty.
-/
import CxxHeaders.BitBlocks
import CxxHeaders.EndianMacros
import CxxHeaders.Runs

open Outcome BitBlocks

structure BitVector (w : Nat) where
  blocks : List (BitVec w)
  numBits : Nat
  deriving DecidableEq

/-- What the class `reference` can do to its bit. -/
inductive BitVector.Assignment where
  | assign (x : Bool)
  | or (x : Bool)
  | and (x : Bool)
  | xor (x : Bool)
  | minus (x : Bool)
  | flip

namespace BitVector

variable {w : Nat}

/-! ## One bit -/

def setBit (block mask : BitVec w) : BitVec w := block ||| mask
def resetBit (block mask : BitVec w) : BitVec w := block &&& ~~~mask
def flipBit (block mask : BitVec w) : BitVec w := block ^^^ mask

def assignBit (block mask : BitVec w) (x : Bool) : BitVec w :=
  if x then setBit block mask else resetBit block mask

def Assignment.apply (block mask : BitVec w) : Assignment → BitVec w
  | .assign x => assignBit block mask x
  | .or x => if x then setBit block mask else block
  | .and x => if x then block else resetBit block mask
  | .xor x => if x then flipBit block mask else block
  | .minus x => if x then resetBit block mask else block
  | .flip => flipBit block mask

/-- `m_blocks[i]`. -/
def block (v : BitVector w) (i : Nat) : Outcome (BitVec w) :=
  match v.blocks[i]? with
  | none => .failed
  | some b => .next b

/-- `operator []`. -/
def get (v : BitVector w) (idx : Nat) : Outcome Bool := do
  asserting (idx < v.numBits)
  let b ← v.block (idx / w)
  return b &&& mask w idx ≠ 0#w

/-- `at`, or none if it throws `std::out_of_range`. -/
def get? (v : BitVector w) (idx : Nat) : Outcome (Option Bool) :=
  if v.numBits ≤ idx then .next none else do return some (← v.get idx)

/-- `v[idx]` is a `reference`, and something is done to it. -/
def modify (v : BitVector w) (idx : Nat) (op : Assignment) : Outcome (BitVector w) := do
  asserting (idx < v.numBits)
  let _ ← v.block (idx / w)
  return { v with blocks := v.blocks.modify (idx / w) fun b => op.apply b (mask w idx) }

/-! ## All blocks -/

def set (v : BitVector w) : BitVector w := { v with blocks := v.blocks.map fun _ => ~~~0#w }
def reset (v : BitVector w) : BitVector w := { v with blocks := v.blocks.map fun _ => 0#w }
def flip (v : BitVector w) : BitVector w := { v with blocks := v.blocks.map (~~~·) }

/-- The loop of the compound operators. -/
def combineBlocks (op : BitVec w → BitVec w → BitVec w) :
    List (BitVec w) → List (BitVec w) → Outcome (List (BitVec w))
  | [], _ => return []
  | _ :: _, [] => .failed
  | b :: bs, c :: cs => do return op b c :: (← combineBlocks op bs cs)

def combine (op : BitVec w → BitVec w → BitVec w) (v other : BitVector w) : Outcome (BitVector w) := do
  asserting (v.numBits = other.numBits)
  return { v with blocks := ← combineBlocks op v.blocks other.blocks }

/-- `operator ^=`, `operator |=` and `operator &=`. -/
def xorAssign (v other : BitVector w) : Outcome (BitVector w) := combine (· ^^^ ·) v other
def orAssign (v other : BitVector w) : Outcome (BitVector w) := combine (· ||| ·) v other
def andAssign (v other : BitVector w) : Outcome (BitVector w) := combine (· &&& ·) v other

/-- The loop of `equals_`, and the comparison of the last blocks behind it. -/
def equalBlocks (mask : BitVec w) : List (BitVec w) → List (BitVec w) → Outcome Bool
  | b :: _, [c] => return (b ^^^ c) &&& mask = 0#w
  | b :: bs, c :: cs => if b ≠ c then return false else equalBlocks mask bs cs
  | _, _ => .failed

/-- `equals_`, which is `operator ==`. -/
def equals (v other : BitVector w) : Outcome Bool :=
  if v.numBits ≠ other.numBits then return false
  else if v.numBits = 0 then return true
  else
    let last := mask w (v.numBits - 1)
    equalBlocks (last ||| (last - 1#w)) v.blocks other.blocks

/-! ## Construction and size -/

def new (numBits : Nat) (val : Bool) : BitVector w :=
  ⟨List.replicate (count w numBits) (if val then ~~~0#w else 0#w), numBits⟩

def resize (v : BitVector w) (numBits : Nat) : BitVector w :=
  ⟨v.blocks.takeD (count w numBits) 0#w, numBits⟩

def clear (_ : BitVector w) : BitVector w := ⟨[], 0⟩

def clearAndRelease (v : BitVector w) : BitVector w := { v with blocks := [] }

def pushBack (v : BitVector w) (val : Bool) : Outcome (BitVector w) := do
  let blocks := if v.numBits % w = 0 then v.blocks ++ [0#w] else v.blocks
  asserting (blocks ≠ [])
  return ⟨blocks.modify (blocks.length - 1) fun b => assignBit b (mask w v.numBits) val, v.numBits + 1⟩

def popBack (v : BitVector w) : Outcome (BitVector w) := do
  asserting (v.numBits ≠ 0)
  let numBits := v.numBits - 1
  if numBits % w ≠ 0 then return { v with numBits := numBits }
  asserting (v.blocks ≠ [])
  return ⟨v.blocks.dropLast, numBits⟩

/-! ## Assignment -/

def assign (v other : BitVector w) : Outcome (BitVector w) := do
  asserting (v.numBits = other.numBits)
  asserting (other.blocks.length ≤ v.blocks.length)
  return { v with blocks := other.blocks ++ v.blocks.drop other.blocks.length }

def assignFill (v : BitVector w) (n : Nat) (val : Bool) : BitVector w :=
  let v := v.resize n
  if val then v.set else v.reset

/-- The loop of `assign_`, with its iterator at the block of this number. -/
def assignBits : List Bool → List (BitVec w) → Nat → BitVec w → Outcome (List (BitVec w))
  | [], blocks, _, _ => return blocks
  | x :: xs, blocks, i, mask => do
    asserting (x = true → i < blocks.length)
    let blocks := if x then blocks.modify i (· ||| mask) else blocks
    let mask := mask <<< 1
    if mask = 0#w then assignBits xs blocks (i + 1) 1#w else assignBits xs blocks i mask

def assignRange (v : BitVector w) (range : List Bool) : Outcome (BitVector w) := do
  if range = [] then return v
  asserting (v.numBits = range.length)
  return { v with blocks := ← assignBits range v.reset.blocks 0 1#w }

/-- What is found from one iterator to another: on the first walk, and when the
same two iterators are walked once more. -/
structure InputRange where
  elems : List Bool
  again : List Bool

/-- Iterators that may be walked as often as one likes. -/
def InputRange.forward (elems : List Bool) : InputRange := ⟨elems, elems⟩

/-- `std::istream_iterator`s: the first one has its element still, and is at the
end of the stream behind it. -/
def InputRange.stream (elems : List Bool) : InputRange := ⟨elems, elems.take 1⟩

/-- The constructor from a range, which walks it for its length first. -/
def ofInputRange (range : InputRange) : Outcome (BitVector w) :=
  assignRange ⟨List.replicate (count w range.elems.length) 0#w, range.elems.length⟩ range.again

def ofRange (range : List Bool) : Outcome (BitVector w) := ofInputRange (.forward range)

/-- What `append` puts behind the last block. -/
def appendBlocks (r : Nat) : BitVec w → List (BitVec w) → List (BitVec w)
  | b, [] => [b >>> (w - r)]
  | b, c :: cs => (b >>> (w - r) ||| c <<< r) :: appendBlocks r c cs

def append (v other : BitVector w) : Outcome (BitVector w) := do
  let r := v.numBits % w
  let numBits := v.numBits + other.numBits
  if r = 0 then return ⟨v.blocks ++ other.blocks, numBits⟩
  asserting (v.numBits ≠ 0)
  asserting (v.blocks ≠ [])
  match other.blocks with
  -- `*i` is read without a look at the end
  | [] => .failed
  | b :: bs =>
    let blocks := v.blocks.modify (v.blocks.length - 1) (· ||| b <<< r)
    return ⟨blocks ++ appendBlocks r b bs, numBits⟩

/-! ## Serialization -/

/-- The inner loop of `deserialize`, which goes on at the given block. -/
def readBlocks (word : BitVec 64) : Nat → Nat → List (BitVec w) → Nat → List (BitVec w) × Nat
  | 0, _, blocks, i => (blocks, i)
  | k + 1, b, blocks, i =>
    if i = blocks.length then (blocks, i)
    else readBlocks word k (b + w) (blocks.modify i (· ||| (word >>> b).setWidth w)) (i + 1)

/-- The outer loop, whether all the words could be read, and those that are left. -/
def readWords : Nat → List (BitVec 64) → List (BitVec w) → Nat →
    (List (BitVec w) × Nat × Bool) × List (BitVec 64)
  | 0, msg, blocks, i => ((blocks, i, true), msg)
  | _ + 1, [], blocks, i => ((blocks, i, false), [])
  | k + 1, word :: msg, blocks, i =>
    let (blocks, i) := readBlocks word (64 / w) 0 blocks i
    readWords k msg blocks i

/-- The message gives these words before a read of it fails. Also those that are
left of it. -/
def deserializeFrom (v : BitVector w) (msg : List (BitVec 64)) :
    Outcome ((BitVector w × Bool) × List (BitVec 64)) :=
  match msg with
  | [] => return ((v, false), [])
  | numBits :: msg =>
    if numBits.toNat ≠ v.numBits then return ((v, false), msg)
    else
      let ((blocks, i, read), msg) := readWords (count 64 v.numBits) msg v.reset.blocks 0
      if ¬read then return (({ v with blocks := blocks }, false), msg)
      else do
        asserting (i = blocks.length)
        return (({ v with blocks := blocks }, true), msg)

def deserialize (v : BitVector w) (msg : List (BitVec 64)) : Outcome (BitVector w × Bool) := do
  return (← v.deserializeFrom msg).1

/-- The inner loop of `serialize`, which goes on at the given block. -/
def writeBlocks (blocks : List (BitVec w)) : Nat → Nat → BitVec 64 → Nat → BitVec 64 × Nat
  | 0, _, block, i => (block, i)
  | k + 1, b, block, i =>
    if i = blocks.length then (block, i)
    else writeBlocks blocks k (b + w) (block ||| (blocks.getD i 0#w).setWidth 64 <<< b) (i + 1)

/-- The outer loop: the words it writes, and the block it gets to. -/
def writeWords (blocks : List (BitVec w)) : Nat → Nat → List (BitVec 64) × Nat
  | 0, i => ([], i)
  | k + 1, i =>
    let (block, i) := writeBlocks blocks (64 / w) 0 0 i
    let (words, i) := writeWords blocks k i
    (block :: words, i)

/-- The words that are written to the message. -/
def serialize (v : BitVector w) : Outcome (List (BitVec 64)) := do
  let (words, i) := writeWords v.blocks (count 64 v.numBits) 0
  asserting (i = v.blocks.length)
  return BitVec.ofNat 64 v.numBits :: words

/-! ## Any number of vectors -/

inductive Act (κ : Type) where
  | new (x : κ) (numBits : Nat) (val : Bool)
  /-- From iterators that may be walked more than once. -/
  | ofRange (x : κ) (range : List Bool)
  /-- `x` is constructed from `y`, which is moved from. -/
  | moveNew (x y : κ)
  | destroy (x : κ)
  | moveAssign (x y : κ)
  | swap (x y : κ)
  | pushBack (x : κ) (val : Bool)
  | popBack (x : κ)
  | modify (x : κ) (idx : Nat) (op : Assignment)
  /-- `x[i] = y[j]`. -/
  | copyBit (x : κ) (i : Nat) (y : κ) (j : Nat)
  | assign (x y : κ)
  | assignFill (x : κ) (n : Nat) (val : Bool)
  | assignRange (x : κ) (range : List Bool)
  | set (x : κ)
  | reset (x : κ)
  | flip (x : κ)
  | xorAssign (x y : κ)
  | orAssign (x y : κ)
  | andAssign (x y : κ)
  | resize (x : κ) (numBits : Nat)
  | clear (x : κ)
  | clearAndRelease (x : κ)
  | append (x y : κ)
  | deserialize (x : κ) (msg : List (BitVec 64))

variable {κ ρ : Type} [DecidableEq κ]

/-- Constructs `x`. -/
def make (c : κ → Option ρ) (x : κ) (v : Outcome ρ) : Outcome (κ → Option ρ) := do
  requiring (c x).isNone
  return Function.update c x (some (← v))

/-- Changes `x`. -/
def on (c : κ → Option ρ) (x : κ) (f : ρ → Outcome ρ) : Outcome (κ → Option ρ) :=
  match c x with
  | none => .blocked
  | some v => do return Function.update c x (some (← f v))

/-- Changes `x`, with a look at `y`. -/
def onBoth (c : κ → Option ρ) (x y : κ) (f : ρ → ρ → Outcome ρ) : Outcome (κ → Option ρ) :=
  match c y with
  | none => .blocked
  | some u => on c x fun v => f v u

/-- Moves `y` out, which is then as `moved` says. -/
def take (c : κ → Option ρ) (y : κ) (moved : ρ) (f : (κ → Option ρ) → ρ → Outcome (κ → Option ρ)) :
    Outcome (κ → Option ρ) :=
  match c y with
  | none => .blocked
  | some u => f (Function.update c y (some moved)) u

/-- What is asked of the caller, by the assertions of the code, comes first. -/
def next (c : κ → Option (BitVector w)) : Act κ → Outcome (κ → Option (BitVector w))
  | .new x numBits val => make c x (.next (new numBits val))
  | .ofRange x range => make c x (ofRange range)
  | .moveNew x y => take c y ⟨[], 0⟩ fun c v => make c x (.next v)
  | .destroy x => do
    requiring (c x).isSome
    return Function.update c x none
  | .moveAssign x y => do
    requiring (x ≠ y)
    take c y ⟨[], 0⟩ fun c v => on c x fun _ => .next v
  | .swap x y => do
    requiring (x ≠ y)
    match c x with
    | none => .blocked
    | some u => take c y u fun c v => on c x fun _ => .next v
  | .pushBack x val => on c x (·.pushBack val)
  | .popBack x => on c x fun v => do
    requiring (v.numBits ≠ 0)
    v.popBack
  | .modify x idx op => on c x fun v => do
    requiring (idx < v.numBits)
    v.modify idx op
  | .copyBit x i y j => onBoth c x y fun v u => do
    requiring (i < v.numBits ∧ j < u.numBits)
    v.modify i (.assign (← u.get j))
  | .assign x y => do
    requiring (x ≠ y)
    onBoth c x y fun v u => do
      requiring (v.numBits = u.numBits)
      v.assign u
  | .assignFill x n val => on c x fun v => .next (v.assignFill n val)
  | .assignRange x range => on c x fun v => do
    requiring (range ≠ [] → v.numBits = range.length)
    v.assignRange range
  | .set x => on c x fun v => .next v.set
  | .reset x => on c x fun v => .next v.reset
  | .flip x => on c x fun v => .next v.flip
  | .xorAssign x y => onBoth c x y fun v u => do
    requiring (v.numBits = u.numBits)
    v.xorAssign u
  | .orAssign x y => onBoth c x y fun v u => do
    requiring (v.numBits = u.numBits)
    v.orAssign u
  | .andAssign x y => onBoth c x y fun v u => do
    requiring (v.numBits = u.numBits)
    v.andAssign u
  | .resize x numBits => on c x fun v => .next (v.resize numBits)
  | .clear x => on c x fun v => .next v.clear
  | .clearAndRelease x => on c x fun v => .next v.clearAndRelease
  | .append x y => do
    requiring (x ≠ y)
    onBoth c x y append
  | .deserialize x msg => on c x fun v => do return (← v.deserialize msg).1

end BitVector
