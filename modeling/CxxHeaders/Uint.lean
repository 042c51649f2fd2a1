/-
`uint_t.h`: unsigned integers of any fixed number of bits, in blocks of one of
the unsigned types, the lowest block first.

Blocks are `BitVec`s: that C++ computes with the narrower ones as `int`, and
cuts the results off, is left out. `block(i)` is only asked for where there is
one. Random numbers and references to bits are left out.
-/
import CxxHeaders.EndianMacros
import CxxHeaders.Runs

open Outcome

namespace Uint

/-- `num_of_blocks`. -/
def numOfBlocks (N : Nat) (B : UnsignedType) : Nat :=
  let numOfBytes := (N + 7) / 8
  (numOfBytes + B.sizeof - 1) / B.sizeof

end Uint

structure Uint (N : Nat) (B : UnsignedType) where
  blocks : List (BitVec B.bits)
  length_blocks : blocks.length = Uint.numOfBlocks N B

namespace Uint

variable {N : Nat} {B : UnsignedType} {w : Nat}

/-- A truth value, as a block. -/
def flag (b : Bool) : BitVec w := if b then 1 else 0

/-- Every block written anew. -/
def ofBlocks (f : Nat → BitVec B.bits) : Uint N B :=
  ⟨(List.range (numOfBlocks N B)).map f, by rw [List.length_map, List.length_range]⟩

def block (x : Uint N B) (i : Nat) : BitVec B.bits := x.blocks.getD i 0

def setBlock (x : Uint N B) (i : Nat) (b : BitVec B.bits) : Uint N B :=
  ⟨x.blocks.set i b, by rw [List.length_set, x.length_blocks]⟩

def leastSignificantBlock (x : Uint N B) : BitVec B.bits := x.block 0

def mostSignificantBlock (x : Uint N B) : BitVec B.bits := x.block (numOfBlocks N B - 1)

def lastBlockMask (N : Nat) (B : UnsignedType) : BitVec B.bits :=
  (~~~0 : BitVec B.bits) >>> (B.bits * numOfBlocks N B - N)

def clearUnusedBits (x : Uint N B) : Uint N B :=
  x.setBlock (numOfBlocks N B - 1) (x.mostSignificantBlock &&& lastBlockMask N B)

/-! ## Constructors -/

/-- `uint_t()`. -/
def zero : Uint N B := ⟨List.replicate (numOfBlocks N B) 0, List.length_replicate⟩

/-- The loop of `copy_bits_` that writes `i` blocks, the last of them first. -/
def fill {t : Nat} : Nat → BitVec t → List (BitVec w) → List (BitVec w)
  | 0, _, blocks => blocks
  | i + 1, temp, blocks => fill i (temp >>> w) (temp.setWidth w :: blocks)

theorem length_fill {t : Nat} (i : Nat) (temp : BitVec t) (blocks : List (BitVec w)) :
    (fill i temp blocks).length = i + blocks.length := by
  induction i generalizing temp blocks with
  | zero => rw [fill, Nat.zero_add]
  | succ i ih =>
    rw [fill, ih, List.length_cons]
    omega

/-- From a number of an unsigned type. -/
def ofUnsigned (T : UnsignedType) (val : BitVec T.bits) : Uint N B :=
  if T.sizeof ≤ B.sizeof then (setBlock zero 0 (val.setWidth B.bits)).clearUnusedBits
  else
    (⟨(fill (numOfBlocks N B) val []).reverse, by rw [List.length_reverse, length_fill]; rfl⟩ :
      Uint N B).clearUnusedBits

/-- From an `int` that is not negative. -/
def ofInt (val : Nat) : Uint N B := ofUnsigned .uint32 (BitVec.ofNat _ val)

/-! ## Blocks up and down -/

def shiftBlocksRight (x : Uint N B) (offset : Nat) : Outcome (Uint N B) := do
  asserting (offset ≤ numOfBlocks N B)
  return ofBlocks fun i => if i + offset < numOfBlocks N B then x.block (i + offset) else 0

def shiftBlocksLeft (x : Uint N B) (offset : Nat) : Outcome (Uint N B) := do
  asserting (offset ≤ numOfBlocks N B)
  return (ofBlocks fun i => if i < offset then 0 else x.block (i - offset)).clearUnusedBits

/-! ## Bitwise operations -/

def not (x : Uint N B) : Uint N B := (ofBlocks fun i => ~~~x.block i).clearUnusedBits

def and (x y : Uint N B) : Uint N B := ofBlocks fun i => x.block i &&& y.block i

def xor (x y : Uint N B) : Uint N B := ofBlocks fun i => x.block i ^^^ y.block i

def or (x y : Uint N B) : Uint N B := ofBlocks fun i => x.block i ||| y.block i

def shiftLeft (x : Uint N B) (shift : Nat) : Outcome (Uint N B) := do
  asserting (shift < N)
  if shift = 0 then return x
  let blockShift := shift / B.bits
  let bitShift := shift % B.bits
  if bitShift = 0 then x.shiftBlocksLeft blockShift
  else do
    asserting (0 < bitShift ∧ bitShift < B.bits)
    let result : Uint N B := ofBlocks fun i =>
      if i < blockShift then 0
      else if i = blockShift then x.block 0 <<< bitShift
      else x.block (i - blockShift) <<< bitShift ||| x.block (i - blockShift - 1) >>> (B.bits - bitShift)
    return result.clearUnusedBits

def shiftRight (x : Uint N B) (shift : Nat) : Outcome (Uint N B) := do
  asserting (shift < N)
  if shift = 0 then return x
  let blockShift := shift / B.bits
  let blockKeep := numOfBlocks N B - blockShift - 1
  let bitShift := shift % B.bits
  if bitShift = 0 then x.shiftBlocksRight blockShift
  else do
    asserting (0 < bitShift ∧ bitShift < B.bits)
    let result : Uint N B := ofBlocks fun i =>
      if i < blockKeep then
        x.block (i + blockShift) >>> bitShift ||| x.block (i + blockShift + 1) <<< (B.bits - bitShift)
      else if i = blockKeep then x.mostSignificantBlock >>> bitShift
      else 0
    return result.clearUnusedBits

/-- How often the loop of `as_uint64_t` goes round: until `j` is no longer less
than `s`, where `j` grows by the bits in a block. -/
def rounds (N : Nat) (B : UnsignedType) : Nat := (min N 64 + B.bits - 1) / B.bits

def asUint64 (x : Uint N B) : BitVec 64 :=
  (List.range (rounds N B)).foldl (fun out i => out ^^^ (x.block i).setWidth 64 <<< (B.bits * i)) 0

/-- `operator <<` by a number of the same type. -/
def shiftLeftBy (x shift : Uint N B) : Outcome (Uint N B) := x.shiftLeft shift.asUint64.toNat

def shiftRightBy (x shift : Uint N B) : Outcome (Uint N B) := x.shiftRight shift.asUint64.toNat

/-! ## Arithmetic operations -/

/-- The loop of `operator +`. -/
def addBlocks : Bool → List (BitVec w) → List (BitVec w) → List (BitVec w)
  | carry, x :: xs, y :: ys =>
    let temp := x + y + flag carry
    let limit := if y < x then y else x
    temp :: addBlocks (temp < limit || (carry && temp == limit)) xs ys
  | _, _, _ => []

/-- The loop of `operator -`. -/
def subBlocks : Bool → List (BitVec w) → List (BitVec w) → List (BitVec w)
  | borrow, x :: xs, y :: ys =>
    let temp := x - flag borrow
    (temp - y) :: subBlocks (y > temp || (borrow && x == 0)) xs ys
  | _, _, _ => []

def incrementBlocks : BitVec w → List (BitVec w) → List (BitVec w)
  | _, [] => []
  | carry, b :: bs => (b + carry) :: incrementBlocks (flag (b + carry < carry)) bs

def decrementBlocks : BitVec w → List (BitVec w) → List (BitVec w)
  | _, [] => []
  | borrow, temp :: bs => (temp - borrow) :: decrementBlocks (flag (borrow > temp)) bs

theorem length_addBlocks (carry : Bool) {xs ys : List (BitVec w)} (h : xs.length = ys.length) :
    (addBlocks carry xs ys).length = xs.length := by
  induction xs generalizing carry ys with
  | nil => rfl
  | cons x xs ih =>
    cases ys with
    | nil => cases h
    | cons y ys => exact congrArg Nat.succ (ih _ (Nat.succ.inj h))

theorem length_subBlocks (borrow : Bool) {xs ys : List (BitVec w)} (h : xs.length = ys.length) :
    (subBlocks borrow xs ys).length = xs.length := by
  induction xs generalizing borrow ys with
  | nil => rfl
  | cons x xs ih =>
    cases ys with
    | nil => cases h
    | cons y ys => exact congrArg Nat.succ (ih _ (Nat.succ.inj h))

theorem length_incrementBlocks (carry : BitVec w) (bs : List (BitVec w)) :
    (incrementBlocks carry bs).length = bs.length := by
  induction bs generalizing carry with
  | nil => rfl
  | cons b bs ih => exact congrArg Nat.succ (ih _)

theorem length_decrementBlocks (borrow : BitVec w) (bs : List (BitVec w)) :
    (decrementBlocks borrow bs).length = bs.length := by
  induction bs generalizing borrow with
  | nil => rfl
  | cons b bs ih => exact congrArg Nat.succ (ih _)

theorem length_eq (x y : Uint N B) : x.blocks.length = y.blocks.length :=
  x.length_blocks.trans y.length_blocks.symm

def add (x y : Uint N B) : Uint N B :=
  (⟨addBlocks false x.blocks y.blocks, by rw [length_addBlocks _ (length_eq x y), x.length_blocks]⟩ :
    Uint N B).clearUnusedBits

def sub (x y : Uint N B) : Uint N B :=
  (⟨subBlocks false x.blocks y.blocks, by rw [length_subBlocks _ (length_eq x y), x.length_blocks]⟩ :
    Uint N B).clearUnusedBits

def neg (x : Uint N B) : Uint N B := (ofInt 0).sub x

/-- `operator ++` and `operator --` return it before or after the change; this
is after. -/
def increment (x : Uint N B) : Uint N B :=
  (⟨incrementBlocks 1 x.blocks, by rw [length_incrementBlocks, x.length_blocks]⟩ :
    Uint N B).clearUnusedBits

def decrement (x : Uint N B) : Uint N B :=
  (⟨decrementBlocks 1 x.blocks, by rw [length_decrementBlocks, x.length_blocks]⟩ :
    Uint N B).clearUnusedBits

structure Mul (w : Nat) where
  hi : BitVec w
  lo : BitVec w

/-- With an unsigned type of twice the size. -/
def multHiLoDouble (u v : BitVec w) : Mul w :=
  let resValue := u.setWidth (2 * w) * v.setWidth (2 * w)
  ⟨(resValue >>> w).setWidth w, resValue.setWidth w⟩

/-- By halves of 32 bits. -/
def multHiLo64 (u v : BitVec 64) : Mul 64 :=
  let u1 := u >>> 32
  let u0 := u &&& 0xFFFFFFFF
  let v1 := v >>> 32
  let v0 := v &&& 0xFFFFFFFF
  let t := u0 * v0
  let w0 := t &&& 0xFFFFFFFF
  let k := t >>> 32
  let t := u1 * v0 + k
  let w1 := t &&& 0xFFFFFFFF
  let w2 := t >>> 32
  let t := u0 * v1 + w1
  let k := t >>> 32
  ⟨u1 * v1 + w2 + k, (t <<< 32) + w0⟩

def multHiLo : (B : UnsignedType) → BitVec B.bits → BitVec B.bits → Mul B.bits
  | .uint64 => multHiLo64
  | .uint8 | .uint16 | .uint32 => multHiLoDouble

/-- The inner loop of `operator *`, the first `j` rounds of it. -/
def addColumn (x y : Uint N B) (i : Nat) (carry : Uint N B) : Nat → Outcome (Uint N B)
  | 0 => return carry
  | j + 1 => do
    let carry ← addColumn x y i carry j
    let mult := multHiLo B (x.block j) (y.block (i - j))
    let temp ← (ofUnsigned B mult.hi).shiftBlocksLeft 1
    let temp := temp.setBlock 0 (temp.leastSignificantBlock ||| mult.lo)
    return carry.add temp

/-- The outer one, the first `i` rounds: `result` and `carry`. -/
def mulColumns (x y : Uint N B) : Nat → Outcome (Uint N B × Uint N B)
  | 0 => return (ofInt 0, ofInt 0)
  | i + 1 => do
    let (result, carry) ← mulColumns x y i
    let carry ← addColumn x y i carry (i + 1)
    let result := result.setBlock i carry.leastSignificantBlock
    return (result, ← carry.shiftBlocksRight 1)

def mul (x y : Uint N B) : Outcome (Uint N B) :=
  if numOfBlocks N B = 1 then
    return (ofUnsigned B (x.leastSignificantBlock * y.leastSignificantBlock)).clearUnusedBits
  else do
    let (result, _) ← mulColumns x y (numOfBlocks N B)
    return result.clearUnusedBits

/-! ## Relational operations -/

def eq (x y : Uint N B) : Bool := (List.range (numOfBlocks N B)).all fun i => x.block i == y.block i

/-- The loop of `operator <` over the first `i` blocks, the highest first. -/
def ltFrom (x y : Uint N B) : Nat → Bool
  | 0 => false
  | i + 1 =>
    if x.block i < y.block i then true
    else if x.block i > y.block i then false
    else ltFrom x y i

def lt (x y : Uint N B) : Bool := ltFrom x y (numOfBlocks N B)

end Uint
