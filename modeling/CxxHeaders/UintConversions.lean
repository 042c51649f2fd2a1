/-
`uint_t.h`, `integer_demotion.h`: the constructors of `uint_t`, and the ways
back to smaller integers. There are five paths, and the widths of the two types
and of their blocks choose between them. `bool` is left out.
-/
import CxxHeaders.Uint
import CxxHeaders.Uint128

open Outcome

/-- The integers that there are conversions between. -/
inductive Integer where
  | unsigned (T : UnsignedType)
  | uint128
  | uint (N : Nat) (B : UnsignedType)
  deriving DecidableEq

def Integer.Value : Integer → Type
  | .unsigned T => BitVec T.bits
  | .uint128 => Uint128
  | .uint N B => Uint N B

def Integer.sizeInBits : Integer → Nat
  | .unsigned T => T.bits
  | .uint128 => 128
  | .uint N _ => N

namespace Uint

variable {N M : Nat} {B C : UnsignedType}

/-! ## Constructors -/

/-- How the blocks lie in memory. -/
def bytes (host : Endian) (x : Uint N B) : List UInt8 :=
  x.blocks.flatMap fun b => Bytes.encode host B.sizeof b.toNat

def ofBytes (host : Endian) (bs : List UInt8) : Uint N B :=
  ofBlocks fun i => BitVec.ofNat _ (Bytes.decode host ((bs.drop (B.sizeof * i)).take B.sizeof))

/-- `memcpy` over the first `n` bytes of `dest`. -/
def memcpy (host : Endian) (dest : Uint N B) (other : Uint M C) (n : Nat) : Uint N B :=
  ofBytes host ((other.bytes host).take n ++ (dest.bytes host).drop n)

/-- From a `uint_t` of other blocks, or of another width. -/
def ofUint (host : Endian) (other : Uint M C) : Uint N B :=
  let s1 := numOfBlocks N B * B.sizeof
  let s2 := numOfBlocks M C * C.sizeof
  (memcpy host zero other (min s1 s2)).clearUnusedBits

def ofUint128 (other : Uint128) : Outcome (Uint N B) := do
  let dest := ofInt 0
  let dest := dest.add (ofUnsigned .uint64 other.upper)
  let dest ← dest.shiftLeft 64
  let dest := dest.add (ofUnsigned .uint64 other.lower)
  return dest.clearUnusedBits

/-- `constructor_`. -/
def construct (host : Endian) (N : Nat) (B : UnsignedType) :
    (src : Integer) → src.Value → Outcome (Uint N B)
  | .unsigned T, val => return ofUnsigned T val
  | .uint128, val => ofUint128 val
  | .uint M C, other =>
    if h : M = N ∧ C = B then return h.1 ▸ h.2 ▸ other
    else return ofUint host other

/-! ## Demotion -/

/-- The loop of `demote` and `demote_to_other_uint_t`, from block `i - 1` down. -/
def demoteBlocks {T : Type} (shl : T → Nat → Outcome T) (add : T → BitVec B.bits → T) (x : Uint N B) :
    Nat → T → Outcome T
  | 0, out => return out
  | i + 1, out => do
    let out ← shl out B.bits
    demoteBlocks shl add x i (add out (x.block i))

def demoteToUnsigned (T : UnsignedType) (x : Uint N B) : Outcome (BitVec T.bits) :=
  if T.bits ≤ B.bits then return x.leastSignificantBlock.setWidth T.bits
  else demoteBlocks (fun out k => .next (out <<< k)) (fun out b => out + b.setWidth T.bits) x
    (numOfBlocks N B) 0

/-- No block has 128 bits. -/
def demoteToUint128 (x : Uint N B) : Outcome Uint128 :=
  demoteBlocks Uint128.shiftLeft (fun out b => out.add (.ofLower (b.setWidth 64))) x (numOfBlocks N B)
    (.ofLower 0)

def demoteToOtherUint (M : Nat) (C : UnsignedType) (x : Uint N B) : Outcome (Uint M C) :=
  if M ≤ B.bits then return ofUnsigned B x.leastSignificantBlock
  else demoteBlocks shiftLeft (fun out b => out.add (ofUnsigned B b)) x (numOfBlocks N B) (ofInt 0)

def demote (x : Uint N B) : (dst : Integer) → Outcome dst.Value
  | .unsigned T => x.demoteToUnsigned T
  | .uint128 => x.demoteToUint128
  | .uint M C => x.demoteToOtherUint M C

end Uint

namespace Integer

/-- `can_demote`: there is a `demote_integer_impl` for the two types. -/
def canDemote : (dst src : Integer) → Bool
  | .unsigned T, .unsigned U => T.bits < U.bits
  | .uint N _, .unsigned U => N < U.bits
  | .unsigned T, .uint N _ => T.bits < N
  | .uint M _, .uint N _ => M < N
  | .uint128, .uint N _ => 128 < N
  | .unsigned _, .uint128 => true
  | .uint128, .unsigned _ | .uint128, .uint128 | .uint _ _, .uint128 => false

/-- `demote_integer`. -/
def demoteInteger (host : Endian) : (dst src : Integer) → src.Value → Outcome dst.Value
  | .unsigned T, .unsigned _, x => .next (x.setWidth T.bits)
  | .unsigned T, .uint128, x => .next (x.lower.setWidth T.bits)
  | .uint N B, .unsigned U, x => Uint.construct host N B (.unsigned U) x
  | dst, .uint N B, x => Uint.demote (N := N) (B := B) x dst
  | _, _, _ => .blocked

end Integer
