/-
`uint128_t.h`: unsigned 128-bit integers in two 64-bit halves.

Output and random numbers are left out. An exception is an error of what the
operation returns.
-/
import CxxHeaders.Runs

open Outcome

structure Uint128 where
  upper : BitVec 64
  lower : BitVec 64
  deriving DecidableEq, Repr

namespace Uint128

/-- `static_cast<std::uint64_t>` of a truth value. -/
def flag (b : Bool) : BitVec 64 := if b then 1 else 0

/-- `uint128_t (T rhs)`. -/
def ofLower (rhs : BitVec 64) : Uint128 := ⟨0, rhs⟩

/-- `operator !`. -/
def isZero (x : Uint128) : Bool := x.upper ||| x.lower == 0

def not (x : Uint128) : Uint128 := ⟨~~~x.upper, ~~~x.lower⟩

/-! ## Bitwise operations -/

def and (x y : Uint128) : Uint128 := ⟨x.upper &&& y.upper, x.lower &&& y.lower⟩

def xor (x y : Uint128) : Uint128 := ⟨x.upper ^^^ y.upper, x.lower ^^^ y.lower⟩

def or (x y : Uint128) : Uint128 := ⟨x.upper ||| y.upper, x.lower ||| y.lower⟩

def shiftLeft (x : Uint128) (shift : Nat) : Outcome Uint128 :=
  if shift = 0 then return x
  else do
    asserting (shift < 128)
    if shift < 64 then return ⟨x.upper <<< shift ||| x.lower >>> (64 - shift), x.lower <<< shift⟩
    else return ⟨x.lower <<< (shift - 64), 0⟩

def shiftRight (x : Uint128) (shift : Nat) : Outcome Uint128 :=
  if shift = 0 then return x
  else do
    asserting (shift < 128)
    if shift < 64 then return ⟨x.upper >>> shift, x.lower >>> shift ||| x.upper <<< (64 - shift)⟩
    else return ⟨0, x.upper >>> (shift - 64)⟩

/-! ## Arithmetic operations -/

def neg (x : Uint128) : Uint128 := ⟨-x.upper - flag (x.lower > 0), -x.lower⟩

def add (x y : Uint128) : Uint128 :=
  let upper := x.upper + y.upper
  let lower := x.lower + y.lower
  let overflow := flag (lower < x.lower)
  ⟨upper + overflow, lower⟩

def sub (x y : Uint128) : Uint128 :=
  let upper := x.upper - y.upper
  let lower := x.lower - y.lower
  let overflow := flag (lower > x.lower)
  ⟨upper - overflow, lower⟩

def MASK : BitVec 64 := 0xffffffff

/-- `xs[i]`: four blocks of 32 bits, the highest first. -/
def block (x : Uint128) : Fin 4 → BitVec 64
  | 0 => x.upper >>> 32
  | 1 => x.upper &&& MASK
  | 2 => x.lower >>> 32
  | 3 => x.lower &&& MASK

/-- What is added to `vals[i]`, one after another: the lower or the higher half
of the products `xs[j] * ys[k]`. -/
def summands (x y : Uint128) : Fin 4 → List (BitVec 64)
  | 0 => [x.block 3 * y.block 3 &&& MASK]
  | 1 => [x.block 2 * y.block 3 &&& MASK, (x.block 3 * y.block 3) >>> 32, x.block 3 * y.block 2 &&& MASK]
  | 2 => [x.block 1 * y.block 3 &&& MASK, (x.block 2 * y.block 3) >>> 32, x.block 2 * y.block 2 &&& MASK,
      (x.block 3 * y.block 2) >>> 32, x.block 3 * y.block 1 &&& MASK]
  | 3 => [x.block 0 * y.block 3 &&& MASK, (x.block 1 * y.block 3) >>> 32, x.block 1 * y.block 2 &&& MASK,
      (x.block 2 * y.block 2) >>> 32, x.block 2 * y.block 1 &&& MASK, (x.block 3 * y.block 1) >>> 32,
      x.block 3 * y.block 0 &&& MASK]

def vals (x y : Uint128) (i : Fin 4) : BitVec 64 := (summands x y i).foldl (· + ·) 0

def mul (x y : Uint128) : Uint128 :=
  let vals := vals x y
  (((ofLower (vals 0)).add ⟨vals 1 >>> 32, vals 1 <<< 32⟩).add ⟨vals 2, 0⟩).add ⟨vals 3 <<< 32, 0⟩

/-- `operator ++` and `operator --` return it before and after the change; this
is after. -/
def increment (x : Uint128) : Uint128 := x.add (ofLower 1)

def decrement (x : Uint128) : Uint128 := x.sub (ofLower 1)

/-! ## Comparison operations -/

def eq (x y : Uint128) : Bool := x.upper == y.upper && x.lower == y.lower

def lt (x y : Uint128) : Bool := x.upper < y.upper || (x.upper == y.upper && x.lower < y.lower)

def ne (x y : Uint128) : Bool := !x.eq y
def gt (x y : Uint128) : Bool := y.lt x
def le (x y : Uint128) : Bool := !x.gt y
def ge (x y : Uint128) : Bool := !x.lt y

/-! ## Division -/

def divisionByZero : String := "Division by zero"

structure Division where
  quotient : Uint128
  reminder : Uint128
  bit : Uint128

namespace Division

/-- One round of the loop. -/
def round (x y : Uint128) (s : Division) : Outcome Division := do
  let reminder ← s.reminder.shiftLeft 1
  let reminder := { reminder with lower := reminder.lower ||| flag (!(x.and s.bit).isZero) }
  let bit ← s.bit.shiftRight 1
  if reminder.ge y then return ⟨s.quotient.or s.bit, reminder.sub y, bit⟩
  else return ⟨s.quotient, reminder, bit⟩

/-- Before the first round. -/
def start : Division := ⟨ofLower 0, ofLower 0, ⟨1 <<< 63, 0⟩⟩

end Division

/-- There is one round for every bit. -/
def divMod (x y : Uint128) : Outcome (Except String (Uint128 × Uint128)) :=
  if y.eq (ofLower 0) then return .error divisionByZero
  else do
    let s ← whileLoop (fun s => s.bit.ne (ofLower 0)) (Division.round x y) 129 .start
    return .ok (s.quotient, s.reminder)

end Uint128
