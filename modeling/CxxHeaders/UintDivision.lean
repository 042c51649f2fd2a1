/-
`uint_t.h`: the division of `uint_t`s, and their output.

Output is what is given to the stream to write, whose own part is left out: of
it there are the flags that are asked for. The buffer is the characters that
are in it already, the ones from the index on.
-/
import CxxHeaders.Uint

open Outcome

namespace Uint

variable {N : Nat} {B : UnsignedType}

/-- `operator !`. -/
def isZero (x : Uint N B) : Bool :=
  (List.range (numOfBlocks N B)).foldl (fun acc i => acc ||| x.block i) 0 == 0

def ne (x y : Uint N B) : Bool := !x.eq y
def gt (x y : Uint N B) : Bool := y.lt x
def le (x y : Uint N B) : Bool := !x.gt y
def ge (x y : Uint N B) : Bool := !x.lt y

/-- `x[i] |= b`, through a `bit_reference`. -/
def orBit (x : Uint N B) (i : Nat) (b : Bool) : Outcome (Uint N B) := do
  asserting (i < N)
  let bitMask := (1 : BitVec B.bits) <<< (i % B.bits)
  return if b then x.setBlock (i / B.bits) (x.block (i / B.bits) ||| bitMask) else x

/-! ## Division -/

/-- What `division_by_zero_error` says. -/
def divisionByZero : String := "Division by zero"

/-- `div_t`. -/
structure Quotient (N : Nat) (B : UnsignedType) where
  quot : Uint N B
  rem : Uint N B

structure Division (N : Nat) (B : UnsignedType) where
  quot : Uint N B
  rem : Uint N B
  bit : Uint N B

namespace Division

/-- Before the first round. -/
def start : Outcome (Division N B) := do
  let bit ← (ofInt 1).shiftLeft (N - 1)
  return ⟨ofInt 0, ofInt 0, bit⟩

/-- One round of the loop. -/
def round (x y : Uint N B) (s : Division N B) : Outcome (Division N B) := do
  let rem ← s.rem.shiftLeft 1
  let rem ← rem.orBit 0 (!(x.and s.bit).isZero)
  let (rem, quot) := if rem.ge y then (rem.sub y, s.quot.or s.bit) else (rem, s.quot)
  let bit ← s.bit.shiftRight 1
  return ⟨quot, rem, bit⟩

end Division

/-- There is one round for every bit. -/
def divMod (x y : Uint N B) : Outcome (Except String (Quotient N B)) :=
  if y.eq (ofInt 0) then return .error divisionByZero
  else do
    let s ← Division.start
    let s ← whileLoop (fun s => s.bit.ne (ofInt 0)) (Division.round x y) (N + 1) s
    return .ok ⟨s.quot, s.rem⟩

/-! ## Output -/

/-- The flags of a stream, `std::ios::hex` and so on. -/
structure Flags where
  hex : Bool
  oct : Bool
  uppercase : Bool
  showpos : Bool
  deriving DecidableEq

def lower : List Char := "0123456789abcdef".toList
def upper : List Char := "0123456789ABCDEF".toList

/-- Each octal digit stands for three bits, and there is room for the sign. -/
def buffSize (N : Nat) : Nat := 1 + (N + 2) / 3

/-- `buff[-- i] = table[k]` -/
def put (table : List Char) (k : Nat) (buff : Nat × List Char) : Outcome (Nat × List Char) :=
  match buff, table[k]? with
  | (i + 1, cs), some c => return (i, c :: cs)
  | _, _ => .failed

/-- The loop over the digits, the lowest first. -/
def digits (table : List Char) (base : Uint N B) :
    Nat → Uint N B → Nat × List Char → Outcome (Except String (Nat × List Char))
  | 0, _, _ => .blocked
  | fuel + 1, quot, buff =>
    if quot.gt (ofInt 0) then do
      asserting (buff.1 ≠ 0)
      match ← divMod quot base with
      | .error e => return .error e
      | .ok temp => digits table base fuel temp.quot (← put table temp.rem.leastSignificantBlock.toNat buff)
    else return .ok buff

/-- With few bits there is one digit, and no look at `base`, which may be cut
off. -/
def allDigits (table : List Char) (base x : Uint N B) : Outcome (Except String (Nat × List Char)) :=
  let buff := (buffSize N, [])
  if N < 4 + (if base.eq (ofInt 16) then 1 else 0) then do
    return .ok (← put table x.leastSignificantBlock.toNat buff)
  else digits table base (N + 1) x buff

/-- `operator << (std::ostream &, uint_t)`: what it writes. -/
def output (flags : Flags) (x : Uint N B) : Outcome (Except String (List Char)) :=
  if x.eq (ofInt 0) then return .ok ['0']
  else do
    let base : Uint N B := ofInt 10
    let base := if flags.hex then ofInt 16 else base
    let base := if flags.oct then ofInt 8 else base
    let table := if flags.uppercase then upper else lower
    match ← allDigits table base x with
    | .error e => return .error e
    | .ok (i, cs) =>
      if flags.showpos then do
        asserting (i ≠ 0)
        return .ok ('+' :: cs)
      else return .ok cs

end Uint
