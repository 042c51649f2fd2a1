/-
`IntegerLiterals.h`: the numbers that integer literals stand for, as constants
of class templates over their characters.

A class that is not defined is none. A constant that cannot be evaluated is a
failure, and then so is every constant in which it is named, since it has to be
a constant also where `||` passes it by. The operators of the literals are left
out.
-/
import CxxHeaders.Runs

open Outcome

namespace IntegerLiterals

/-- Which of `OctLiteral`, `DecLiteral` and `HexLiteral`. -/
inductive LiteralType where
  | oct
  | dec
  | hex
  deriving DecidableEq

structure Constants where
  base : UInt64
  overflow : Outcome Bool
  value : UInt64
  rank : UInt64
  digits : UInt64

namespace LiteralType

def base : LiteralType → UInt64
  | .oct => 8
  | .dec => 10
  | .hex => 16

def octLiterals : List (Char × UInt64) :=
  [('0', 0), ('1', 1), ('2', 2), ('3', 3), ('4', 4), ('5', 5), ('6', 6), ('7', 7)]

def decLiterals : List (Char × UInt64) :=
  [('0', 0), ('1', 1), ('2', 2), ('3', 3), ('4', 4), ('5', 5), ('6', 6), ('7', 7), ('8', 8), ('9', 9)]

def hexLiterals : List (Char × UInt64) :=
  [('0', 0), ('1', 1), ('2', 2), ('3', 3), ('4', 4), ('5', 5), ('6', 6), ('7', 7), ('8', 8), ('9', 9),
    ('a', 10), ('b', 11), ('c', 12), ('d', 13), ('e', 14), ('f', 15),
    ('A', 10), ('B', 11), ('C', 12), ('D', 13), ('E', 14), ('F', 15)]

/-- The characters that there is a specialization for. -/
def literals : LiteralType → List (Char × UInt64)
  | .oct => octLiterals
  | .dec => decLiterals
  | .hex => hexLiterals

/-- The value of a digit, or none where it is an `InvalidDigit`. -/
def digit (T : LiteralType) (c : Char) : Option UInt64 := T.literals.lookup c

/-- `LastDigit`. -/
def lastDigit (T : LiteralType) (max value : UInt64) : Constants :=
  ⟨T.base, .next (value > max), value, 1, 1⟩

end LiteralType

def divide (a b : UInt64) : Outcome UInt64 := if b = 0 then .failed else .next (a / b)

def literalStep (max : UInt64) (head tail : Constants) : Constants where
  base := head.base
  overflow := do
    let headOverflow ← head.overflow
    let tailOverflow ← tail.overflow
    if headOverflow || tailOverflow then return true
    if head.value = 0 then return false
    if tail.rank > (← divide max head.base) then return true
    if head.value > (← divide max (tail.rank * head.base)) then return true
    return tail.value > max - head.value * (tail.rank * head.base)
  rank := tail.rank * head.base
  value := head.value * (tail.rank * head.base) + tail.value
  digits := tail.digits + head.digits

/-- Without digits there is only an `OctLiteral`, which has no `rank`. -/
def LiteralType.literal (T : LiteralType) (max : UInt64) : List Char → Option Constants
  | [] => if T = .oct then some ⟨T.base, .next false, 0, 0, 0⟩ else none
  | [c] => (T.digit c).map (T.lastDigit max)
  | d :: c :: cs => do
    let head ← T.digit d
    let tail ← T.literal max (c :: cs)
    return literalStep max (T.lastDigit max head) tail

/-- `AreOctDigits`, `AreDecDigits` and `AreHexDigits`. -/
def LiteralType.areDigits (T : LiteralType) (cs : List Char) : Bool := cs.all fun c => (T.digit c).isSome

structure Literal extends Constants where
  valid : Bool
  chars : Nat

def invalidLiteral (chars : Nat) : Literal := ⟨⟨0, .next false, 0, 0, 0⟩, false, chars⟩

/-- A `ValidLiteral` of the digits, or an `InvalidLiteral`. -/
def ofDigits (T : LiteralType) (max : UInt64) (digits : List Char) (chars : Nat) : Option Literal :=
  if T.areDigits digits then (T.literal max digits).map (⟨·, true, chars⟩)
  else some (invalidLiteral chars)

/-- `Literal`. -/
def literal (max : UInt64) (cs : List Char) : Option Literal :=
  match cs with
  | '0' :: 'x' :: digits => ofDigits .hex max digits cs.length
  | '0' :: 'X' :: digits => ofDigits .hex max digits cs.length
  | '0' :: digits => ofDigits .oct max digits cs.length
  | digits => ofDigits .dec max digits cs.length

end IntegerLiterals
