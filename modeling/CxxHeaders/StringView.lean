/-
`StringView.h`: how a view of a string is searched and trimmed.

A view is the characters that it shows; where they are in memory is left out,
and it is a failure to look at anything else. A pointer, with the number of the
characters to look at, is the list of characters from there on, which may go on
behind them. `Traits::eq` is `==`. A `return` in a loop over an index ends the
loop with that index; no loop over a view makes as many rounds as `fuel`.
-/
import CxxHeaders.IndexLoops

open Outcome

/-- `std::size_t`. -/
abbrev SizeType := BitVec 64

structure BasicStringView (CharT : Type) where
  chars : List CharT
  length_lt : chars.length < 2 ^ 64

/-! ## Traits -/

namespace Traits

variable {CharT : Type} [BEq CharT]

/-- `Traits::find`: where the character is, if it is one of the first `count`. -/
def find (str : List CharT) (count : SizeType) (c : CharT) : Outcome (Option Nat) := do
  asserting (count.toNat ≤ str.length)
  return (str.take count.toNat).findIdx? (· == c)

/-- `Traits::compare(lhs, rhs, count) == 0`. -/
def same (lhs rhs : List CharT) (count : SizeType) : Outcome Bool := do
  asserting (count.toNat ≤ lhs.length ∧ count.toNat ≤ rhs.length)
  return (lhs.take count.toNat).isEqv (rhs.take count.toNat) (· == ·)

/-- `Traits::length`: the characters in front of the first NUL. -/
def length [Zero CharT] (str : List CharT) : Outcome SizeType :=
  match str.findIdx? (· == 0) with
  | some n => return BitVec.ofNat 64 n
  | none => .failed

end Traits

namespace BasicStringView

variable {CharT : Type} (v : BasicStringView CharT)

def npos : SizeType := -1

def size : SizeType := BitVec.ofNat 64 v.chars.length

def fuel : Nat := v.chars.length + 2

/-- `m_start[i]`. -/
def get (i : SizeType) : Outcome CharT :=
  match v.chars[i.toNat]? with
  | some c => return c
  | none => .failed

/-- `m_start + i`, to be looked at as far as the view goes. -/
def start (i : SizeType) : List CharT := v.chars.drop i.toNat

/-- `BasicStringView()`. -/
def empty : BasicStringView CharT := ⟨[], Nat.two_pow_pos 64⟩

/-- `BasicStringView(m_start + i, size)`. -/
def part (i size : SizeType) : Outcome (BasicStringView CharT) := do
  asserting (i.toNat + size.toNat ≤ v.chars.length)
  return ⟨(v.chars.drop i.toNat).take size.toNat, by
    rw [List.length_take]
    exact Nat.lt_of_le_of_lt (Nat.min_le_left ..) size.isLt⟩

/-! ## Loops -/

/-- `!`. -/
def negated (test : SizeType → Outcome Bool) (i : SizeType) : Outcome Bool := do return !(← test i)

/-- `for (; pos < m_size; ++pos)`. -/
def forward (test : SizeType → Outcome Bool) (pos : SizeType) : Outcome SizeType := do
  return (← IndexLoop.below test v.size v.fuel pos).getD npos

/-- `std::min`. -/
def stdMin (a b : SizeType) : SizeType := if b < a then b else a

/-- `if (auto s = m_size) for (auto i = std::min(s - 1u, pos) + 1u; i--;)`. -/
def backward (test : SizeType → Outcome Bool) (pos : SizeType) : Outcome SizeType :=
  let s := v.size
  if s ≠ 0 then do return (← IndexLoop.under test v.fuel (stdMin (s - 1) pos + 1)).getD npos
  else return npos

/-! ## Tests of a character of the view -/

variable [BEq CharT]

/-- `Traits::eq(m_start[i], c)`. -/
def eq (c : CharT) (i : SizeType) : Outcome Bool := do return (← v.get i) == c

/-- `Traits::find(str, count, m_start[i])` is not null. -/
def isIn (str : List CharT) (count : SizeType) (i : SizeType) : Outcome Bool := do
  return (← Traits.find str count (← v.get i)).isSome

/-! ## `find` and `rfind` -/

def findChar (c : CharT) (pos : SizeType) : Outcome SizeType :=
  if pos < v.size then do
    match ← Traits.find (v.start pos) (v.size - pos) c with
    | some p => return pos + BitVec.ofNat 64 p
    | none => return npos
  else return npos

def find (str : List CharT) (pos count : SizeType) : Outcome SizeType :=
  if count ≤ 0 then return if pos ≤ v.size then pos else npos
  else if count ≤ v.size then do
    let found ← IndexLoop.through (fun pos => Traits.same (v.start pos) str count) (v.size - count) v.fuel pos
    return found.getD npos
  else return npos

def findView (x : BasicStringView CharT) (pos : SizeType) : Outcome SizeType := v.find x.chars pos x.size

def findCStr [Zero CharT] (str : List CharT) (pos : SizeType) : Outcome SizeType := do
  v.find str pos (← Traits.length str)

def rfindChar (c : CharT) (pos : SizeType) : Outcome SizeType := v.backward (v.eq c) pos

def rfind (str : List CharT) (pos count : SizeType) : Outcome SizeType :=
  if count ≤ v.size then do
    let maxFirstPos := v.size - count
    let pos := if maxFirstPos < pos then maxFirstPos else pos
    let found ← IndexLoop.downTo (fun pos => Traits.same (v.start pos) str count) v.fuel pos
    return found.getD npos
  else return npos

def rfindView (x : BasicStringView CharT) (pos : SizeType) : Outcome SizeType := v.rfind x.chars pos x.size

def rfindCStr [Zero CharT] (str : List CharT) (pos : SizeType) : Outcome SizeType := do
  v.rfind str pos (← Traits.length str)

/-! What `pos` is where it is not given. -/

/-- Of every `find`. -/
def findPos : SizeType := 0

/-- Of `rfind(CharT)`. -/
def rfindCharPos : SizeType := npos

/-- Of `rfind(BasicStringView)` and `rfind(CharT const *)`. -/
def rfindPos : SizeType := 0

/-! ## The other searches -/

def findFirstOfChar (c : CharT) (pos : SizeType) : Outcome SizeType := v.findChar c pos

def findFirstOf (str : List CharT) (pos count : SizeType) : Outcome SizeType :=
  v.forward (v.isIn str count) pos

def findFirstNotOfChar (c : CharT) (pos : SizeType) : Outcome SizeType :=
  v.forward (negated (v.eq c)) pos

def findFirstNotOf (str : List CharT) (pos count : SizeType) : Outcome SizeType :=
  v.forward (negated (v.isIn str count)) pos

def findLastOfChar (c : CharT) (pos : SizeType) : Outcome SizeType := v.rfindChar c pos

def findLastOf (str : List CharT) (pos count : SizeType) : Outcome SizeType :=
  v.backward (v.isIn str count) pos

def findLastNotOfChar (c : CharT) (pos : SizeType) : Outcome SizeType :=
  v.backward (negated (v.eq c)) pos

def findLastNotOf (str : List CharT) (pos count : SizeType) : Outcome SizeType :=
  v.backward (negated (v.isIn str count)) pos

/-! ## Trimming -/

/-- `leftTrimmed`, up to the characters that pass the test. -/
def leftTrimmedTo (test : SizeType → Outcome Bool) : Outcome (BasicStringView CharT) := do
  match ← IndexLoop.below test v.size v.fuel 0 with
  | some i => v.part i (v.size - i)
  | none => return empty

def rightTrimmedTo (test : SizeType → Outcome Bool) : Outcome (BasicStringView CharT) := do
  match ← IndexLoop.under test v.fuel v.size with
  | some i => v.part 0 (i + 1)
  | none => return empty

/-- The inner loop begins at the last character. -/
def trimmedTo (test : SizeType → Outcome Bool) : Outcome (BasicStringView CharT) := do
  match ← IndexLoop.below test v.size v.fuel 0 with
  | some i =>
    let i2 ← IndexLoop.endless test v.fuel (v.size - 1)
    v.part i (i2 + 1 - i)
  | none => return empty

def leftTrimmedChar (c : CharT) : Outcome (BasicStringView CharT) := v.leftTrimmedTo (negated (v.eq c))

def leftTrimmed (cs : List CharT) (count : SizeType) : Outcome (BasicStringView CharT) :=
  v.leftTrimmedTo (negated (v.isIn cs count))

def rightTrimmedChar (c : CharT) : Outcome (BasicStringView CharT) := v.rightTrimmedTo (negated (v.eq c))

def rightTrimmed (cs : List CharT) (count : SizeType) : Outcome (BasicStringView CharT) :=
  v.rightTrimmedTo (negated (v.isIn cs count))

def trimmedChar (c : CharT) : Outcome (BasicStringView CharT) := v.trimmedTo (negated (v.eq c))

def trimmed (cs : List CharT) (count : SizeType) : Outcome (BasicStringView CharT) :=
  v.trimmedTo (negated (v.isIn cs count))

/-! Of the characters of a view, and of a C string. -/

def leftTrimmedView (cs : BasicStringView CharT) : Outcome (BasicStringView CharT) :=
  v.leftTrimmed cs.chars cs.size

def leftTrimmedCStr [Zero CharT] (cs : List CharT) : Outcome (BasicStringView CharT) := do
  v.leftTrimmed cs (← Traits.length cs)

def rightTrimmedView (cs : BasicStringView CharT) : Outcome (BasicStringView CharT) :=
  v.rightTrimmed cs.chars cs.size

def rightTrimmedCStr [Zero CharT] (cs : List CharT) : Outcome (BasicStringView CharT) := do
  v.rightTrimmed cs (← Traits.length cs)

def trimmedView (cs : BasicStringView CharT) : Outcome (BasicStringView CharT) :=
  v.trimmed cs.chars cs.size

def trimmedCStr [Zero CharT] (cs : List CharT) : Outcome (BasicStringView CharT) := do
  v.trimmed cs (← Traits.length cs)

end BasicStringView
