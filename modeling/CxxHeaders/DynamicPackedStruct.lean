/-
`DynamicPackedStruct.h`, and from `DynamicPackingInfo.h` the bounds of the
sizes of dynamic fields.

A block from `operator new` is the list of its bytes, and what is behind its
end is not there to be read. The sizes an object was constructed with are not
among its members, so that its fields are read with the sizes at hand.
-/
import CxxHeaders.DynamicPackingLayout
import CxxHeaders.Runs

open Outcome

namespace DynamicPackingInfo

/-- A type in the list of fields, with the bounds of its size. -/
inductive BoundedField where
  | static (sizeof : UInt64)
  /-- `DynamicFieldPlaceholder<min_, max_>` -/
  | dynamic (min max : UInt64)
  /-- `DynamicVectorFieldPlaceholder<T, min_, max_>`, with `sizeof(T)`. -/
  | vector (sizeof min max : UInt64)
  deriving DecidableEq, Repr

namespace BoundedField

def field : BoundedField → Field
  | .static sizeof => .static sizeof
  | .dynamic _ _ => .dynamic
  | .vector sizeof _ _ => .vector sizeof

def isStatic (t : BoundedField) : Bool := t.field.isStatic

def min : BoundedField → UInt64
  | .static _ => 1
  | .dynamic min _ => min
  | .vector _ min _ => min

def max : BoundedField → UInt64
  | .static _ => 1
  | .dynamic _ max => max
  | .vector _ _ max => max

def minBytes : BoundedField → UInt64
  | .static sizeof => sizeof
  | .dynamic min _ => min
  | .vector sizeof min _ => min * sizeof

def maxBytes : BoundedField → UInt64
  | .static sizeof => sizeof
  | .dynamic _ max => max
  | .vector sizeof _ max => max * sizeof

end BoundedField

def fields (ts : List BoundedField) : List Field := ts.map BoundedField.field

def minSizeInBytes : List BoundedField → UInt64
  | [] => 0
  | t :: ts => t.minBytes + minSizeInBytes ts

def maxSizeInBytes : List BoundedField → UInt64
  | [] => 0
  | t :: ts => t.maxBytes + maxSizeInBytes ts

/-- The arguments as they are passed on. -/
def Args.sizes : (ts : List Field) → Args ts → List UInt64
  | [], _ => []
  | .static _ :: ts, args => Args.sizes ts args
  | .dynamic :: ts, (size, args) => size :: Args.sizes ts args
  | .vector _ :: ts, (size, args) => size :: Args.sizes ts args

/-- `ValidSizes<Ts...>::isValid`; another number of arguments does not compile. -/
def isValid : List BoundedField → List UInt64 → Bool
  | [], [] => true
  | t :: ts, size :: args => size ≥ t.min && size ≤ t.max && isValid ts args
  | _, _ => false

def validSizes (ts : List BoundedField) (args : Args (fields ts)) : Bool :=
  isValid (ts.filter fun t => !t.isStatic) (args.sizes (fields ts))

end DynamicPackingInfo

open DynamicPackingInfo

/-- What `m_data` points to, if it is not null, and `m_sizes`. -/
structure DynamicPackedStruct (ts : List Field) where
  data : Option (List UInt8)
  sizes : AccumArrayType ts

namespace DynamicPackedStruct

/-- `block` is what `operator new` returns, uninitialised as it is. -/
def new (ts : List BoundedField) (args : Args (fields ts)) (block : List UInt8) :
    Outcome (DynamicPackedStruct (fields ts)) := do
  asserting (validSizes ts args)
  requiring (block.length = (sizeInBytes (fields ts) args).toNat)
  return ⟨some block, .new args⟩

variable {ts : List Field}

def size (s : DynamicPackedStruct ts) : UInt64 := s.sizes.structSizeInBytes

/-- The bytes of field `i`, if they are all inside of the block. -/
def field (s : DynamicPackedStruct ts) (args : Args ts) (i : Nat) : Option (List UInt8) :=
  s.data.bind fun block =>
    if (s.sizes.elemOffset i).toNat + fieldBytes args i ≤ block.length then
      some ((block.drop (s.sizes.elemOffset i).toNat).take (fieldBytes args i))
    else none

/-- `std::memcmp`, which must not read behind the end of a block. -/
def memcmp : List UInt8 → List UInt8 → Nat → Outcome Int
  | _, _, 0 => .next 0
  | x :: xs, y :: ys, n + 1 => if x < y then .next (-1) else if y < x then .next 1 else memcmp xs ys n
  | _, _, _ + 1 => .failed

/-- The same for two pointers, of which none must be null. -/
def memcmpPtr : Option (List UInt8) → Option (List UInt8) → Nat → Outcome Int
  | some x, some y, n => memcmp x y n
  | _, _, _ => .failed

/-- `operator==` -/
def eq (s rhs : DynamicPackedStruct ts) : Outcome Bool := do
  if s.size ≠ rhs.size then return false
  return (← memcmpPtr s.data rhs.data s.size.toNat) = 0

/-- `operator!=` -/
def ne (s rhs : DynamicPackedStruct ts) : Outcome Bool := do
  if s.size ≠ rhs.size then return true
  return (← memcmpPtr s.data rhs.data s.size.toNat) ≠ 0

end DynamicPackedStruct
