/-
`DynamicPackingInfo.h`: structures of fields without gaps between them, the
sizes of some of which are known only at run time.

A list of types is the list of its `Field`s, and a list of arguments, of which
there is one for each dynamic field, is of a type of its own (`Args`). The
recursions over the types are the source's. Addresses are numbers, and an
object of a type is its `sizeof` bytes, which is what `UnalignedReference`
copies.
-/
import CxxHeaders.Layout

namespace DynamicPackingInfo

/-- A type in the list of fields; the bounds of the sizes are left out. -/
inductive Field where
  /-- Any type that is not one of these. -/
  | static (sizeof : UInt64)
  /-- `DynamicFieldPlaceholder` -/
  | dynamic
  /-- `DynamicVectorFieldPlaceholder<T>`, with `sizeof(T)`. -/
  | vector (sizeof : UInt64)
  deriving DecidableEq, Repr

namespace Field

def isStatic : Field → Bool
  | .static _ => true
  | _ => false

/-- Of an empty class it is 1. -/
def sizeof : Field → UInt64
  | .static n => n
  | _ => 1

end Field

/-- The sizes of the dynamic fields. -/
def Args : List Field → Type
  | [] => Unit
  | .static _ :: ts => Args ts
  | .dynamic :: ts => UInt64 × Args ts
  | .vector _ :: ts => UInt64 × Args ts

/-- `DynamicFieldFilter<Ts...>` -/
def dynamicFieldFilter (ts : List Field) : List Field := ts.filter fun t => !t.isStatic

def numDynamicFields (ts : List Field) : Nat := (dynamicFieldFilter ts).length

/-- `TemplatePrefixTypes<I, Ts...>` -/
def templatePrefixTypes (i : Nat) (ts : List Field) : List Field := ts.take i

def sizeOfTypes : List Field → UInt64
  | [] => 0
  | t :: ts => t.sizeof + sizeOfTypes ts

def accumSize : (ts : List Field) → Args ts → UInt64
  | [], _ => 0
  | .dynamic :: ts, (size, args) => size + accumSize ts args
  | .vector sizeof :: ts, (size, args) => sizeof * size + accumSize ts args
  | .static sizeof :: ts, args => sizeof + accumSize ts args

def staticTailSize : List Field → UInt64
  | [] => 0
  | _ :: ts => if numDynamicFields ts ≤ 0 then sizeOfTypes ts else staticTailSize ts

/-- What `AccumVecPopulator<Ts...>::populate` writes from `ptr` on. -/
def populate : (ts : List Field) → UInt64 → Args ts → List UInt64
  | [], _, _ => []
  | .dynamic :: ts, accum, (size, args) => (accum + size) :: populate ts (accum + size) args
  | .vector sizeof :: ts, accum, (size, args) =>
    (accum + sizeof * size) :: populate ts (accum + sizeof * size) args
  | .static sizeof :: ts, accum, args => populate ts (accum + sizeof) args

/-- As many numbers as there are dynamic fields. -/
structure AccumArrayType (ts : List Field) where
  data : List UInt64
  length : data.length = numDynamicFields ts

theorem length_populate : ∀ (ts : List Field) (accum : UInt64) (args : Args ts),
    (populate ts accum args).length = numDynamicFields ts
  | [], _, _ => rfl
  | .static sizeof :: ts, accum, args => length_populate ts (accum + sizeof) args
  | .dynamic :: ts, accum, (size, args) => congrArg (· + 1) (length_populate ts (accum + size) args)
  | .vector sizeof :: ts, accum, (size, args) =>
    congrArg (· + 1) (length_populate ts (accum + sizeof * size) args)

namespace AccumArrayType

variable {ts : List Field}

def new (args : Args ts) : AccumArrayType ts := ⟨populate ts 0 args, length_populate ts 0 args⟩

/-- `(*this)[i]` -/
def nth (accum : AccumArrayType ts) (i : Nat) : UInt64 := accum.data.getD i 0

def structSizeInBytes (accum : AccumArrayType ts) : UInt64 :=
  staticTailSize ts + accum.nth (numDynamicFields ts - 1)

def elemOffset (accum : AccumArrayType ts) (i : Nat) : UInt64 :=
  if 0 < numDynamicFields (templatePrefixTypes i ts) then
    accum.nth (numDynamicFields (templatePrefixTypes i ts) - 1) + staticTailSize (templatePrefixTypes i ts)
  else sizeOfTypes (templatePrefixTypes i ts)

def voidPtr (accum : AccumArrayType ts) (i data : Nat) : Nat := data + (accum.elemOffset i).toNat

/-- `get<I>(data)` of a static field. -/
def get (accum : AccumArrayType ts) (i : Fin ts.length) (mem : Nat → UInt8) (data : Nat) : List UInt8 :=
  Layout.load mem (accum.voidPtr i data) (ts.get i).sizeof.toNat

/-- `set<I>(data, v)` of a static field; what is in memory then. -/
def set (accum : AccumArrayType ts) (i : Fin ts.length) (mem : Nat → UInt8) (data : Nat) (v : List UInt8) :
    Nat → UInt8 :=
  Layout.store mem (accum.voidPtr i data) (v.take (ts.get i).sizeof.toNat)

end AccumArrayType

def sizeInBytes (ts : List Field) (args : Args ts) : UInt64 := accumSize ts args

def sizeFromAccum {ts : List Field} (accumSizes : AccumArrayType ts) : UInt64 :=
  staticTailSize ts + accumSizes.nth (numDynamicFields ts - 1)

end DynamicPackingInfo
