/-
`StringHasher.h`: the hash of a string, and when two strings are the same key,
for the different things that can be used as a string.

A C string is the memory at a pointer, as far as its first NUL, and so is an
array of `char const`; an array of `char` is a range with a NUL at its end. A
range that is not random access, or whose end is a sentinel, is walked. The
function that mixes a character into a hash, `boost::hash_combine`, is a
parameter; `boost::hash_range` mixes in one character after another.
-/
import CxxHeaders.UnorderedMap

open UnorderedMap

namespace StringHasher

/-- The characters in front of the NUL. -/
structure CString where
  chars : List UInt8
  not_mem : 0 ∉ chars

/-- What is at the pointer. -/
def CString.memory (s : CString) : List UInt8 := s.chars ++ [0]

/-- What `StringHasher` takes for a string. -/
inductive Str where
  | string (v : List UInt8)
  | cString (v : CString)
  /-- A bounded random access range. -/
  | bounded (v : List UInt8)
  /-- Any other input range. -/
  | walked (v : List UInt8)

/-- `std::string::c_str`. -/
def cStr (v : List UInt8) : List UInt8 := v ++ [0]

/-! ## Keys -/

/-- `strcmp` finds no difference. -/
def strcmp : List UInt8 → List UInt8 → Bool
  | a :: as, b :: bs => if a ≠ b then false else if a = 0 then true else strcmp as bs
  | _, _ => false

/-- `std::equal`, of as many elements as the first range has. -/
def equal : List UInt8 → List UInt8 → Bool
  | [], _ => true
  | b :: bs, a :: as => if b = a then equal bs as else false
  | _ :: _, [] => false

/-- The loop over a range that is walked. -/
def walk : List UInt8 → List UInt8 → Bool
  | [], b => b.isEmpty
  | _ :: _, [] => false
  | a :: as, b :: bs => if a ≠ b then false else walk as bs

/-- `transparent_key_equal`, of a `std::string` and a string. -/
def stringEqual (a : List UInt8) : Str → Bool
  | .string b => a = b
  | .cString b => strcmp (cStr a) b.memory
  | .bounded b => if a.length ≠ b.length then false else equal b a
  | .walked b => walk a b

/-- `transparent_key_equal`, if there is one for the two. -/
def keyEqual : Str → Str → Option Bool
  | .string a, b => some (stringEqual a b)
  | .cString a, .string b => some (strcmp a.memory (cStr b))
  | a, .string b => some (stringEqual b a)
  | _, _ => none

/-! ## Hashes -/

variable (combine : UInt64 → UInt8 → UInt64)

/-- The loop of `operator ()`, and `boost::hash_range`. -/
def hashRange (v : List UInt8) : UInt64 := v.foldl combine 0

/-- The same loop, up to a NUL. -/
def hashToNul (seed : UInt64) : List UInt8 → UInt64
  | [] => seed
  | c :: cs => if c = 0 then seed else hashToNul (combine seed c) cs

def hash : Str → UInt64
  | .string v => hashRange combine v
  | .cString v => hashToNul combine 0 v.memory
  | .bounded v => hashRange combine v
  | .walked v => hashRange combine v

/-- `TransparentFind`, in a map whose keys are `std::string`s. -/
def find {υ : Type} (s : Elements (List UInt8) υ) (container : List (UInt64 × Nat)) (key : Str) :
    Option Nat :=
  findIn s container (hash combine key) fun stored => stringEqual stored key

end StringHasher
