/-
`NetworkMessage.h`: messages that are written to, and read from, front to back.

A pointer is null or points to a list of bytes, which is what `realloc` and
`memcpy` see of the memory. `std::size_t` has 64 bits. An object of a type
`T` is its `sizeof(T)` bytes; an unsigned type that a size may have is its
greatest value, `std::numeric_limits::max()`.

What a write throws leaves the message as it is (`run_leaves`). The overloads
of `readSize` differ in the exception they throw.
-/
import CxxHeaders.EndianMacros
import CxxHeaders.Runs

open Outcome EndianMacros

/-- `std::numeric_limits<std::size_t>::max()`. -/
def sizeMax : Nat := 2 ^ 64 - 1

structure SeekableNetworkMessage where
  data : Option (List UInt8)
  offset : Nat

namespace SeekableNetworkMessage

/-- What `data` points to. -/
def bytes (m : SeekableNetworkMessage) : List UInt8 := m.data.getD []

def size (m : SeekableNetworkMessage) : Nat := m.bytes.length

/-- What `getPtr()` points to. -/
def rest (m : SeekableNetworkMessage) : List UInt8 := m.bytes.drop m.offset

def getRemainingSize (m : SeekableNetworkMessage) : Nat := m.size - m.offset

def seek (m : SeekableNetworkMessage) (pos : Nat) : SeekableNetworkMessage × Bool :=
  if m.size ≤ pos then (m, false) else ({ m with offset := pos }, true)

/-- `m_offset += n`. -/
def advance (m : SeekableNetworkMessage) (n : Nat) : SeekableNetworkMessage := { m with offset := m.offset + n }

@[simp] theorem advance_offset (m : SeekableNetworkMessage) (n : Nat) :
    (m.advance n).offset = m.offset + n := rfl
@[simp] theorem advance_bytes (m : SeekableNetworkMessage) (n : Nat) :
    (m.advance n).bytes = m.bytes := rfl
@[simp] theorem advance_size (m : SeekableNetworkMessage) (n : Nat) : (m.advance n).size = m.size := rfl
@[simp] theorem advance_zero (m : SeekableNetworkMessage) : m.advance 0 = m := rfl

@[simp] theorem advance_advance (m : SeekableNetworkMessage) (n k : Nat) :
    (m.advance n).advance k = m.advance (n + k) := by
  simp [advance, Nat.add_assoc]

end SeekableNetworkMessage

/-- The first `n` bytes of the destination are overwritten. -/
def memcpy (dest src : List UInt8) (n : Nat) : List UInt8 := src.take n ++ dest.drop n

/-! ## Reading -/

namespace IncomingNetworkMessage

inductive Exception where
  | overflow | badAlloc
  deriving DecidableEq, Repr

inductive Result where
  | returned (success : Bool)
  | threw (x : Exception)
  deriving DecidableEq, Repr

/-- The message, the caller's object and how the call ended. -/
structure Read (α : Type) where
  message : SeekableNetworkMessage
  val : α
  result : Result

open SeekableNetworkMessage

/-- Null has no bytes. -/
def new (data : Option (List UInt8)) : SeekableNetworkMessage := ⟨data, 0⟩

def readBytes (m : SeekableNetworkMessage) (buffer : List UInt8) (size : Nat) : Outcome (Read (List UInt8)) := do
  asserting m.data.isSome
  asserting (m.offset ≤ m.size)
  if m.size - m.offset < size then return ⟨m, buffer, .returned false⟩
  else return ⟨m.advance size, memcpy buffer m.rest size, .returned true⟩

/-- For a `T` that is neither `std::string` nor `bool`. -/
def read (m : SeekableNetworkMessage) (val : List UInt8) : Outcome (Read (List UInt8)) := do
  let sizeof := val.length
  asserting m.data.isSome
  asserting (m.offset ≤ m.size)
  if m.size - m.offset < sizeof then return ⟨m, val, .returned false⟩
  else if 0 < sizeof then return ⟨m.advance sizeof, memcpy val m.rest sizeof, .returned true⟩
  else return ⟨m, val, .returned true⟩

def readBool (m : SeekableNetworkMessage) (val : Bool) : Outcome (Read Bool) := do
  asserting m.data.isSome
  asserting (m.offset ≤ m.size)
  let rollbackOffset := m.offset
  let r ← read m [0]
  if r.result ≠ .returned true then return ⟨r.message, val, r.result⟩
  else if r.val = [0] then return ⟨r.message, false, .returned true⟩
  else if r.val = [1] then return ⟨r.message, true, .returned true⟩
  else return ⟨{ r.message with offset := rollbackOffset }, val, .returned false⟩

/-- `size` is of a type with values up to `max`. -/
def readSize (host : Endian) (type : UnsignedType) (max : Nat) (m : SeekableNetworkMessage) (size : Nat) :
    Outcome (Read Nat) := do
  let r ← read m (List.replicate type.sizeof 0)
  if r.result = .returned true then
    let rawSize := sharemindNetToHostOrder host type (Bytes.decode host r.val)
    if rawSize ≤ max then return ⟨r.message, rawSize % (max + 1), .returned true⟩
    else return ⟨r.message, size, .threw .overflow⟩
  else return ⟨r.message, size, r.result⟩

/-- `assigned` if there is the memory to assign to the string. -/
def readString (host : Endian) (assigned : Bool) (m : SeekableNetworkMessage) (val : List UInt8) :
    Outcome (Read (List UInt8)) := do
  asserting m.data.isSome
  asserting (m.offset ≤ m.size)
  let rollbackOffset := m.offset
  let ⟨m, length, result⟩ ← readSize host .uint64 sizeMax m 0
  if result ≠ .returned true then return ⟨m, val, result⟩
  else if length ≤ 0 then return ⟨m, [], .returned true⟩
  else if m.size - m.offset < length then return ⟨{ m with offset := rollbackOffset }, val, .returned false⟩
  else if assigned then return ⟨m.advance length, m.rest.take length, .returned true⟩
  else return ⟨{ m with offset := rollbackOffset }, val, .threw .badAlloc⟩

def readArray (m : SeekableNetworkMessage) (data : List UInt8) (sizeof size : Nat) :
    Outcome (Read (List UInt8)) := do
  asserting m.data.isSome
  asserting (m.offset ≤ m.size)
  if sizeMax / sizeof < size then return ⟨m, data, .returned false⟩
  else
    let sizeInBytes := sizeof * size % (sizeMax + 1)
    if m.getRemainingSize < sizeInBytes then return ⟨m, data, .returned false⟩
    else return ⟨m.advance sizeInBytes, memcpy data m.rest sizeInBytes, .returned true⟩

/-- The operations, with what they are given beside the object. -/
inductive ReadOp where
  | readBytes (size : Nat)
  | read
  | readBool
  | readString (assigned : Bool)
  | readSize (type : UnsignedType) (max : Nat)
  | readArray (sizeof size : Nat)

/-- The object. -/
def ReadOp.Val : ReadOp → Type
  | .readBool => Bool
  | .readSize _ _ => Nat
  | _ => List UInt8

def ReadOp.run (host : Endian) (m : SeekableNetworkMessage) : (op : ReadOp) → op.Val → Outcome (Read op.Val)
  | .readBytes size, val => IncomingNetworkMessage.readBytes m val size
  | .read, val => IncomingNetworkMessage.read m val
  | .readBool, val => IncomingNetworkMessage.readBool m val
  | .readString assigned, val => IncomingNetworkMessage.readString host assigned m val
  | .readSize type max, val => IncomingNetworkMessage.readSize host type max m val
  | .readArray sizeof size, val => IncomingNetworkMessage.readArray m val sizeof size

inductive Act where
  | seek (pos : Nat)
  | read (op : ReadOp) (val : op.Val)

/-- What an operation leaves of the message, however it ends. -/
def next (host : Endian) (m : SeekableNetworkMessage) : Act → Outcome SeekableNetworkMessage
  | .seek pos => return (m.seek pos).1
  | .read op val => do return (← op.run host m val).message

end IncomingNetworkMessage

/-! ## Writing -/

namespace OutgoingNetworkMessage

/-- Why a write does not return. -/
inductive Fault where
  | assertion | messageLengthError | badAlloc
  deriving DecidableEq, Repr

/-- What `realloc` can allocate, and what is in memory not written to yet. -/
structure Memory where
  realloc : Nat → Bool
  garbage : Nat → UInt8

open SeekableNetworkMessage

def new : SeekableNetworkMessage := ⟨none, 0⟩

def assert (p : Prop) [Decidable p] : Except Fault Unit := if p then .ok () else .error .assertion

def spaceLeft (m : SeekableNetworkMessage) : Nat := sizeMax - m.offset

def addBytes (memory : Memory) (m : SeekableNetworkMessage) (bytes : Nat) : Except Fault SeekableNetworkMessage := do
  assert (0 < bytes)
  assert (bytes ≤ sizeMax - m.offset)
  assert (m.size = m.offset)
  let newSize := (m.size + bytes) % (sizeMax + 1)
  if memory.realloc newSize then
    return { m with data := some ((List.range newSize).map fun i => m.bytes.getD i (memory.garbage i)) }
  else throw .badAlloc

def pokeBytes (m : SeekableNetworkMessage) (data : Option (List UInt8)) (bytes : Nat) :
    Except Fault SeekableNetworkMessage := do
  assert (data.isSome ∨ bytes = 0)
  assert (bytes ≤ m.size - m.offset)
  return SeekableNetworkMessage.advance
    { m with data := m.data.map fun b => b.take m.offset ++ memcpy (b.drop m.offset) (data.getD []) bytes } bytes

def writeBytes (memory : Memory) (m : SeekableNetworkMessage) (data : Option (List UInt8)) (bytes : Nat) :
    Except Fault SeekableNetworkMessage := do
  if bytes = 0 then return m
  else if spaceLeft m < bytes then throw .messageLengthError
  else
    let m ← addBytes memory m bytes
    pokeBytes m data bytes

/-- For a `T` that no other overload is for. -/
def write (memory : Memory) (m : SeekableNetworkMessage) (val : List UInt8) : Except Fault SeekableNetworkMessage :=
  writeBytes memory m (some val) val.length

def writeBool (memory : Memory) (m : SeekableNetworkMessage) (val : Bool) : Except Fault SeekableNetworkMessage :=
  writeBytes memory m (some [if val then 1 else 0]) 1

def writeSize (memory : Memory) (host : Endian) (type : UnsignedType) (m : SeekableNetworkMessage) (size : Nat) :
    Except Fault SeekableNetworkMessage :=
  let serializedSize := hostToSharemindNetOrder host type (size % 256 ^ type.sizeof)
  write memory m (Bytes.encode host type.sizeof serializedSize)

def writeArray (memory : Memory) (m : SeekableNetworkMessage) (data : Option (List UInt8)) (sizeof size : Nat) :
    Except Fault SeekableNetworkMessage := do
  if size ≤ 0 then return m
  else if spaceLeft m / sizeof < size then throw .messageLengthError
  else
    let arraySizeInBytes := size * sizeof % (sizeMax + 1)
    let m ← addBytes memory m arraySizeInBytes
    pokeBytes m data arraySizeInBytes

def writeSizeAndArray (memory : Memory) (host : Endian) (type : UnsignedType) (m : SeekableNetworkMessage)
    (data : Option (List UInt8)) (sizeof size : Nat) : Except Fault SeekableNetworkMessage := do
  if size ≤ 0 then writeSize memory host type m size
  else
    let bytesLeft := spaceLeft m
    if bytesLeft < type.sizeof then throw .messageLengthError
    else if (bytesLeft - type.sizeof) / sizeof < size then throw .messageLengthError
    else
      let arraySizeInBytes := size * sizeof % (sizeMax + 1)
      let m ← addBytes memory m ((type.sizeof + arraySizeInBytes) % (sizeMax + 1))
      let serializedSize := hostToSharemindNetOrder host type (size % 256 ^ type.sizeof)
      let m ← pokeBytes m (some (Bytes.encode host type.sizeof serializedSize)) type.sizeof
      pokeBytes m data arraySizeInBytes

/-- A pointer and the number of characters. -/
def writeChars (memory : Memory) (host : Endian) (m : SeekableNetworkMessage) (val : Option (List UInt8))
    (size : Nat) : Except Fault SeekableNetworkMessage :=
  writeSizeAndArray memory host .uint64 m val 1 size

def writeString (memory : Memory) (host : Endian) (m : SeekableNetworkMessage) (val : List UInt8) :
    Except Fault SeekableNetworkMessage :=
  writeSizeAndArray memory host .uint64 m (some val) 1 val.length

end OutgoingNetworkMessage
