/-
`Datum.h`: `loadFileToContainer`.

What the system calls return is given (`System`): `open`, `fstat`, and the calls
of `read` one after another. A call of `read` writes no more than was asked for,
and a write past the end of the container fails.
-/
import CxxHeaders.SystemRead
import CxxHeaders.Throwing

open Outcome Throwing

namespace Datum

abbrev value_type := BitVec 8

/-! ### `<sys/stat.h>` -/

def S_IFMT : BitVec 32 := 0o170000
def S_IFREG : BitVec 32 := 0o100000

/-- `struct stat`. -/
structure Stat where
  st_mode : BitVec 32
  st_size : Int
  nonneg : 0 ≤ st_size
  lt : st_size < 2 ^ 63

def Stat.Regular (statBuf : Stat) : Prop := statBuf.st_mode &&& S_IFMT = S_IFREG

instance (statBuf : Stat) : Decidable statBuf.Regular := inferInstanceAs (Decidable (_ = _))

/-- What `read` returns, the bytes it could write, and `errno`. -/
inductive Read where
  | bytes (data : List value_type)
  | error (errno : Errno)
  deriving DecidableEq, Repr

namespace Read

/-- The end of the file. -/
def eof : Read := .bytes []

/-- What a call writes that asked for `count` bytes. -/
def written (count : Nat) : Read → List value_type
  | .bytes data => data.take count
  | .error _ => []

def result (count : Nat) : Read → Int
  | .bytes data => (data.take count).length
  | .error _ => -1

def errno : Read → Errno
  | .bytes _ => .other 0
  | .error e => e

end Read

/-- The system calls, and for how many bytes there is memory. -/
structure System where
  openFile : Except Errno Nat
  fstat : Except Errno Stat
  memory : Nat
  reads : Nat → Read

/-! ### The exceptions -/

inductive Thrown where
  | errnoException (errno : Errno)
  | fileTypeNotSupportedException
  | fileSizeChangedException
  | badAlloc
  | loadException (message : String) (nested : Thrown)

/-- `what()`, where `Datum.h` defines it. -/
def Thrown.what : Thrown → Option String
  | .fileTypeNotSupportedException => some "File type not supported!"
  | .fileSizeChangedException => some "File size changed!"
  | .loadException message _ => some message
  | .errnoException _ | .badAlloc => none

/-- The container, and the descriptors that were closed. -/
structure State where
  contents : List value_type
  closed : List Int

/-- Nothing was loaded. -/
def State.init : State := ⟨[], []⟩

/-- `data` in the container from `buf` on. -/
def State.write (s : State) (buf : Nat) (data : List value_type) : State :=
  { s with contents := s.contents.take buf ++ data ++ s.contents.drop (buf + data.length) }

abbrev Loading := Throwing Thrown State

/-! ### The calls -/

/-- The descriptor, or -1. -/
def System.inFd (sys : System) : Int :=
  match sys.openFile with
  | .ok fd => fd
  | .error _ => -1

def System.openErrno (sys : System) : Errno :=
  match sys.openFile with
  | .ok _ => .other 0
  | .error e => e

/-- `::close`. -/
def close (fd : Int) : Loading Unit := modify fun s => { s with closed := s.closed ++ [fd] }

/-- `::read`. -/
def readTo (call : Read) (buf count : Nat) : Loading Int := do
  let s ← get
  let data := call.written count
  -- within the container
  liftM (requiring (buf + data.length ≤ s.contents.length))
  set (s.write buf data)
  return call.result count

def umax : Nat := 2 ^ 63 - 1

/-- The size that is reported, of a regular file. -/
def fileSize (sys : System) : Loading Nat := do
  match sys.fstat with
  | .error e => throw (.errnoException e) -- the result is -1
  | .ok statBuf =>
    if ¬statBuf.Regular then throw .fileTypeNotSupportedException
    liftM (asserting (0 ≤ statBuf.st_size))
    return toSize statBuf.st_size

/-- `contents.resize`. -/
def resize (memory size : Nat) : Loading Unit := do
  if memory < size then throw .badAlloc
  modify fun s => { s with contents := s.contents.take size ++ List.replicate (size - s.contents.length) 0 }

/-- The loop that reads. -/
def readLoop : Nat → (Nat → Read) → Nat → Nat → Loading Unit
  | 0, _, _, _ => liftM (Outcome.blocked : Outcome Unit)
  | fuel + 1, reads, leftToRead, buf => do
    let toReadAtOnce := min umax leftToRead
    let read ← readTo (reads 0) buf toReadAtOnce
    liftM (asserting (toSize read ≤ toReadAtOnce))
    if read = 0 then throw .fileSizeChangedException
    else if read < 0 then
      liftM (asserting (read = -1))
      if (reads 0).errno ≠ .eintr then throw (.errnoException (reads 0).errno)
      readLoop fuel (laterCalls reads) leftToRead buf
    else
      let leftToRead := leftToRead - toSize read
      if leftToRead = 0 then return
      readLoop fuel (laterCalls reads) leftToRead (buf + toSize read)

def loadMessage (filename : String) : String := "Failed to load file \"" ++ filename ++ "\"!"

/-- What is tried; the descriptor is closed where it ends. -/
def loadFile (sys : System) (fuel : Nat) : Loading Unit := do
  if sys.inFd < 0 then
    liftM (asserting (sys.inFd = -1))
    throw (.errnoException sys.openErrno)
  let leftToRead ← fileSize sys
  if 0 < leftToRead then
    resize sys.memory leftToRead
    readLoop fuel sys.reads leftToRead 0
  close sys.inFd

def loadFileToContainer (sys : System) (fuel : Nat) (filename : String) : Loading (List value_type) := do
  tryCatch (loadFile sys fuel) fun cause => do
    if 0 ≤ sys.inFd then close sys.inFd
    throw (.loadException (loadMessage filename) cause)
  return (← get).contents

/-! ## What the calls deliver -/

def Read.data : Read → List value_type
  | .bytes data => data
  | .error _ => []

/-- The bytes of the first calls, in order. -/
def delivered (reads : Nat → Read) : Nat → List value_type
  | 0 => []
  | k + 1 => (reads 0).data ++ delivered (laterCalls reads) k

/-- The reading goes on after such a call: it delivered something, or was
interrupted. -/
def Read.GoesOn : Read → Prop
  | .bytes data => data ≠ []
  | .error e => e = .eintr

/-- The first `k` calls do not end the reading of `size` bytes. -/
def Needed (size : Nat) (reads : Nat → Read) (k : Nat) : Prop :=
  (delivered reads k).length < size ∧ ∀ j < k, (reads j).GoesOn

namespace System

/-- The file is opened, and is as in `statBuf`. -/
def Stats (sys : System) (statBuf : Stat) : Prop :=
  (∃ fd, sys.openFile = .ok fd) ∧ sys.fstat = .ok statBuf

/-- The file is read, for `size` bytes. -/
def Reads (sys : System) (size : Nat) : Prop :=
  ∃ statBuf, sys.Stats statBuf ∧ statBuf.Regular ∧ size ≤ sys.memory ∧ statBuf.st_size = size

/-- The first `size` bytes that the calls deliver. -/
def Loaded (sys : System) (contents : List value_type) : Prop :=
  ∃ size k, sys.Reads size ∧ (∀ j < k, (sys.reads j).GoesOn) ∧ size ≤ (delivered sys.reads k).length ∧
    contents = (delivered sys.reads k).take size

/-- Why the file cannot be loaded. -/
inductive Cause (sys : System) : Thrown → Prop
  | openFile {e : Errno} (h : sys.openFile = .error e) : Cause sys (.errnoException e)
  | fstat {fd : Nat} {e : Errno} (ho : sys.openFile = .ok fd) (h : sys.fstat = .error e) :
      Cause sys (.errnoException e)
  | fileType {statBuf : Stat} (h : sys.Stats statBuf) (hne : ¬statBuf.Regular) :
      Cause sys .fileTypeNotSupportedException
  | memory {statBuf : Stat} (h : sys.Stats statBuf) (hr : statBuf.Regular)
      (hlt : sys.memory < statBuf.st_size.toNat) : Cause sys .badAlloc
  | read {size k : Nat} {e : Errno} (hs : sys.Reads size) (hk : Needed size sys.reads k)
      (h : sys.reads k = .error e) (hne : e ≠ .eintr) : Cause sys (.errnoException e)
  | fileSize {size k : Nat} (hs : sys.Reads size) (hk : Needed size sys.reads k)
      (h : sys.reads k = .eof) : Cause sys .fileSizeChangedException

/-- The descriptors to be closed. -/
def opened (sys : System) : List Int :=
  match sys.openFile with
  | .ok fd => [(fd : Int)]
  | .error _ => []

end System

end Datum
