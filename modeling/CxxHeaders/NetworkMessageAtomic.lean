/-
`NetworkMessage.h`: the writes as the members of a message that they are, each
of which changes the message as it goes. An exception leaves the message with
the changes made so far.

They do what `NetworkMessage.lean` says, and there are no such changes
(`run_leaves`): a write throws before it changes anything, or adds what it was
to add, in numbers that no `std::size_t` was too small for (`writes_atomic`).
-/
import CxxHeaders.NetworkMessageWrites
import CxxHeaders.Throwing

open Outcome Throwing EndianMacros SeekableNetworkMessage

/-- Where the null is. -/
def strlen (s : List UInt8) : Nat := s.findIdx (· == 0)

theorem length_take_strlen (s : List UInt8) : (s.take (strlen s)).length = strlen s :=
  List.length_take_of_le List.findIdx_le_length

namespace OutgoingNetworkMessage

/-- What a write throws. -/
inductive Exception where
  | messageLengthError | badAlloc
  deriving DecidableEq, Repr

namespace InPlace

/-- Code of a member. -/
abbrev Writing := Throwing Exception SeekableNetworkMessage

def addBytes (memory : Memory) (bytes : Nat) : Writing Unit := do
  let m ← get
  liftM (asserting (0 < bytes))
  liftM (asserting (bytes ≤ sizeMax - m.offset))
  liftM (asserting (m.size = m.offset))
  let newSize := (m.size + bytes) % (sizeMax + 1)
  if memory.realloc newSize then
    set { m with data := some ((List.range newSize).map fun i => m.bytes.getD i (memory.garbage i)) }
  else throw .badAlloc

def pokeBytes (data : Option (List UInt8)) (bytes : Nat) : Writing Unit := noexcept do
  let m ← get
  liftM (asserting (data.isSome ∨ bytes = 0))
  liftM (asserting (bytes ≤ m.size - m.offset))
  let poked := m.data.map fun b => b.take m.offset ++ memcpy (b.drop m.offset) (data.getD []) bytes
  set { m with data := poked }
  modify (·.advance bytes)

def writeBytes (memory : Memory) (data : Option (List UInt8)) (bytes : Nat) : Writing Unit := do
  let m ← get
  if bytes = 0 then return
  else if spaceLeft m < bytes then throw .messageLengthError
  else
    addBytes memory bytes
    pokeBytes data bytes

/-- For a `T` that no other overload is for. -/
def write (memory : Memory) (val : List UInt8) : Writing Unit := writeBytes memory (some val) val.length

def writeBool (memory : Memory) (val : Bool) : Writing Unit := writeBytes memory (some [if val then 1 else 0]) 1

def writeMessage (memory : Memory) (message : SeekableNetworkMessage) : Writing Unit :=
  writeBytes memory message.data message.size

def writeSize (memory : Memory) (host : Endian) (type : UnsignedType) (size : Nat) : Writing Unit :=
  let serializedSize := hostToSharemindNetOrder host type (size % 256 ^ type.sizeof)
  write memory (Bytes.encode host type.sizeof serializedSize)

def writeArray (memory : Memory) (data : Option (List UInt8)) (sizeof size : Nat) : Writing Unit := do
  let m ← get
  if size ≤ 0 then return
  else if spaceLeft m / sizeof < size then throw .messageLengthError
  else
    let arraySizeInBytes := size * sizeof % (sizeMax + 1)
    addBytes memory arraySizeInBytes
    pokeBytes data arraySizeInBytes

def writeSizeAndArray (memory : Memory) (host : Endian) (type : UnsignedType) (data : Option (List UInt8))
    (sizeof size : Nat) : Writing Unit := do
  let m ← get
  if size ≤ 0 then writeSize memory host type size
  else
    let bytesLeft := spaceLeft m
    if bytesLeft < type.sizeof then throw .messageLengthError
    else if (bytesLeft - type.sizeof) / sizeof < size then throw .messageLengthError
    else
      let arraySizeInBytes := size * sizeof % (sizeMax + 1)
      addBytes memory ((type.sizeof + arraySizeInBytes) % (sizeMax + 1))
      let serializedSize := hostToSharemindNetOrder host type (size % 256 ^ type.sizeof)
      pokeBytes (some (Bytes.encode host type.sizeof serializedSize)) type.sizeof
      pokeBytes data arraySizeInBytes

/-- A pointer and the number of characters. -/
def writeChars (memory : Memory) (host : Endian) (val : Option (List UInt8)) (size : Nat) : Writing Unit :=
  writeSizeAndArray memory host .uint64 val 1 size

/-- What is in memory from a pointer on. -/
def writeCString (memory : Memory) (host : Endian) (val : List UInt8) : Writing Unit :=
  writeSizeAndArray memory host .uint64 (some val) 1 (strlen val)

def writeString (memory : Memory) (host : Endian) (val : List UInt8) : Writing Unit :=
  writeSizeAndArray memory host .uint64 (some val) 1 val.length

def writeItem (memory : Memory) (host : Endian) : Item → Writing Unit
  | .bool val => writeBool memory val
  | .scalar val => write memory val
  | .size type _ n => writeSize memory host type n
  | .array data sizeof n => writeArray memory (some data) sizeof n
  | .sizeAndArray type _ data sizeof n => writeSizeAndArray memory host type (some data) sizeof n
  | .string val => writeString memory host val
  | .chars val => writeChars memory host (some val) val.length

/-- The writes, with that of a C string. -/
inductive Op where
  | write (op : WriteOp)
  | cString (val : List UInt8) (terminated : 0 ∈ val) (length : strlen val ≤ sizeMax)

def Op.run (memory : Memory) (host : Endian) : Op → Writing Unit
  | .write (.item x _) => writeItem memory host x
  | .write (.writeBytes data) => InPlace.writeBytes memory (some data) data.length
  | .write (.writeMessage message) => InPlace.writeMessage memory message
  | .cString val _ _ => writeCString memory host val

structure Act where
  memory : Memory
  op : Op

/-- What a write leaves of the message, however it ends. -/
def next (host : Endian) (m : SeekableNetworkMessage) (a : Act) : Outcome SeekableNetworkMessage := do
  let (_, m) ← (a.op.run a.memory host).run.run m
  return m

/-- The messages that are reached by writes only. -/
def Written (host : Endian) : SeekableNetworkMessage → Prop := Runs.Reachable (next host) (· = new)

/-! ## How much is written -/

/-- The elements that are written. -/
def Op.count : Op → Nat
  | .write (.item (.bool _) _) => 1
  | .write (.item (.scalar _) _) => 1
  | .write (.item (.size ..) _) => 0
  | .write (.item (.array _ _ n) _) => n
  | .write (.item (.sizeAndArray _ _ _ _ n) _) => n
  | .write (.item (.string val) _) => val.length
  | .write (.item (.chars val) _) => val.length
  | .write (.writeBytes data) => data.length
  | .write (.writeMessage message) => message.size
  | .cString val _ _ => strlen val

def Op.elementSize : Op → Nat
  | .write (.item (.scalar val) _) => val.length
  | .write (.item (.array _ sizeof _) _) => sizeof
  | .write (.item (.sizeAndArray _ _ _ sizeof _) _) => sizeof
  | _ => 1

/-- The size that is written in front of the elements, and its serialized type. -/
def Op.sizePrefix : Op → Option (UnsignedType × Nat)
  | .write (.item (.size type _ n) _) => some (type, n)
  | .write (.item (.sizeAndArray type _ _ _ n) _) => some (type, n)
  | .write (.item (.string val) _) => some (.uint64, val.length)
  | .write (.item (.chars val) _) => some (.uint64, val.length)
  | .cString val _ _ => some (.uint64, strlen val)
  | _ => none

def Op.prefixSize (op : Op) : Nat := (op.sizePrefix.map (·.1.sizeof)).getD 0

/-- As a number, whatever a `std::size_t` has room for. -/
def Op.amount (op : Op) : Nat := op.prefixSize + op.count * op.elementSize

/-- What a write does that does not throw. -/
structure Grows (m : SeekableNetworkMessage) (op : Op) (m' : SeekableNetworkMessage) : Prop where
  product : op.count * op.elementSize % (sizeMax + 1) = op.count * op.elementSize
  sum : (op.prefixSize + op.count * op.elementSize) % (sizeMax + 1) = op.amount
  newSize : (m.size + op.amount) % (sizeMax + 1) = m.size + op.amount
  size : m'.size = m.size + op.amount
  offset : m'.offset = m.offset + op.amount
  /-- The cast keeps the size, and a reader finds it. -/
  sizePrefix : ∀ type n, op.sizePrefix = some (type, n) →
    n % 256 ^ type.sizeof = n ∧ Bytes.ofLittle ((m'.bytes.drop m.size).take type.sizeof) = n

/-! ## The same writes -/

/-- What a write that leaves a message is to do where it leaves `old` if it throws. -/
def leaving (old : SeekableNetworkMessage) :
    Except Fault SeekableNetworkMessage → Outcome (Except Exception Unit × SeekableNetworkMessage)
  | .ok m => .next (.ok (), m)
  | .error .assertion => .failed
  | .error .messageLengthError => .next (.error .messageLengthError, old)
  | .error .badAlloc => .next (.error .badAlloc, old)

/-- In place, from `m`, the code does what is said of the write, and it leaves
`old` if it throws. -/
def Leaves (old : SeekableNetworkMessage) (x : Writing Unit) (m : SeekableNetworkMessage)
    (r : Except Fault SeekableNetworkMessage) : Prop :=
  x.run.run m = leaving old r

variable {old m : SeekableNetworkMessage} {memory : Memory} {host : Endian}

theorem Leaves.bind {x y : Writing Unit} {r : Except Fault SeekableNetworkMessage}
    {f : SeekableNetworkMessage → Except Fault SeekableNetworkMessage} (hx : Leaves old x m r)
    (hy : ∀ m', Leaves old y m' (f m')) : Leaves old (x >>= fun _ => y) m (r >>= f) := by
  have hbind : (x >>= fun _ => y).run.run m = (leaving old r >>= fun (a, m') =>
      match a with
      | .ok _ => y.run.run m'
      | .error e => .next (.error e, m')) := by
    rw [← hx]
    show (x.run.run m >>= _) = _
    cases x.run.run m with
    | next a =>
      obtain ⟨a, m'⟩ := a
      cases a <;> rfl
    | _ => rfl
  unfold Leaves
  rw [hbind]
  cases r with
  | ok m' => exact hy m'
  | error e => cases e <;> rfl

theorem Leaves.asserting {p : Prop} [Decidable p] {y : Writing Unit}
    {r : Except Fault SeekableNetworkMessage} (h : p → Leaves old y m r) :
    Leaves old (liftM (asserting p) >>= fun _ => y) m (assert p >>= fun _ => r) := by
  by_cases hp : p
  · rw [asserting_true hp, assert_true hp]
    exact h hp
  · unfold Outcome.asserting assert
    rw [if_neg hp, if_neg hp]
    rfl

theorem Leaves.noexcept {x : Writing Unit} {r : Except Fault SeekableNetworkMessage} (hx : Leaves old x m r)
    (hr : ∀ e, r = .error e → e = .assertion) : Leaves old (noexcept x) m r := by
  unfold Leaves
  show (x.run.run m >>= _) = _
  rw [hx]
  cases r with
  | ok m' => rfl
  | error e =>
    rw [hr e rfl]
    rfl

theorem addBytes_leaves (memory : Memory) (m : SeekableNetworkMessage) (n : Nat) :
    Leaves m (addBytes memory n) m (OutgoingNetworkMessage.addBytes memory m n) := by
  refine Leaves.asserting fun _ => Leaves.asserting fun _ => Leaves.asserting fun _ => ?_
  dsimp only
  split <;> rfl

theorem pokeBytes_error {data : Option (List UInt8)} {n : Nat} {e : Fault}
    (h : OutgoingNetworkMessage.pokeBytes m data n = .error e) : e = .assertion := by
  unfold OutgoingNetworkMessage.pokeBytes assert at h
  split at h
  · split at h <;> cases h
    rfl
  · cases h
    rfl

/-- Nothing is thrown. -/
theorem pokeBytes_leaves (old m : SeekableNetworkMessage) (data : Option (List UInt8)) (n : Nat) :
    Leaves old (pokeBytes data n) m (OutgoingNetworkMessage.pokeBytes m data n) := by
  refine Leaves.noexcept (Leaves.asserting fun _ => Leaves.asserting fun _ => ?_) fun e => pokeBytes_error
  rfl

theorem writeBytes_leaves (memory : Memory) (m : SeekableNetworkMessage) (data : Option (List UInt8)) (n : Nat) :
    Leaves m (writeBytes memory data n) m (OutgoingNetworkMessage.writeBytes memory m data n) := by
  show Leaves m (if _ then _ else _) m (if _ then _ else _)
  split
  next => rfl
  next =>
    split
    next => rfl
    next => exact (addBytes_leaves memory m _).bind fun m' => pokeBytes_leaves m m' data n

theorem writeArray_leaves (memory : Memory) (m : SeekableNetworkMessage) (data : Option (List UInt8))
    (sizeof n : Nat) :
    Leaves m (writeArray memory data sizeof n) m (OutgoingNetworkMessage.writeArray memory m data sizeof n) := by
  show Leaves m (if _ then _ else _) m (if _ then _ else _)
  split
  next => rfl
  next =>
    split
    next => rfl
    next => exact (addBytes_leaves memory m _).bind fun m' => pokeBytes_leaves m m' _ _

theorem writeSizeAndArray_leaves (memory : Memory) (host : Endian) (m : SeekableNetworkMessage)
    (type : UnsignedType) (data : Option (List UInt8)) (sizeof n : Nat) :
    Leaves m (writeSizeAndArray memory host type data sizeof n) m
      (OutgoingNetworkMessage.writeSizeAndArray memory host type m data sizeof n) := by
  unfold OutgoingNetworkMessage.writeSizeAndArray
  dsimp only
  show Leaves m (if _ then _ else _) m _
  split
  next => exact writeBytes_leaves memory m _ _
  next =>
    split
    next => rfl
    next =>
      split
      next => rfl
      next =>
        refine (addBytes_leaves memory m _).bind fun m₁ => ?_
        exact (pokeBytes_leaves m m₁ _ _).bind fun m₂ => pokeBytes_leaves m m₂ _ _

/-- No more is read than is copied. -/
theorem pokeBytes_take (val : List UInt8) {k n : Nat} (hn : n ≤ k) :
    pokeBytes (some (val.take k)) n = pokeBytes (some val) n := by
  have hcopy : ∀ dest, memcpy dest (val.take k) n = memcpy dest val n := by
    intro dest
    rw [memcpy, List.take_take, Nat.min_eq_left hn, memcpy]
  simp [pokeBytes, hcopy]

/-- The characters in front of the null are all that is written of what is in memory. -/
theorem writeCString_eq (memory : Memory) (host : Endian) (val : List UInt8) :
    writeCString memory host val =
      writeChars memory host (some (val.take (strlen val))) (val.take (strlen val)).length := by
  have hle : strlen val * 1 % (sizeMax + 1) ≤ strlen val := by
    rw [Nat.mul_one]
    exact Nat.mod_le ..
  unfold writeCString writeChars writeSizeAndArray
  dsimp only
  rw [length_take_strlen, pokeBytes_take val hle]

/-- The write of the same bytes. -/
def Op.toWriteOp : Op → WriteOp
  | .write op => op
  | .cString val _ h => .item (.chars (val.take (strlen val))) ((length_take_strlen val).trans_le h)

/-- **Done in place a write does what it does to a message of its own, and
leaves the message as it was if it throws.** -/
theorem run_leaves (memory : Memory) (host : Endian) (m : SeekableNetworkMessage) (op : Op) :
    Leaves m (op.run memory host) m (op.toWriteOp.run memory host m) := by
  cases op with
  | write op =>
    cases op with
    | writeBytes data => exact writeBytes_leaves memory m (some data) data.length
    | writeMessage message => exact writeBytes_leaves memory m message.data message.size
    | item x ht =>
      cases x with
      | bool val => exact writeBytes_leaves memory m _ _
      | scalar val => exact writeBytes_leaves memory m _ _
      | size type max n => exact writeBytes_leaves memory m _ _
      | array data sizeof n => exact writeArray_leaves memory m (some data) sizeof n
      | sizeAndArray type max data sizeof n =>
        exact writeSizeAndArray_leaves memory host m type (some data) sizeof n
      | string val => exact writeSizeAndArray_leaves memory host m .uint64 (some val) 1 _
      | chars val => exact writeSizeAndArray_leaves memory host m .uint64 (some val) 1 _
  | cString val hnull hlen =>
    show Leaves m (writeCString memory host val) m _
    rw [writeCString_eq]
    exact writeSizeAndArray_leaves memory host m .uint64 (some _) 1 _

/-! ## How a write ends -/

/-- What is written has as many bytes as is said. -/
theorem length_bytes (op : Op) : op.toWriteOp.bytes.length = op.amount := by
  have hstring : ∀ val : List UInt8, (Bytes.little 8 val.length ++ val).length = 8 + val.length * 1 := by
    intro val
    rw [List.length_append, Bytes.length_little, Nat.mul_one]
  cases op with
  | write op =>
    cases op with
    | writeBytes data => exact (Nat.zero_add _).trans (Nat.mul_one _) |>.symm
    | writeMessage message => exact (Nat.zero_add _).trans (Nat.mul_one _) |>.symm
    | item x ht =>
      cases x with
      | bool val => rfl
      | scalar val => exact (Nat.zero_add _).trans (Nat.one_mul _) |>.symm
      | size type max n =>
        show (Bytes.little type.sizeof n).length = type.sizeof + 0 * 1
        rw [Bytes.length_little, Nat.zero_mul, Nat.add_zero]
      | array data sizeof n => exact ht.2.trans ((Nat.zero_add _).trans (Nat.mul_comm ..)).symm
      | sizeAndArray type max data sizeof n =>
        obtain ⟨-, -, -, hlen⟩ := ht
        show (Bytes.little type.sizeof n ++ data).length = type.sizeof + n * sizeof
        rw [List.length_append, Bytes.length_little, hlen, Nat.mul_comm]
      | string val => exact hstring val
      | chars val => exact hstring val
  | cString val hnull hlen =>
    show (Bytes.little 8 (val.take (strlen val)).length ++ val.take (strlen val)).length = 8 + strlen val * 1
    rw [hstring, length_take_strlen]

theorem bytes_of_sizePrefix {op : Op} {type : UnsignedType} {n : Nat} (h : op.sizePrefix = some (type, n)) :
    n < 256 ^ type.sizeof ∧ ∃ elements, op.toWriteOp.bytes = Bytes.little type.sizeof n ++ elements := by
  cases op with
  | write op =>
    cases op with
    | writeBytes data => cases h
    | writeMessage message => cases h
    | item x ht =>
      cases x with
      | bool val => cases h
      | scalar val => cases h
      | array data sizeof n => cases h
      | size type max n =>
        cases h
        exact ⟨Nat.lt_of_le_of_lt ht.1 ht.2, [], (List.append_nil _).symm⟩
      | sizeAndArray type max data sizeof n =>
        cases h
        exact ⟨Nat.lt_of_le_of_lt ht.1 ht.2.1, data, rfl⟩
      | string val =>
        cases h
        exact ⟨Nat.lt_succ_of_le ht, val, rfl⟩
      | chars val =>
        cases h
        exact ⟨Nat.lt_succ_of_le ht, val, rfl⟩
  | cString val hnull hlen =>
    cases h
    refine ⟨Nat.lt_succ_of_le hlen, val.take (strlen val), ?_⟩
    show Bytes.little 8 (val.take (strlen val)).length ++ val.take (strlen val) = _
    rw [length_take_strlen]
    rfl

theorem Grows.of_appends {m' : SeekableNetworkMessage} {op : Op} (h : Complete m) (h' : Complete m')
    (hbytes : m'.bytes = m.bytes ++ op.toWriteOp.bytes) : Grows m op m' := by
  have hsize : m'.size = m.size + op.amount := by
    unfold SeekableNetworkMessage.size
    rw [hbytes, List.length_append, length_bytes]
  have hmax := h'.size
  have hamount : op.amount = op.prefixSize + op.count * op.elementSize := rfl
  refine ⟨Nat.mod_eq_of_lt (by omega), Nat.mod_eq_of_lt (by omega), Nat.mod_eq_of_lt (by omega), hsize, ?_, ?_⟩
  · rw [h'.offset, hsize, h.offset]
  · intro type n hp
    obtain ⟨hn, elements, helements⟩ := bytes_of_sizePrefix hp
    have hfound : (m'.bytes.drop m.size).take type.sizeof = Bytes.little type.sizeof n := by
      unfold SeekableNetworkMessage.size
      rw [hbytes, List.drop_left, helements]
      exact List.take_left' Bytes.length_little
    rw [hfound]
    exact ⟨Nat.mod_eq_of_lt hn, Bytes.ofLittle_little hn⟩

/-- A write at the end throws and leaves the message as it is, or adds all of
its bytes. -/
theorem run_ends (memory : Memory) (host : Endian) (h : Complete m) (op : Op) :
    Ends (op.run memory host) m (fun _ m' => Grows m op m' ∧ Complete m') (fun _ m' => m' = m) := by
  unfold Ends
  rw [run_leaves memory host m op]
  rcases run_appends memory host h op.toWriteOp with hx | hx | ⟨m', hx, hbytes, h'⟩ <;> rw [hx]
  · exact rfl
  · exact rfl
  · exact ⟨.of_appends h h' hbytes, h'⟩

theorem Written.complete (h : Written host m) : Complete m := by
  refine Runs.Reachable.invariant (fun m hm => ?_) (fun m a hm => ?_) h
  · rw [hm]
    exact ⟨rfl, Nat.zero_le _⟩
  · have hends := run_ends a.memory host hm a.op
    unfold Ends at hends
    unfold next
    rw [Outcome.ok_bind]
    refine hends.ok.mono fun r hr => ?_
    obtain ⟨r, m'⟩ := r
    cases r with
    | ok => exact hr.2
    | error =>
      have heq : m' = m := hr
      rw [heq]
      exact hm

/-- **A write of a message that was only written to throws and leaves the
message as it was, or its size and its offset grow by exactly what is written,
in numbers none of which wrapped around, and behind a size prefix that is not
truncated.** -/
theorem writes_atomic (host : Endian) : ∀ m, Written host m → ∀ (memory : Memory) (op : Op),
    Ends (op.run memory host) m (fun _ m' => Grows m op m') (fun _ m' => m' = m) := by
  intro m h memory op
  exact (run_ends memory host h.complete op).mono (fun _ _ hm => hm.1) fun _ _ => id

/-- Two elements of two bytes. -/
def twoElements : Op :=
  .write (.item (.sizeAndArray .uint8 255 [1, 2, 3, 4] 2 2) ⟨by decide, by decide, by decide, rfl⟩)

/-- They are written behind the byte of a truth value. -/
theorem writes_atomic_elements :
    Ends (twoElements.run plenty .little) ⟨some [1], 1⟩ (fun _ m => m.size = 6 ∧ m.offset = 6)
      (fun _ m => m = ⟨some [1], 1⟩) := by
  have hwritten : Written .little ⟨some [1], 1⟩ :=
    .step (a := ⟨plenty, .write (.item (.bool true) trivial)⟩) (.init rfl) rfl
  exact (writes_atomic .little _ hwritten plenty _).mono (fun _ _ h => ⟨h.size, h.offset⟩) fun _ _ => id

end InPlace

end OutgoingNetworkMessage
