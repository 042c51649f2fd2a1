/-
A message is written at its end. `rewind` and `seek` move the offset away from
there, and a write that adds bytes then fails its assertion; so does a write of
what a null pointer points to, and nothing else does (`sound_iff_completes`).
-/
import CxxHeaders.NetworkMessageRoundTrip

open Outcome EndianMacros SeekableNetworkMessage

namespace OutgoingNetworkMessage

def rewind (m : SeekableNetworkMessage) : SeekableNetworkMessage := { m with offset := 0 }

def writeMessage (memory : Memory) (m message : SeekableNetworkMessage) :
    Except Fault SeekableNetworkMessage :=
  writeBytes memory m message.data message.size

/-- The overloads of `write`, and the other writes: of an item, of bytes and of
another message. -/
inductive WriteOp where
  | item (x : Item) (typed : x.Typed)
  | writeBytes (data : List UInt8)
  | writeMessage (message : SeekableNetworkMessage)

namespace WriteOp

/-- What it appends. -/
def bytes : WriteOp → List UInt8
  | .item x _ => x.encoding
  | .writeBytes data => data
  | .writeMessage message => message.bytes

def run (memory : Memory) (host : Endian) (m : SeekableNetworkMessage) :
    WriteOp → Except Fault SeekableNetworkMessage
  | .item x _ => writeItem memory host m x
  | .writeBytes data => OutgoingNetworkMessage.writeBytes memory m (some data) data.length
  | .writeMessage message => OutgoingNetworkMessage.writeMessage memory m message

end WriteOp

/-- A write from a null pointer, of so many bytes or elements. -/
inductive NullOp where
  /-- Also of a message that has no data but a size. -/
  | writeBytes (bytes : Nat)
  | writeArray (sizeof size : Nat) (pos : 0 < sizeof)
  /-- Also of characters. -/
  | writeSizeAndArray (type : UnsignedType) (max sizeof size : Nat)
    (typed : size ≤ max ∧ max < 256 ^ type.sizeof ∧ 0 < sizeof)

namespace NullOp

/-- What is to be read from the pointer. -/
def size : NullOp → Nat
  | .writeBytes bytes => bytes
  | .writeArray _ size _ | .writeSizeAndArray _ _ _ size _ => size

/-- How many bytes are to be added. -/
def amount : NullOp → Nat
  | .writeBytes bytes => bytes
  | .writeArray sizeof size _ => size * sizeof
  | .writeSizeAndArray type _ sizeof size _ => type.sizeof + size * sizeof

def run (memory : Memory) (host : Endian) (m : SeekableNetworkMessage) : NullOp → Except Fault SeekableNetworkMessage
  | .writeBytes bytes => OutgoingNetworkMessage.writeBytes memory m none bytes
  | .writeArray sizeof size _ => OutgoingNetworkMessage.writeArray memory m none sizeof size
  | .writeSizeAndArray type _ sizeof size _ =>
    OutgoingNetworkMessage.writeSizeAndArray memory host type m none sizeof size

end NullOp

inductive Act where
  | write (memory : Memory) (op : WriteOp)
  | writeNull (memory : Memory) (op : NullOp)
  | rewind
  | seek (pos : Nat)

/-- How many bytes are to be added. -/
def Act.amount : Act → Nat
  | .write _ op => op.bytes.length
  | .writeNull _ op => op.amount
  | _ => 0

/-- What a write throws leaves the message as it is. -/
def caught (m : SeekableNetworkMessage) : Except Fault SeekableNetworkMessage → Outcome SeekableNetworkMessage
  | .ok m' => .next m'
  | .error .assertion => .failed
  | .error _ => .next m

def next (host : Endian) (m : SeekableNetworkMessage) : Act → Outcome SeekableNetworkMessage
  | .write memory op => caught m (op.run memory host m)
  | .writeNull memory op => caught m (op.run memory host m)
  | .rewind => return rewind m
  | .seek pos => return (m.seek pos).1

/-- The write comes to `addBytes`. -/
def Reaches (m : SeekableNetworkMessage) (a : Act) : Prop := a.amount ≠ 0 ∧ a.amount ≤ spaceLeft m

/-- The offset is not beyond the end, and no size that was computed was too
large for a `std::size_t`. -/
structure Sound (m : SeekableNetworkMessage) (a : Act) (m' : SeekableNetworkMessage) : Prop where
  offset : m'.offset ≤ m'.size
  size : m'.size ≤ sizeMax
  noWrap : Reaches m a → m.size + a.amount ≤ sizeMax ∧ m.offset + a.amount ≤ sizeMax

/-- Bytes are added at the end only, and where there is memory for them, none is
read from a null pointer. -/
def Completes (m : SeekableNetworkMessage) (a : Act) : Prop :=
  Reaches m a → m.offset = m.size ∧
    ∀ memory op, a = .writeNull memory op → op.size ≠ 0 → memory.realloc (m.size + a.amount) = false

/-! ## Writes -/

variable {memory : Memory} {host : Endian} {m : SeekableNetworkMessage} {bs : List UInt8}

/-- How a write of the bytes begins. -/
inductive Adds (memory : Memory) (m : SeekableNetworkMessage) (bs : List UInt8) :
    Except Fault SeekableNetworkMessage → Prop
  | nothing : bs = [] → Adds memory m bs (.ok m)
  | tooLong : bs ≠ [] → spaceLeft m < bs.length → Adds memory m bs (.error .messageLengthError)
  | adds (poke) : bs ≠ [] → bs.length ≤ spaceLeft m →
      Adds memory m bs (addBytes memory m bs.length >>= poke)

theorem writeBytes_adds (memory : Memory) (m : SeekableNetworkMessage) (bs : List UInt8) :
    Adds memory m bs (writeBytes memory m (some bs) bs.length) := by
  unfold writeBytes
  split
  next hnil => exact .nothing (List.eq_nil_of_length_eq_zero hnil)
  next hnil =>
    have hne : bs ≠ [] := fun he => hnil (he ▸ rfl)
    split
    next hlong => exact .tooLong hne hlong
    next hle => exact .adds _ hne (Nat.le_of_not_lt hle)

/-- Also of a message that has no data. -/
theorem writeMessage_eq (memory : Memory) (m message : SeekableNetworkMessage) :
    writeMessage memory m message = writeBytes memory m (some message.bytes) message.bytes.length := by
  unfold writeMessage SeekableNetworkMessage.size SeekableNetworkMessage.bytes
  cases message.data <;> rfl

theorem writeSize_adds (memory : Memory) (host : Endian) (m : SeekableNetworkMessage) {type : UnsignedType}
    {n : Nat} (hn : n < 256 ^ type.sizeof) :
    Adds memory m (Bytes.little type.sizeof n) (writeSize memory host type m n) := by
  unfold writeSize write
  dsimp only
  rw [Nat.mod_eq_of_lt hn, encode_hostToSharemindNetOrder]
  exact writeBytes_adds memory m _

theorem array_ne_nil {data : List UInt8} {sizeof n : Nat} (hpos : 0 < sizeof)
    (hlen : data.length = sizeof * n) (hn : ¬n ≤ 0) : data ≠ [] := by
  have hmul : 0 < sizeof * n := Nat.mul_pos hpos (by omega)
  exact List.ne_nil_of_length_pos (by omega)

theorem writeArray_adds (memory : Memory) (m : SeekableNetworkMessage) {data : List UInt8} {sizeof n : Nat}
    (hpos : 0 < sizeof) (hlen : data.length = sizeof * n) :
    Adds memory m data (writeArray memory m (some data) sizeof n) := by
  unfold writeArray
  dsimp only
  split
  next hn =>
    exact .nothing (List.eq_nil_of_length_eq_zero (by rw [hlen, Nat.le_zero.mp hn, Nat.mul_zero]))
  next hn =>
    have hne := array_ne_nil hpos hlen hn
    split
    next hlong =>
      refine .tooLong hne ?_
      rw [hlen, Nat.mul_comm]
      exact (Nat.div_lt_iff_lt_mul hpos).mp hlong
    next hfit =>
      obtain ⟨hmul, hle⟩ := mul_eq_length hpos hlen hfit (Nat.sub_le ..)
      rw [hmul]
      exact .adds _ hne hle

theorem writeSizeAndArray_adds (memory : Memory) (host : Endian) (m : SeekableNetworkMessage)
    (type : UnsignedType) {data : List UInt8} {sizeof n : Nat} (hn : n < 256 ^ type.sizeof)
    (hpos : 0 < sizeof) (hlen : data.length = sizeof * n) :
    Adds memory m (Bytes.little type.sizeof n ++ data)
      (writeSizeAndArray memory host type m (some data) sizeof n) := by
  have hsizeof : 0 < type.sizeof := by cases type <;> decide
  have hlength : (Bytes.little type.sizeof n ++ data).length = type.sizeof + data.length := by
    rw [List.length_append, Bytes.length_little]
  have hne : Bytes.little type.sizeof n ++ data ≠ [] := List.ne_nil_of_length_pos (by omega)
  unfold writeSizeAndArray
  dsimp only
  split
  next hzero =>
    have hnil : data = [] :=
      List.eq_nil_of_length_eq_zero (by rw [hlen, Nat.le_zero.mp hzero, Nat.mul_zero])
    rw [hnil, List.append_nil]
    exact writeSize_adds memory host m hn
  next =>
    split
    next hshort => exact .tooLong hne (by omega)
    next hleft =>
      split
      next hlong =>
        have hlt := (Nat.div_lt_iff_lt_mul hpos).mp hlong
        rw [Nat.mul_comm, ← hlen] at hlt
        exact .tooLong hne (by omega)
      next hfit =>
        unfold spaceLeft at hleft hfit
        obtain ⟨hmul, hle⟩ := mul_eq_length hpos hlen hfit (by omega)
        have hsum : (type.sizeof + data.length) % (sizeMax + 1) =
            (Bytes.little type.sizeof n ++ data).length := by
          rw [hlength, Nat.mod_eq_of_lt (by omega)]
        rw [hmul, hsum]
        exact .adds _ hne (by unfold spaceLeft; omega)

theorem writeString_adds (memory : Memory) (host : Endian) (m : SeekableNetworkMessage) {val : List UInt8}
    (hlen : val.length ≤ sizeMax) :
    Adds memory m (Bytes.little 8 val.length ++ val) (writeString memory host m val) := by
  have hlt : val.length < 256 ^ 8 := by
    unfold sizeMax at hlen
    omega
  exact writeSizeAndArray_adds memory host m .uint64 hlt Nat.one_pos (Nat.one_mul _).symm

/-- Every write but an empty one comes to `addBytes`, with the number of the
bytes that it appends, unless these are too many. -/
theorem run_adds (memory : Memory) (host : Endian) (m : SeekableNetworkMessage) (op : WriteOp) :
    Adds memory m op.bytes (op.run memory host m) := by
  cases op with
  | writeBytes data => exact writeBytes_adds memory m data
  | writeMessage message =>
    rw [WriteOp.run, writeMessage_eq]
    exact writeBytes_adds memory m message.bytes
  | item x ht =>
    cases x with
    | bool val => exact writeBytes_adds memory m _
    | scalar val => exact writeBytes_adds memory m val
    | size type max n => exact writeSize_adds memory host m (Nat.lt_of_le_of_lt ht.1 ht.2)
    | array data sizeof n => exact writeArray_adds memory m ht.1 ht.2
    | sizeAndArray type max data sizeof n =>
      obtain ⟨hn, hmax, hpos, hlen⟩ := ht
      exact writeSizeAndArray_adds memory host m type (Nat.lt_of_le_of_lt hn hmax) hpos hlen
    | string val => exact writeString_adds memory host m ht
    | chars val => exact writeString_adds memory host m ht

theorem run_appends (memory : Memory) (host : Endian) (h : Complete m) (op : WriteOp) :
    Appends m op.bytes (op.run memory host m) := by
  cases op with
  | writeBytes data => exact writeBytes_appends h data
  | writeMessage message =>
    rw [WriteOp.run, writeMessage_eq]
    exact writeBytes_appends h message.bytes
  | item x ht => exact writeItem_appends h ht

/-- `// All data previously poked` -/
theorem addBytes_assertion (hne : m.offset ≠ m.size) {n : Nat} (hn : 0 < n)
    (hle : n ≤ sizeMax - m.offset) : addBytes memory m n = .error .assertion := by
  have hfalse : assert (m.size = m.offset) = .error .assertion := if_neg (Ne.symm hne)
  unfold addBytes
  rw [assert_true hn, assert_true hle, hfalse]
  rfl

/-! ## Writes from a null pointer -/

/-- Of the bytes from a null pointer none can be copied. -/
theorem pokeBytes_null {n : Nat} (hn : n ≠ 0) : pokeBytes m none n = .error .assertion := by
  have hfalse : assert ((none : Option (List UInt8)).isSome ∨ n = 0) = .error .assertion := if_neg (by simp [hn])
  unfold pokeBytes
  rw [hfalse]
  rfl

theorem pokeBytes_prefix_null {data : Option (List UInt8)} {k n : Nat} (hn : n ≠ 0) :
    (pokeBytes m data k >>= fun m => pokeBytes m none n) = .error .assertion := by
  unfold pokeBytes assert
  split
  · split
    · exact pokeBytes_null hn
    · rfl
  · rfl

/-- How a write from a null pointer begins, of which there is something to be read. -/
inductive AddsNull (memory : Memory) (m : SeekableNetworkMessage) (n : Nat) :
    Except Fault SeekableNetworkMessage → Prop
  | tooLong : spaceLeft m < n → AddsNull memory m n (.error .messageLengthError)
  | adds : n ≤ spaceLeft m → AddsNull memory m n (addBytes memory m n >>= fun _ => .error .assertion)

theorem NullOp.run_adds (memory : Memory) (host : Endian) (m : SeekableNetworkMessage) {op : NullOp}
    (hsize : op.size ≠ 0) : op.amount ≠ 0 ∧ AddsNull memory m op.amount (op.run memory host m) := by
  cases op with
  | writeBytes bytes =>
    refine ⟨hsize, ?_⟩
    have hsize : bytes ≠ 0 := hsize
    simp only [NullOp.run, OutgoingNetworkMessage.writeBytes, if_neg hsize]
    split
    next hlong => exact .tooLong hlong
    next hle =>
      rw [funext fun m => pokeBytes_null hsize]
      exact .adds (Nat.le_of_not_lt hle)
  | writeArray sizeof size hpos =>
    have hsize : size ≠ 0 := hsize
    have hamount : size * sizeof ≠ 0 := Nat.mul_ne_zero hsize (by omega)
    refine ⟨hamount, ?_⟩
    unfold NullOp.run OutgoingNetworkMessage.writeArray
    dsimp only
    rw [if_neg (by omega)]
    split
    next hlong => exact .tooLong ((Nat.div_lt_iff_lt_mul hpos).mp hlong)
    next hfit =>
      have hle : size * sizeof ≤ spaceLeft m := (Nat.le_div_iff_mul_le hpos).mp (Nat.le_of_not_lt hfit)
      have hmul : size * sizeof % (sizeMax + 1) = size * sizeof := by
        unfold spaceLeft at hle
        exact Nat.mod_eq_of_lt (by omega)
      rw [hmul, funext fun m => pokeBytes_null hamount]
      exact .adds hle
  | writeSizeAndArray type max sizeof size ht =>
    have hpos := ht.2.2
    have hsize : size ≠ 0 := hsize
    have hamount : size * sizeof ≠ 0 := Nat.mul_ne_zero hsize (by omega)
    refine ⟨by simp only [amount]; omega, ?_⟩
    unfold NullOp.run OutgoingNetworkMessage.writeSizeAndArray
    dsimp only
    rw [if_neg (by omega)]
    split
    next hshort => exact .tooLong (by simp only [amount]; omega)
    next hleft =>
      split
      next hlong =>
        have hlt := (Nat.div_lt_iff_lt_mul hpos).mp hlong
        exact .tooLong (by simp only [amount]; omega)
      next hfit =>
        have hle := (Nat.le_div_iff_mul_le hpos).mp (Nat.le_of_not_lt hfit)
        unfold spaceLeft at hleft hle
        have hmul : size * sizeof % (sizeMax + 1) = size * sizeof := Nat.mod_eq_of_lt (by omega)
        have hsum : (type.sizeof + size * sizeof) % (sizeMax + 1) = type.sizeof + size * sizeof :=
          Nat.mod_eq_of_lt (by omega)
        rw [hmul, hsum, funext fun m => pokeBytes_prefix_null hamount]
        exact .adds (by simp only [amount, spaceLeft]; omega)

/-- The same write with nothing to be read. -/
def NullOp.plain : NullOp → WriteOp
  | .writeBytes _ => .writeBytes []
  | .writeArray sizeof _ pos => .item (.array [] sizeof 0) ⟨pos, rfl⟩
  | .writeSizeAndArray type max sizeof _ typed =>
    .item (.sizeAndArray type max [] sizeof 0) ⟨Nat.zero_le _, typed.2.1, typed.2.2, rfl⟩

theorem NullOp.run_plain (memory : Memory) (host : Endian) (m : SeekableNetworkMessage) {op : NullOp}
    (hsize : op.size = 0) : op.run memory host m = op.plain.run memory host m ∧
      op.plain.bytes.length = op.amount := by
  cases op with
  | writeBytes bytes =>
    cases hsize
    exact ⟨rfl, rfl⟩
  | writeArray sizeof size pos =>
    cases hsize
    exact ⟨rfl, (Nat.zero_mul _).symm⟩
  | writeSizeAndArray type max sizeof size typed =>
    cases hsize
    refine ⟨rfl, ?_⟩
    show (Bytes.little type.sizeof 0 ++ []).length = type.sizeof + 0 * sizeof
    rw [List.append_nil, Bytes.length_little, Nat.zero_mul, Nat.add_zero]

/-! ## Steps and runs -/

/-- What holds between any two operations. -/
structure Inside (m : SeekableNetworkMessage) : Prop where
  offset : m.offset ≤ m.size
  size : m.size ≤ sizeMax

theorem Inside.sound (h : Inside m) {a : Act} (hno : ¬Reaches m a) : Sound m a m :=
  ⟨h.offset, h.size, fun hr => absurd hr hno⟩

theorem Complete.noWrap (h : Complete m) {a : Act} (hr : Reaches m a) :
    m.size + a.amount ≤ sizeMax ∧ m.offset + a.amount ≤ sizeMax := by
  have hroom := hr.2
  have hsize := h.size
  have hoffset := h.offset
  unfold spaceLeft at hroom
  omega

/-- A write at the end adds its bytes, or throws. -/
theorem write_ok (h : Complete m) (op : WriteOp) (a : Act) :
    (caught m (op.run memory host m)).Ok (Sound m a) := by
  rcases run_appends memory host h op with hx | hx | ⟨m', hx, -, h'⟩ <;> rw [hx]
  · exact ⟨Nat.le_of_eq h.offset, h.size, h.noWrap⟩
  · exact ⟨Nat.le_of_eq h.offset, h.size, h.noWrap⟩
  · exact ⟨Nat.le_of_eq h'.offset, h'.size, h.noWrap⟩

theorem write_iff (h : Inside m) (op : WriteOp) {a : Act} (ha : a.amount = op.bytes.length) :
    (Reaches m a → m.offset = m.size) ↔ (caught m (op.run memory host m)).Ok (Sound m a) := by
  by_cases hr : Reaches m a
  · simp only [forall_prop_of_true hr]
    constructor
    · intro ho
      exact write_ok ⟨ho, h.size⟩ op a
    · intro hok
      by_contra hne
      have hrun : op.run memory host m = .error .assertion := by
        have hadds := run_adds memory host m op
        obtain ⟨hbytes, hroom⟩ := hr
        rw [ha] at hbytes hroom
        generalize op.run memory host m = x at hadds
        cases hadds with
        | nothing hnil => exact absurd (congrArg List.length hnil) hbytes
        | tooLong _ hlong => exact absurd hlong (Nat.not_lt.mpr hroom)
        | adds poke _ _ =>
          rw [addBytes_assertion hne (Nat.pos_of_ne_zero hbytes) hroom]
          rfl
      rw [hrun] at hok
      exact hok
  · refine iff_of_true (fun h => absurd h hr) ?_
    have hadds := run_adds memory host m op
    generalize op.run memory host m = x at hadds
    cases hadds with
    | nothing => exact h.sound hr
    | tooLong => exact h.sound hr
    | adds poke hne hroom =>
      rw [Reaches, ha] at hr
      exact absurd ⟨fun hz => hne (List.eq_nil_of_length_eq_zero hz), hroom⟩ hr

/-- At the end it is only for the memory whether bytes are added. -/
theorem addBytes_isOk (h : Complete m) {n : Nat} (hn : 0 < n) (hle : n ≤ sizeMax - m.offset) :
    addBytes memory m n = .error .badAlloc ∧ memory.realloc (m.size + n) = false ∨
      (∃ m', addBytes memory m n = .ok m') ∧ memory.realloc (m.size + n) = true := by
  have hsize := h.size
  have hoffset := h.offset
  have hmod : (m.size + n) % (sizeMax + 1) = m.size + n := Nat.mod_eq_of_lt (by omega)
  unfold addBytes
  rw [assert_true hn, assert_true hle, assert_true hoffset.symm]
  simp only [ok_bind, hmod]
  cases memory.realloc (m.size + n) with
  | false => exact .inl ⟨rfl, rfl⟩
  | true => exact .inr ⟨⟨_, rfl⟩, rfl⟩

theorem null_iff (h : Inside m) {op : NullOp} (hsize : op.size ≠ 0) :
    Completes m (.writeNull memory op) ↔
      (caught m (op.run memory host m)).Ok (Sound m (.writeNull memory op)) := by
  obtain ⟨hamount, hadds⟩ := op.run_adds memory host m hsize
  generalize op.run memory host m = x at hadds
  cases hadds with
  | tooLong hlong =>
    have hno : ¬Reaches m (.writeNull memory op) := fun hr => absurd hlong (Nat.not_lt.mpr hr.2)
    exact iff_of_true (fun hr => absurd hr hno) (h.sound hno)
  | adds hle =>
    have hr : Reaches m (.writeNull memory op) := ⟨hamount, hle⟩
    have hcompletes : Completes m (.writeNull memory op) ↔
        m.offset = m.size ∧ memory.realloc (m.size + op.amount) = false := by
      refine (forall_prop_of_true hr).trans (and_congr_right fun _ => ⟨fun hall => hall _ _ rfl hsize, ?_⟩)
      intro hfull _ _ he _
      cases he
      exact hfull
    rw [hcompletes]
    by_cases ho : m.offset = m.size
    · have hcomplete : Complete m := ⟨ho, h.size⟩
      obtain ⟨hadd, hfull⟩ | ⟨⟨m', hadd⟩, hroom⟩ :=
        @addBytes_isOk memory m hcomplete _ (Nat.pos_of_ne_zero hamount) hle
      · rw [hadd]
        exact iff_of_true ⟨ho, hfull⟩ ⟨h.offset, h.size, hcomplete.noWrap⟩
      · rw [hadd, hroom]
        exact iff_of_false (fun hf => Bool.noConfusion hf.2) id
    · rw [addBytes_assertion ho (Nat.pos_of_ne_zero hamount) hle]
      exact iff_of_false (fun hf => ho hf.1) id

theorem next_iff (h : Inside m) (a : Act) : Completes m a ↔ (next host m a).Ok (Sound m a) := by
  cases a with
  | write memory op =>
    refine Iff.trans ⟨fun hc hr => (hc hr).1, fun ho hr => ⟨ho hr, fun _ _ he => by cases he⟩⟩
      (write_iff h op rfl)
  | writeNull memory op =>
    by_cases hsize : op.size = 0
    · obtain ⟨hrun, hlen⟩ := op.run_plain memory host m hsize
      simp only [next, hrun]
      refine Iff.trans ⟨fun hc hr => (hc hr).1, fun ho hr => ⟨ho hr, fun _ _ he hne => ?_⟩⟩
        (write_iff h op.plain hlen.symm)
      cases he
      exact absurd hsize hne
    · exact null_iff h hsize
  | rewind => exact iff_of_true (fun hr => absurd rfl hr.1) ⟨Nat.zero_le _, h.size, fun hr => absurd rfl hr.1⟩
  | seek pos =>
    refine iff_of_true (fun hr => absurd rfl hr.1) ?_
    simp only [next, pure_eq, ok_next, seek]
    split
    next => exact ⟨h.offset, h.size, fun hr => absurd rfl hr.1⟩
    next hpos => exact ⟨Nat.le_of_lt (Nat.lt_of_not_le hpos), h.size, fun hr => absurd rfl hr.1⟩

/-- **In every state of a run the offset is at most the size, no size wraps
around and no assertion fails, exactly if every write of the run that adds
bytes does so at the end of the message**, and none adds bytes from a null
pointer. -/
theorem sound_iff_completes (host : Endian) (as : List Act) :
    Runs.Along (next host) Sound new as ↔ Runs.Meets (next host) Completes new as :=
  Runs.along_iff_meets (D := fun _ _ => True) (fun _ _ h _ => next_iff h _)
    (fun _ _ _ _ _ _ hs => ⟨hs.offset, hs.size⟩) ⟨Nat.le_refl 0, Nat.zero_le _⟩ (Runs.meets_true as)

/-- Memory without end. -/
def plenty : Memory := ⟨fun _ => true, fun _ => 0⟩

/-- A byte, and then another one instead of it. -/
def rewound : List Act :=
  [.write plenty (.item (.bool true) trivial), .rewind, .write plenty (.item (.bool false) trivial)]

theorem rewound_fails : ¬Runs.Along (next .little) Sound new rewound := by
  intro h
  obtain ⟨-, -, h⟩ := h
  exact h

end OutgoingNetworkMessage
