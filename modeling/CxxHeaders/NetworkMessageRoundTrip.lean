/-
What is written to a message is read from it again (`round_trip`), whatever
hosts write and read it: `Item.encoding` says what bytes stand for an item, and
mentions no host.
-/
import CxxHeaders.NetworkMessageReads

open Outcome EndianMacros SeekableNetworkMessage

/-! ## What a message consists of -/

/-- What is written, of which type. -/
inductive Item where
  | bool (val : Bool)
  | scalar (val : List UInt8)
  | size (type : UnsignedType) (max n : Nat)
  | array (data : List UInt8) (sizeof n : Nat)
  | sizeAndArray (type : UnsignedType) (max : Nat) (data : List UInt8) (sizeof n : Nat)
  | string (val : List UInt8)
  | chars (val : List UInt8)

/-- What the reader knows. -/
inductive Schema where
  | bool
  | scalar (sizeof : Nat)
  | size (type : UnsignedType) (max : Nat)
  | array (sizeof n : Nat)
  | sizeAndArray (type : UnsignedType) (max sizeof : Nat)
  | string

inductive Value where
  | bool (val : Bool)
  | bytes (val : List UInt8)
  | size (n : Nat)
  | array (n : Nat) (data : List UInt8)
  deriving DecidableEq

namespace Item

def schema : Item → Schema
  | .bool _ => .bool
  | .scalar val => .scalar val.length
  | .size type max _ => .size type max
  | .array _ sizeof n => .array sizeof n
  | .sizeAndArray type max _ sizeof _ => .sizeAndArray type max sizeof
  | .string _ => .string
  | .chars _ => .string

def value : Item → Value
  | .bool val => .bool val
  | .scalar val => .bytes val
  | .size _ _ n => .size n
  | .array data _ n => .array n data
  | .sizeAndArray _ _ data _ n => .array n data
  | .string val => .bytes val
  | .chars val => .bytes val

/-- What the types say: a size is one of its type, whose values the serialized
type has too (`static_assert`); an array has that many elements, none of which
is empty; and the length of a string is a `std::size_t`. -/
def Typed : Item → Prop
  | .size type max n => n ≤ max ∧ max < 256 ^ type.sizeof
  | .array data sizeof n => 0 < sizeof ∧ data.length = sizeof * n
  | .sizeAndArray type max data sizeof n =>
    n ≤ max ∧ max < 256 ^ type.sizeof ∧ 0 < sizeof ∧ data.length = sizeof * n
  | .string val => val.length ≤ sizeMax
  | .chars val => val.length ≤ sizeMax
  | _ => True

/-- Sizes have their lowest byte first. -/
def encoding : Item → List UInt8
  | .bool val => [if val then 1 else 0]
  | .scalar val => val
  | .size type _ n => Bytes.little type.sizeof n
  | .array data _ _ => data
  | .sizeAndArray type _ data _ n => Bytes.little type.sizeof n ++ data
  | .string val => Bytes.little 8 val.length ++ val
  | .chars val => Bytes.little 8 val.length ++ val

end Item

/-! ## Writing -/

namespace OutgoingNetworkMessage

def writeItem (memory : Memory) (host : Endian) (m : SeekableNetworkMessage) : Item → Except Fault SeekableNetworkMessage
  | .bool val => writeBool memory m val
  | .scalar val => write memory m val
  | .size type _ n => writeSize memory host type m n
  | .array data sizeof n => writeArray memory m (some data) sizeof n
  | .sizeAndArray type _ data sizeof n => writeSizeAndArray memory host type m (some data) sizeof n
  | .string val => writeString memory host m val
  | .chars val => writeChars memory host m (some val) val.length

/-- Everything written so far is in front of the offset. -/
structure Complete (m : SeekableNetworkMessage) : Prop where
  offset : m.offset = m.size
  size : m.size ≤ sizeMax

/-- A write throws, or appends the bytes. -/
def Appends (m : SeekableNetworkMessage) (bs : List UInt8) (x : Except Fault SeekableNetworkMessage) : Prop :=
  x = .error .messageLengthError ∨ x = .error .badAlloc ∨
    ∃ m', x = .ok m' ∧ m'.bytes = m.bytes ++ bs ∧ Complete m'

variable {memory : Memory} {host : Endian} {m : SeekableNetworkMessage} {bs : List UInt8}

theorem Appends.nil (h : Complete m) : Appends m [] (.ok m) := .inr (.inr ⟨m, rfl, by simp, h⟩)

theorem assert_true {p : Prop} {_ : Decidable p} (h : p) : assert p = .ok () := by
  simp [assert, h]

@[simp] theorem ok_bind {α β : Type} (a : α) (f : α → Except Fault β) : (Except.ok a >>= f) = f a := rfl

/-- `realloc` keeps what there was. -/
theorem addBytes_eq (h : Complete m) {n : Nat} (hn : 0 < n) (hle : n ≤ sizeMax - m.offset) :
    addBytes memory m n = .error .badAlloc ∨
      ∃ fresh : List UInt8, fresh.length = n ∧
        addBytes memory m n = .ok ⟨some (m.bytes ++ fresh), m.bytes.length⟩ := by
  have hsize : (m.size + n) % (sizeMax + 1) = m.size + n := by
    have := h.offset
    have := h.size
    exact Nat.mod_eq_of_lt (by omega)
  unfold addBytes
  rw [assert_true hn, assert_true hle, assert_true h.offset.symm]
  simp only [ok_bind, hsize]
  split
  next =>
    refine .inr ⟨(List.range n).map fun i => memory.garbage (m.size + i), by simp, ?_⟩
    have hkept : (List.range m.size).map (fun i => m.bytes.getD i (memory.garbage i)) = m.bytes := by
      refine List.ext_getElem (by simp [SeekableNetworkMessage.size]) fun i hi hi' => ?_
      simp [hi']
    have hfresh : (List.range n).map (fun i => m.bytes.getD (m.size + i) (memory.garbage (m.size + i))) =
        (List.range n).map fun i => memory.garbage (m.size + i) :=
      List.map_congr_left fun i _ => by simp [SeekableNetworkMessage.size]
    have hdata : (List.range (m.size + n)).map (fun i => m.bytes.getD i (memory.garbage i)) =
        m.bytes ++ (List.range n).map fun i => memory.garbage (m.size + i) := by
      rw [List.range_add, List.map_append, hkept, List.map_map]
      exact congrArg (m.bytes ++ ·) hfresh
    rw [hdata, h.offset]
    rfl
  next => exact .inl rfl

theorem pokeBytes_eq {done fresh : List UInt8} (h : bs.length ≤ fresh.length) :
    pokeBytes ⟨some (done ++ fresh), done.length⟩ (some bs) bs.length =
      .ok ⟨some (done ++ bs ++ fresh.drop bs.length), (done ++ bs).length⟩ := by
  have hle : bs.length ≤ size ⟨some (done ++ fresh), done.length⟩ - done.length := by
    simp [SeekableNetworkMessage.size, bytes, h]
  unfold pokeBytes
  rw [assert_true (.inl rfl), assert_true hle]
  simp [advance, memcpy]

theorem complete_append {done : List UInt8} (h : (done ++ bs).length ≤ sizeMax) :
    Complete ⟨some (done ++ bs), (done ++ bs).length⟩ := ⟨rfl, h⟩

/-- Room for the bytes, and then these. -/
theorem appends_poke (h : Complete m) (hpos : 0 < bs.length) (hle : bs.length ≤ sizeMax - m.offset) :
    Appends m bs (addBytes memory m bs.length >>= fun m => pokeBytes m (some bs) bs.length) := by
  rcases addBytes_eq h hpos hle with hadd | ⟨fresh, hfresh, hadd⟩ <;> rw [hadd]
  · exact .inr (.inl rfl)
  · have hnil : fresh.drop bs.length = [] := List.drop_eq_nil_of_le (by omega)
    rw [ok_bind, pokeBytes_eq (by omega), hnil, List.append_nil]
    refine .inr (.inr ⟨_, rfl, rfl, complete_append ?_⟩)
    have := h.offset
    have := h.size
    unfold SeekableNetworkMessage.size at *
    rw [List.length_append]
    omega

/-- The same in two parts. -/
theorem appends_poke_poke (h : Complete m) {as : List UInt8} (hpos : 0 < as.length + bs.length)
    (hle : as.length + bs.length ≤ sizeMax - m.offset) :
    Appends m (as ++ bs) (addBytes memory m (as.length + bs.length) >>= fun m =>
      pokeBytes m (some as) as.length >>= fun m => pokeBytes m (some bs) bs.length) := by
  rcases addBytes_eq h hpos hle with hadd | ⟨fresh, hfresh, hadd⟩ <;> rw [hadd]
  · exact .inr (.inl rfl)
  · have hnil : (fresh.drop as.length).drop bs.length = [] :=
      List.drop_eq_nil_of_le (by rw [List.length_drop]; omega)
    rw [ok_bind, pokeBytes_eq (by omega), ok_bind, pokeBytes_eq (by rw [List.length_drop]; omega),
      hnil, List.append_nil,
      List.append_assoc]
    refine .inr (.inr ⟨_, rfl, rfl, complete_append ?_⟩)
    have := h.offset
    have := h.size
    unfold SeekableNetworkMessage.size at *
    rw [List.length_append, List.length_append]
    omega

theorem writeBytes_appends (h : Complete m) (bs : List UInt8) :
    Appends m bs (writeBytes memory m (some bs) bs.length) := by
  unfold writeBytes
  split
  next hnil =>
    rw [List.eq_nil_of_length_eq_zero hnil]
    exact .nil h
  next hnil =>
    split
    next => exact .inl rfl
    next hle => exact appends_poke h (by omega) (Nat.le_of_not_lt hle)

theorem writeSize_appends (h : Complete m) {type : UnsignedType} {n : Nat} (hn : n < 256 ^ type.sizeof) :
    Appends m (Bytes.little type.sizeof n) (writeSize memory host type m n) := by
  unfold writeSize write
  dsimp only
  rw [Nat.mod_eq_of_lt hn, encode_hostToSharemindNetOrder]
  exact writeBytes_appends h _

/-- The division rounds down, so that the product does not overflow. -/
theorem mul_eq_length {data : List UInt8} {sizeof n left : Nat} (hpos : 0 < sizeof)
    (hlen : data.length = sizeof * n)
    (h : ¬left / sizeof < n) (hleft : left ≤ sizeMax) :
    n * sizeof % (sizeMax + 1) = data.length ∧ data.length ≤ left := by
  have hle : n * sizeof ≤ left := (Nat.le_div_iff_mul_le hpos).mp (Nat.le_of_not_lt h)
  have hlen : n * sizeof = data.length := by rw [hlen, Nat.mul_comm]
  rw [Nat.mod_eq_of_lt (by omega)]
  omega

theorem writeArray_appends (h : Complete m) {data : List UInt8} {sizeof n : Nat} (hpos : 0 < sizeof)
    (hlen : data.length = sizeof * n) : Appends m data (writeArray memory m (some data) sizeof n) := by
  unfold writeArray
  dsimp only
  split
  next hn =>
    have hnil : data = [] :=
      List.eq_nil_of_length_eq_zero (by rw [hlen, Nat.le_zero.mp hn, Nat.mul_zero])
    rw [hnil]
    exact .nil h
  next hn =>
    split
    next => exact .inl rfl
    next hfit =>
      obtain ⟨hmul, hle⟩ := mul_eq_length hpos hlen hfit (Nat.sub_le ..)
      have hn : 0 < sizeof * n := Nat.mul_pos hpos (by omega)
      rw [hmul]
      exact appends_poke h (by omega) hle

theorem writeSizeAndArray_appends (h : Complete m) (type : UnsignedType) {data : List UInt8}
    {sizeof n : Nat}
    (hn : n < 256 ^ type.sizeof) (hpos : 0 < sizeof) (hlen : data.length = sizeof * n) :
    Appends m (Bytes.little type.sizeof n ++ data)
      (writeSizeAndArray memory host type m (some data) sizeof n) := by
  unfold writeSizeAndArray
  dsimp only
  split
  next hn' =>
    have hnil : data = [] :=
      List.eq_nil_of_length_eq_zero (by rw [hlen, Nat.le_zero.mp hn', Nat.mul_zero])
    rw [hnil, List.append_nil]
    exact writeSize_appends h hn
  next =>
    split
    next => exact .inl rfl
    next hleft =>
      split
      next => exact .inl rfl
      next hfit =>
        unfold spaceLeft at hleft hfit
        obtain ⟨hmul, hle⟩ := mul_eq_length hpos hlen hfit (by omega)
        have hsizeof : 0 < type.sizeof := by cases type <;> decide
        have hsum : (type.sizeof + data.length) % (sizeMax + 1) =
            (Bytes.little type.sizeof n).length + data.length := by
          rw [Bytes.length_little, Nat.mod_eq_of_lt (by omega)]
        rw [hmul, hsum, Nat.mod_eq_of_lt hn, encode_hostToSharemindNetOrder]
        have hpoke := @appends_poke_poke memory m data h (Bytes.little type.sizeof n)
          (by rw [Bytes.length_little]; omega) (by rw [Bytes.length_little]; omega)
        rwa [Bytes.length_little] at hpoke ⊢

theorem writeString_appends (h : Complete m) {val : List UInt8} (hlen : val.length ≤ sizeMax) :
    Appends m (Bytes.little 8 val.length ++ val) (writeString memory host m val) := by
  have hlt : val.length < 256 ^ 8 := by
    unfold sizeMax at hlen
    omega
  exact writeSizeAndArray_appends h .uint64 hlt Nat.one_pos (Nat.one_mul _).symm

/-- Every write appends the bytes that stand for the item. -/
theorem writeItem_appends (h : Complete m) {item : Item} (ht : item.Typed) :
    Appends m item.encoding (writeItem memory host m item) := by
  cases item with
  | bool val => exact writeBytes_appends h _
  | scalar val => exact writeBytes_appends h _
  | size type max n => exact writeSize_appends h (Nat.lt_of_le_of_lt ht.1 ht.2)
  | array data sizeof n => exact writeArray_appends h ht.1 ht.2
  | sizeAndArray type max data sizeof n =>
    obtain ⟨hn, hmax, hpos, hlen⟩ := ht
    exact writeSizeAndArray_appends h type (Nat.lt_of_le_of_lt hn hmax) hpos hlen
  | string val => exact writeString_appends h ht
  | chars val => exact writeString_appends h ht

def writeItems (memory : Memory) (host : Endian) (m : SeekableNetworkMessage) :
    List Item → Except Fault SeekableNetworkMessage
  | [] => .ok m
  | item :: items => do writeItems memory host (← writeItem memory host m item) items

theorem writeItems_appends (memory : Memory) (host : Endian) (h : Complete m) {items : List Item}
    (ht : ∀ item ∈ items, item.Typed) :
    Appends m (items.flatMap Item.encoding) (writeItems memory host m items) := by
  induction items generalizing m with
  | nil => exact .nil h
  | cons item items ih =>
    unfold writeItems
    rcases writeItem_appends h (ht item List.mem_cons_self) with hx | hx | ⟨m', hx, hbytes, h'⟩ <;> rw [hx]
    · exact .inl rfl
    · exact .inr (.inl rfl)
    · have hrest := ih h' fun item hi => ht item (List.mem_cons_of_mem _ hi)
      unfold Appends at hrest ⊢
      rwa [hbytes, List.append_assoc] at hrest

end OutgoingNetworkMessage

/-! ## Reading -/

namespace IncomingNetworkMessage

/-- The reads of an item, into new objects that there is memory for, and its
value if they succeed. -/
def readItem (host : Endian) (m : SeekableNetworkMessage) : Schema → Outcome (SeekableNetworkMessage × Option Value)
  | .bool => do
    let ⟨m, val, result⟩ ← readBool m false
    return (m, if result = .returned true then some (.bool val) else none)
  | .scalar sizeof => do
    let ⟨m, val, result⟩ ← read m (List.replicate sizeof 0)
    return (m, if result = .returned true then some (.bytes val) else none)
  | .size type max => do
    let ⟨m, n, result⟩ ← readSize host type max m 0
    return (m, if result = .returned true then some (.size n) else none)
  | .array sizeof n => do
    let ⟨m, data, result⟩ ← readArray m (List.replicate (sizeof * n) 0) sizeof n
    return (m, if result = .returned true then some (.array n data) else none)
  | .sizeAndArray type max sizeof => do
    let ⟨m, n, result⟩ ← readSize host type max m 0
    if result = .returned true then
      let ⟨m, data, result⟩ ← readArray m (List.replicate (sizeof * n) 0) sizeof n
      return (m, if result = .returned true then some (.array n data) else none)
    else return (m, none)
  | .string => do
    let ⟨m, val, result⟩ ← readString host true m []
    return (m, if result = .returned true then some (.bytes val) else none)

def readItems (host : Endian) (m : SeekableNetworkMessage) :
    List Schema → Outcome (SeekableNetworkMessage × List (Option Value))
  | [] => return (m, [])
  | schema :: schemas => do
    let (m, val) ← readItem host m schema
    let (m, vals) ← readItems host m schemas
    return (m, val :: vals)

/-- What is left to be read. -/
structure Left (m : SeekableNetworkMessage) (bs : List UInt8) : Prop where
  data : m.data.isSome
  offset : m.offset ≤ m.size
  size : m.size ≤ sizeMax
  rest : m.rest = bs

variable {m : SeekableNetworkMessage} {host : Endian} {bs left : List UInt8}

theorem Left.le (h : Left m (bs ++ left)) : bs.length ≤ m.size - m.offset := by
  have hlen := congrArg List.length h.rest
  simp only [SeekableNetworkMessage.rest, List.length_drop, List.length_append] at hlen
  unfold SeekableNetworkMessage.size
  omega

theorem Left.advance (h : Left m (bs ++ left)) : Left (m.advance bs.length) left := by
  have hle := h.le
  have := h.offset
  refine ⟨h.data, by rw [advance_offset, advance_size]; omega, h.size, ?_⟩
  have hrest := h.rest
  unfold SeekableNetworkMessage.rest at hrest ⊢
  rw [advance_offset, advance_bytes, ← List.drop_drop, hrest, List.drop_left]

theorem Left.memcpy_eq (h : Left m (bs ++ left)) {val : List UInt8} (hlen : val.length = bs.length) :
    memcpy val m.rest bs.length = bs := by
  unfold memcpy
  rw [h.rest, List.take_left, ← hlen, List.drop_length, List.append_nil]

theorem Left.read_eq (h : Left m (bs ++ left)) {val : List UInt8} (hlen : val.length = bs.length) :
    read m val = .next ⟨m.advance bs.length, bs, .returned true⟩ := by
  have hle : ¬m.size - m.offset < bs.length := Nat.not_lt.mpr h.le
  unfold read
  rw [asserting_true h.data, asserting_true h.offset, hlen]
  simp only [next_bind, if_neg hle, h.memcpy_eq hlen, pure_eq]
  cases bs with
  | nil => simp [List.eq_nil_of_length_eq_zero hlen]
  | cons b bs => simp

theorem Left.readBool_eq {val : Bool} (h : Left m ([if val then 1 else 0] ++ left)) (old : Bool) :
    readBool m old = .next ⟨m.advance 1, val, .returned true⟩ := by
  have hread : read m [0] = .next ⟨m.advance 1, [if val then 1 else 0], .returned true⟩ := h.read_eq rfl
  unfold readBool
  rw [asserting_true h.data, asserting_true h.offset]
  simp only [next_bind, hread]
  cases val <;> rfl

theorem Left.readSize_eq {type : UnsignedType} {n max : Nat}
    (h : Left m (Bytes.little type.sizeof n ++ left))
    (hn : n ≤ max) (hmax : max < 256 ^ type.sizeof) (old : Nat) :
    readSize host type max m old = .next ⟨m.advance type.sizeof, n, .returned true⟩ := by
  unfold readSize
  rw [h.read_eq (by simp)]
  have hraw : sharemindNetToHostOrder host type (Bytes.decode host (Bytes.little type.sizeof n)) = n := by
    rw [sharemindNetToHostOrder_decode Bytes.length_little, Bytes.ofLittle_little (by omega)]
  simp only [next_bind, if_true, hraw, if_pos hn, Nat.mod_eq_of_lt (Nat.lt_succ_of_le hn),
    Bytes.length_little, pure_eq]

theorem Left.readArray_eq {sizeof n : Nat} (h : Left m (bs ++ left)) (hpos : 0 < sizeof)
    (hlen : bs.length = sizeof * n)
    {data : List UInt8} (hdata : data.length = bs.length) :
    readArray m data sizeof n = .next ⟨m.advance bs.length, bs, .returned true⟩ := by
  have hle := h.le
  have hmax : bs.length ≤ sizeMax := by
    have := h.size
    omega
  have hn : ¬sizeMax / sizeof < n := by
    rw [Nat.not_lt, Nat.le_div_iff_mul_le hpos, Nat.mul_comm, ← hlen]
    exact hmax
  have hmod : sizeof * n % (sizeMax + 1) = bs.length := by rw [← hlen, Nat.mod_eq_of_lt (by omega)]
  unfold readArray getRemainingSize
  rw [asserting_true h.data, asserting_true h.offset]
  simp only [next_bind, if_neg hn, hmod, if_neg (Nat.not_lt.mpr hle), h.memcpy_eq hdata, pure_eq]

theorem Left.readString_eq (h : Left m (Bytes.little 8 bs.length ++ bs ++ left)) (old : List UInt8) :
    readString host true m old = .next ⟨m.advance (8 + bs.length), bs, .returned true⟩ := by
  rw [List.append_assoc] at h
  have h' := h.advance
  rw [Bytes.length_little] at h'
  have hle := h'.le
  have hmax : bs.length ≤ sizeMax := by
    have := h'.size
    omega
  have hsize : readSize host .uint64 sizeMax m 0 = .next ⟨m.advance 8, bs.length, .returned true⟩ :=
    Left.readSize_eq h hmax (by decide) 0
  unfold readString
  rw [asserting_true h.data, asserting_true h.offset]
  simp only [next_bind, hsize, ne_eq, not_true_eq_false, if_false, if_neg (Nat.not_lt.mpr hle),
    if_true, h'.rest,
    List.take_left, pure_eq]
  split
  next hnil =>
    have hnil : bs = [] := List.eq_nil_of_length_eq_zero (Nat.le_zero.mp hnil)
    rw [hnil]
    rfl
  next => rw [advance_advance]

/-- The item that was written is read. -/
theorem Left.readItem_eq {item : Item} (ht : item.Typed) (h : Left m (item.encoding ++ left)) :
    readItem host m item.schema = .next (m.advance item.encoding.length, some item.value) := by
  cases item with
  | bool val =>
    simp only [readItem, Item.schema, h.readBool_eq]
    rfl
  | scalar val =>
    simp only [readItem, Item.schema]
    rw [h.read_eq (by simp [Item.encoding])]
    rfl
  | size type max n =>
    simp only [readItem, Item.schema, h.readSize_eq ht.1 ht.2, Item.encoding, Bytes.length_little]
    rfl
  | array data sizeof n =>
    simp only [readItem, Item.schema]
    rw [h.readArray_eq ht.1 ht.2 (by simp [Item.encoding, ht.2])]
    rfl
  | sizeAndArray type max data sizeof n =>
    obtain ⟨hn, hmax, hpos, hlen⟩ := ht
    have h : Left m (Bytes.little type.sizeof n ++ (data ++ left)) := by
      rw [← List.append_assoc]
      exact h
    have h' := h.advance
    rw [Bytes.length_little] at h'
    simp only [readItem, Item.schema, h.readSize_eq hn hmax, next_bind, if_true]
    rw [h'.readArray_eq hpos hlen (by simp [hlen])]
    simp [Item.encoding, Item.value]
  | string val =>
    simp only [readItem, Item.schema, h.readString_eq]
    simp [Item.encoding, Item.value]
  | chars val =>
    simp only [readItem, Item.schema, h.readString_eq]
    simp [Item.encoding, Item.value]

theorem Left.readItems_eq {items : List Item} (ht : ∀ item ∈ items, item.Typed)
    (h : Left m (items.flatMap Item.encoding ++ left)) :
    readItems host m (items.map Item.schema) =
      .next (m.advance (items.flatMap Item.encoding).length, items.map fun item => some item.value) := by
  induction items generalizing m with
  | nil => rfl
  | cons item items ih =>
    have h : Left m (item.encoding ++ (items.flatMap Item.encoding ++ left)) := by
      rw [← List.append_assoc]
      exact h
    have hrest := ih (fun i hi => ht i (List.mem_cons_of_mem _ hi)) h.advance
    simp only [List.map_cons, readItems, h.readItem_eq (ht item List.mem_cons_self), next_bind, hrest]
    simp

end IncomingNetworkMessage

/-! ## There and back -/

namespace NetworkMessage

open OutgoingNetworkMessage IncomingNetworkMessage

/-- **What is written is read**, on hosts of whatever kind. If no write throws,
the message is the items' bytes, and reading them returns every value in order
and ends at the end of the message. -/
theorem round_trip (memory : Memory) (writer reader : Endian) {items : List Item}
    (ht : ∀ item ∈ items, item.Typed) :
    writeItems memory writer OutgoingNetworkMessage.new items ≠ .error .assertion ∧
      ∀ m, writeItems memory writer OutgoingNetworkMessage.new items = .ok m → 0 < m.size →
        m.bytes = items.flatMap Item.encoding ∧
          ∃ m', readItems reader (IncomingNetworkMessage.new m.data) (items.map Item.schema) =
            .next (m', items.map fun item => some item.value) ∧ m'.offset = m'.size := by
  have hnew : Complete OutgoingNetworkMessage.new := ⟨rfl, Nat.zero_le _⟩
  rcases writeItems_appends memory writer hnew ht with hx | hx | ⟨m, hx, hbytes, hm⟩ <;> rw [hx]
  · exact ⟨nofun, nofun⟩
  · exact ⟨nofun, nofun⟩
  refine ⟨nofun, fun m' hm' hpos => ?_⟩
  cases hm'
  have hbytes : m.bytes = items.flatMap Item.encoding := hbytes
  have hdata : m.data.isSome := by
    unfold SeekableNetworkMessage.size bytes at hpos
    cases hd : m.data with
    | none => simp [hd] at hpos
    | some data => rfl
  have hleft : Left (IncomingNetworkMessage.new m.data) (items.flatMap Item.encoding ++ []) :=
    ⟨hdata, Nat.zero_le _, hm.size, by rw [List.append_nil, ← hbytes]; rfl⟩
  refine ⟨hbytes, _, hleft.readItems_eq ht, ?_⟩
  rw [advance_offset, advance_size, ← hbytes]
  exact Nat.zero_add _

/-- A size, a string with a null character and an empty array. -/
def someItems : List Item := [.size .uint16 255 3, .bool true, .string [104, 0], .sizeAndArray .uint8 255 [] 4 0]

theorem round_trip_someItems :
    ∃ m m', writeItems ⟨fun _ => true, fun _ => 0⟩ .big OutgoingNetworkMessage.new someItems = .ok m ∧
    readItems .little (IncomingNetworkMessage.new m.data) (someItems.map Item.schema) =
      .next (m', [some (.size 3), some (.bool true), some (.bytes [104, 0]), some (.array 0 [])]) ∧
    m'.offset = m'.size := by
  have ht : ∀ item ∈ someItems, item.Typed := by
    simp [someItems, Item.Typed, UnsignedType.sizeof, sizeMax]
  obtain ⟨-, h⟩ := round_trip ⟨fun _ => true, fun _ => 0⟩ .big .little ht
  obtain ⟨-, m', hread, hoffset⟩ :=
    h ⟨some [3, 0, 1, 2, 0, 0, 0, 0, 0, 0, 0, 104, 0, 0], 14⟩ rfl (by decide)
  exact ⟨_, m', rfl, hread, hoffset⟩

end NetworkMessage
