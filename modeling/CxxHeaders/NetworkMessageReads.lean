/-
What a read that fails leaves behind. All but `readSize` put the message back
as it was; `readSize` does so unless the size it read is too large for the
caller's (`restores_iff`).
-/
import CxxHeaders.NetworkMessage

open Outcome EndianMacros SeekableNetworkMessage

namespace IncomingNetworkMessage

variable {m : SeekableNetworkMessage} {host : Endian}

/-- A call that does not return `true` changes nothing, and the offset is
never beyond the end. -/
def Restores {α : Type} (m : SeekableNetworkMessage) (val : α) (r : Read α) : Prop :=
  (r.result ≠ .returned true → r.message = m ∧ r.val = val) ∧ r.message.offset ≤ r.message.size

/-- The size that is read next does not fit. -/
def ReadOp.Overflows (m : SeekableNetworkMessage) : ReadOp → Prop
  | .readSize type max =>
    type.sizeof ≤ m.getRemainingSize ∧ max < Bytes.ofLittle (m.rest.take type.sizeof)
  | _ => False

theorem advance_le {n : Nat} (ho : m.offset ≤ m.size) (h : ¬m.size - m.offset < n) :
    (m.advance n).offset ≤ (m.advance n).size := by
  rw [advance_offset, advance_size]
  omega

theorem yields_read {P : Read (List UInt8) → Prop} {val : List UInt8} :
    (read m val).Yields P ↔ (m.data.isSome → m.offset ≤ m.size →
      if m.size - m.offset < val.length then P ⟨m, val, .returned false⟩
      else P ⟨m.advance val.length, memcpy val m.rest val.length, .returned true⟩) := by
  unfold read
  simp only [yields_bind, yields_asserting]
  refine imp_congr_right fun hd => imp_congr_right fun ho => ?_
  split
  next => simp
  next h =>
    cases val with
    | nil => simp [memcpy, advance]
    | cons b val => simp

theorem restores_read (val : List UInt8) : (read m val).Yields (Restores m val) := by
  rw [yields_read]
  intro hd ho
  split
  next => exact ⟨fun _ => ⟨rfl, rfl⟩, ho⟩
  next h => exact ⟨fun hne => absurd rfl hne, advance_le ho h⟩

theorem restores_readBytes (buffer : List UInt8) (size : Nat) :
    (readBytes m buffer size).Yields (Restores m buffer) := by
  unfold readBytes
  simp only [yields_bind, yields_asserting]
  intro hd ho
  split
  next => exact yields_next.mpr ⟨fun _ => ⟨rfl, rfl⟩, ho⟩
  next h => exact yields_next.mpr ⟨fun hne => absurd rfl hne, advance_le ho h⟩

theorem restores_readArray (data : List UInt8) (sizeof size : Nat) :
    (readArray m data sizeof size).Yields (Restores m data) := by
  unfold readArray
  simp only [yields_bind, yields_asserting]
  intro hd ho
  split
  next => exact yields_next.mpr ⟨fun _ => ⟨rfl, rfl⟩, ho⟩
  next =>
    split
    next => exact yields_next.mpr ⟨fun _ => ⟨rfl, rfl⟩, ho⟩
    next h => exact yields_next.mpr ⟨fun hne => absurd rfl hne, advance_le ho h⟩

theorem restores_readBool (val : Bool) : (readBool m val).Yields (Restores m val) := by
  unfold readBool
  simp only [yields_bind, yields_asserting, yields_read]
  intro hd ho _ _
  split
  next => exact yields_next.mpr ⟨fun _ => ⟨rfl, rfl⟩, ho⟩
  next h =>
    have hle := advance_le ho h
    simp only [ne_eq, not_true_eq_false, if_false]
    split
    next => exact yields_next.mpr ⟨fun hne => absurd rfl hne, hle⟩
    next =>
      split
      next => exact yields_next.mpr ⟨fun hne => absurd rfl hne, hle⟩
      next => exact yields_next.mpr ⟨fun _ => ⟨rfl, rfl⟩, ho⟩

/-- What `readSize` reads does not depend on the host. -/
theorem yields_readSize {P : Read Nat → Prop} {type : UnsignedType} {max size : Nat} :
    (readSize host type max m size).Yields P ↔ (m.data.isSome → m.offset ≤ m.size →
      let rawSize := Bytes.ofLittle (m.rest.take type.sizeof)
      if m.size - m.offset < type.sizeof then P ⟨m, size, .returned false⟩
      else if rawSize ≤ max then P ⟨m.advance type.sizeof, rawSize, .returned true⟩
      else P ⟨m.advance type.sizeof, size, .threw .overflow⟩) := by
  unfold readSize
  simp only [yields_bind, yields_read, List.length_replicate]
  refine imp_congr_right fun hd => imp_congr_right fun ho => ?_
  split
  next => simp
  next h =>
    have hlen : (m.rest.take type.sizeof).length = type.sizeof := by
      simp only [rest, List.length_take, List.length_drop]
      unfold SeekableNetworkMessage.size at h
      omega
    have hval : memcpy (List.replicate type.sizeof 0) m.rest type.sizeof = m.rest.take type.sizeof := by
      simp [memcpy]
    simp only [if_true, hval, sharemindNetToHostOrder_decode hlen]
    split
    next hle => rw [Nat.mod_eq_of_lt (Nat.lt_succ_of_le hle)]; exact yields_next
    next => exact yields_next

theorem restores_readSize_iff {type : UnsignedType} {max : Nat} (size : Nat) (ho : m.offset ≤ m.size) :
    (readSize host type max m size).Yields (Restores m size) ↔ ¬ReadOp.Overflows m (.readSize type max) := by
  have hpos : 0 < type.sizeof := by cases type <;> decide
  rw [yields_readSize, forall_prop_of_true ho]
  simp only [ReadOp.Overflows, getRemainingSize]
  by_cases hd : m.data.isSome
  case neg =>
    have hnone : m.data = none := by simpa using hd
    have hsize : m.size = 0 := by simp [SeekableNetworkMessage.size, bytes, hnone]
    exact iff_of_true (fun h => absurd h hd) fun hover => by omega
  rw [forall_prop_of_true hd]
  split
  next h =>
    have hno : ¬type.sizeof ≤ m.size - m.offset := by omega
    exact iff_of_true ⟨fun _ => ⟨rfl, rfl⟩, ho⟩ fun hover => hno hover.1
  next h =>
    split
    next hle =>
      refine iff_of_true ⟨fun hne => absurd rfl hne, advance_le ho h⟩ fun hover => ?_
      omega
    next hgt =>
      -- The offset has moved although the call throws.
      refine iff_of_false (fun hrestores => ?_) fun hno => hno ⟨by omega, by omega⟩
      have hoffset := congrArg offset (hrestores.1 nofun).1
      rw [advance_offset] at hoffset
      omega

/-- Every length is one of a string. -/
theorem rawSize_le (bs : List UInt8) : Bytes.ofLittle (bs.take UnsignedType.uint64.sizeof) ≤ sizeMax := by
  have hlt := Bytes.ofLittle_lt (bs.take UnsignedType.uint64.sizeof)
  have hlen : 256 ^ (bs.take UnsignedType.uint64.sizeof).length ≤ 256 ^ 8 :=
    Nat.pow_le_pow_right (by decide) (List.length_take_le ..)
  unfold sizeMax
  omega

theorem restores_readString (assigned : Bool) (val : List UInt8) :
    (readString host assigned m val).Yields (Restores m val) := by
  unfold readString
  simp only [yields_bind, yields_asserting, yields_readSize]
  intro hd ho _ _
  split
  next => exact yields_next.mpr ⟨fun _ => ⟨rfl, rfl⟩, ho⟩
  next h =>
    have hle := advance_le ho h
    rw [if_pos (rawSize_le _)]
    simp only [ne_eq, not_true_eq_false, if_false]
    split
    next => exact yields_next.mpr ⟨fun hne => absurd rfl hne, hle⟩
    next =>
      split
      next => exact yields_next.mpr ⟨fun _ => ⟨rfl, rfl⟩, ho⟩
      next hlen =>
        split
        next => exact yields_next.mpr ⟨fun hne => absurd rfl hne, advance_le hle hlen⟩
        next => exact yields_next.mpr ⟨fun _ => ⟨rfl, rfl⟩, ho⟩

/-! ## The offset -/

theorem run_offset_le (m : SeekableNetworkMessage) (op : ReadOp) (val : op.Val) :
    (op.run host m val).Yields fun r => r.message.offset ≤ r.message.size := by
  cases op with
  | readBytes size => exact (restores_readBytes val size).mono fun r hr => hr.2
  | read => exact (restores_read val).mono fun r hr => hr.2
  | readBool => exact (restores_readBool val).mono fun r hr => hr.2
  | readString assigned => exact (restores_readString assigned val).mono fun r hr => hr.2
  | readArray sizeof size => exact (restores_readArray val sizeof size).mono fun r hr => hr.2
  | readSize type max =>
    refine yields_readSize.mpr fun hd ho => ?_
    dsimp only
    split
    next => exact ho
    next h => split <;> exact advance_le ho h

/-- No sequence of operations moves the offset beyond the end. -/
theorem offset_le_size (h : Runs.Reachable (next host) (fun m => ∃ data, m = new data) m) :
    m.offset ≤ m.size := by
  refine Runs.Reachable.yields (I := fun m => m.offset ≤ m.size) ?_ (fun m a hle => ?_) h
  · intro m ⟨data, hm⟩
    rw [hm]
    exact Nat.zero_le _
  · cases a with
    | seek pos =>
      simp only [next, pure_eq, yields_next, seek]
      split
      next => exact hle
      next hpos => exact Nat.le_of_lt (Nat.lt_of_not_le hpos)
    | read op val => exact yields_bind.mpr ((run_offset_le m op val).mono fun r hr => yields_next.mpr hr)

/-! ## All reads -/

/-- **A read that fails leaves everything as it was**, unless it is of a size
that does not fit. -/
theorem restores_iff (ho : m.offset ≤ m.size) (op : ReadOp) (val : op.Val) :
    (op.run host m val).Yields (Restores m val) ↔ ¬op.Overflows m := by
  cases op with
  | readBytes size => exact iff_of_true (restores_readBytes val size) id
  | read => exact iff_of_true (restores_read val) id
  | readBool => exact iff_of_true (restores_readBool val) id
  | readString assigned => exact iff_of_true (restores_readString assigned val) id
  | readArray sizeof size => exact iff_of_true (restores_readArray val sizeof size) id
  | readSize type max => exact restores_readSize_iff val ho

/-- A size of 256, which does not fit into a byte. -/
def tooLarge : SeekableNetworkMessage := new (some [0, 1, 0, 0, 0, 0, 0, 0])

theorem restores_tooLarge : ¬((ReadOp.readSize .uint64 255).run .little tooLarge (0 : Nat)).Yields
    (Restores tooLarge (0 : Nat)) := by
  intro h
  have hoffset := congrArg offset ((h _ rfl).1 nofun).1
  cases hoffset

theorem restores_larger : ((ReadOp.readSize .uint64 65535).run .little tooLarge (0 : Nat)).Yields
    (Restores tooLarge (0 : Nat)) :=
  (restores_iff (Nat.zero_le _) (.readSize .uint64 65535) (0 : Nat)).mpr fun h => by
    have h := h.2
    revert h
    decide

end IncomingNetworkMessage
