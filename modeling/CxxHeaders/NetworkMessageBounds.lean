/-
Reading beyond the end of a message. Every read reports it, and no read fails
an assertion, unless the message has no data: a message of size 0 may be made
of a null pointer, which every read asserts against (`reads_iff`).
-/
import CxxHeaders.NetworkMessageReads

open Outcome EndianMacros SeekableNetworkMessage

namespace IncomingNetworkMessage

/-- How many bytes the read is of, those of a string included. -/
def ReadOp.wanted (m : SeekableNetworkMessage) : (op : ReadOp) → op.Val → Nat
  | .readBytes size, _ => size
  | .read, (val : List UInt8) => val.length
  | .readBool, _ => 1
  | .readString _, _ => if m.getRemainingSize < 8 then 8 else 8 + Bytes.ofLittle (m.rest.take 8)
  | .readSize type _, _ => type.sizeof
  | .readArray sizeof size, _ => sizeof * size

/-- A read of more than is left of the message returns `false`. -/
def Reported (host : Endian) (m : SeekableNetworkMessage) (a : Act) (_ : SeekableNetworkMessage) : Prop :=
  ∀ op val, a = .read op val → m.getRemainingSize < op.wanted m val →
    (op.run host m val).Yields fun r => r.result = .returned false

/-- A message that is not null, between any two operations. -/
structure Readable (m : SeekableNetworkMessage) : Prop where
  data : m.data.isSome
  offset : m.offset ≤ m.size

variable {m : SeekableNetworkMessage} {host : Endian}

/-! ## Reads -/

theorem read_ends (h : Readable m) (val : List UInt8) :
    (read m val).Returns fun r => r.message.data = m.data := by
  unfold read
  rw [asserting_true h.data, asserting_true h.offset]
  simp only [next_bind]
  split
  next => rfl
  next => split <;> rfl

theorem readBool_ends (h : Readable m) (val : Bool) :
    (readBool m val).Returns fun r => r.message.data = m.data := by
  unfold readBool
  rw [asserting_true h.data, asserting_true h.offset]
  simp only [next_bind, returns_bind]
  refine (read_ends h [0]).mono fun r hr => ?_
  split
  next => exact hr
  next =>
    split
    next => exact hr
    next => split <;> exact hr

theorem readSize_ends (h : Readable m) (type : UnsignedType) (max size : Nat) :
    (readSize host type max m size).Returns fun r => r.message.data = m.data := by
  unfold readSize
  simp only [returns_bind]
  refine (read_ends h _).mono fun r hr => ?_
  split
  next => split <;> exact hr
  next => exact hr

theorem readString_ends (h : Readable m) (assigned : Bool) (val : List UInt8) :
    (readString host assigned m val).Returns fun r => r.message.data = m.data := by
  unfold readString
  rw [asserting_true h.data, asserting_true h.offset]
  simp only [next_bind, returns_bind]
  refine (readSize_ends h _ _ _).mono fun r hr => ?_
  split
  next => exact hr
  next =>
    split
    next => exact hr
    next =>
      split
      next => exact hr
      next => split <;> exact hr

/-- Every read ends, and leaves the bytes of the message alone. -/
theorem run_ends (host : Endian) (h : Readable m) (op : ReadOp) (val : op.Val) :
    (op.run host m val).Returns fun r => r.message.data = m.data := by
  cases op with
  | read => exact read_ends h val
  | readBool => exact readBool_ends h val
  | readString assigned => exact readString_ends h assigned val
  | readSize type max => exact readSize_ends h type max val
  | readBytes size =>
    simp only [ReadOp.run, readBytes]
    rw [asserting_true h.data, asserting_true h.offset]
    simp only [next_bind]
    split <;> rfl
  | readArray sizeof size =>
    simp only [ReadOp.run, readArray]
    rw [asserting_true h.data, asserting_true h.offset]
    simp only [next_bind]
    split
    next => rfl
    next => split <;> rfl

theorem readBytes_reports (buffer : List UInt8) {size : Nat} (hw : m.getRemainingSize < size) :
    (readBytes m buffer size).Yields fun r => r.result = .returned false := by
  unfold readBytes
  simp only [yields_bind, yields_asserting]
  intro _ _
  rw [if_pos (by exact hw)]
  exact yields_next.mpr rfl

theorem readBool_reports (val : Bool) (hw : m.getRemainingSize < 1) :
    (readBool m val).Yields fun r => r.result = .returned false := by
  unfold readBool
  simp only [yields_bind, yields_asserting, yields_read]
  intro _ _ _ _
  rw [if_pos (by exact hw)]
  exact yields_next.mpr rfl

/-- A product that wraps around is found out before it is used. -/
theorem readArray_reports (data : List UInt8) {sizeof size : Nat} (hw : m.getRemainingSize < sizeof * size) :
    (readArray m data sizeof size).Yields fun r => r.result = .returned false := by
  unfold readArray
  simp only [yields_bind, yields_asserting]
  intro _ _
  split
  next => exact yields_next.mpr rfl
  next hfit =>
    have hpos : 0 < sizeof := Nat.pos_of_ne_zero fun he => by simp [he] at hw
    have hle : size * sizeof ≤ sizeMax := (Nat.le_div_iff_mul_le hpos).mp (Nat.le_of_not_lt hfit)
    have hmod : sizeof * size % (sizeMax + 1) = sizeof * size :=
      Nat.mod_eq_of_lt (by rw [Nat.mul_comm]; omega)
    rw [hmod, if_pos hw]
    exact yields_next.mpr rfl

theorem readString_reports (assigned : Bool) (val : List UInt8)
    (hw : m.getRemainingSize < ReadOp.wanted m (.readString assigned) val) :
    (readString host assigned m val).Yields fun r => r.result = .returned false := by
  unfold readString
  simp only [yields_bind, yields_asserting, yields_readSize]
  intro _ _ _ _
  split
  next => exact yields_next.mpr rfl
  next hsize =>
    have hlong : m.size - (m.offset + 8) < Bytes.ofLittle (m.rest.take 8) := by
      simp only [ReadOp.wanted] at hw
      rw [if_neg (by exact hsize)] at hw
      simp only [getRemainingSize, UnsignedType.sizeof] at hw hsize
      omega
    rw [if_pos (rawSize_le _)]
    simp only [ne_eq, not_true_eq_false, if_false]
    split
    next hzero =>
      simp only [UnsignedType.sizeof] at hzero
      omega
    next =>
      rw [if_pos (by exact hlong)]
      exact yields_next.mpr rfl

theorem run_reports (m : SeekableNetworkMessage) (op : ReadOp) (val : op.Val)
    (hw : m.getRemainingSize < op.wanted m val) :
    (op.run host m val).Yields fun r => r.result = .returned false := by
  cases op with
  | readString assigned => exact readString_reports assigned val hw
  | readArray sizeof size => exact readArray_reports val hw
  | read =>
    refine yields_read.mpr fun _ _ => ?_
    rw [if_pos (by exact hw)]
  | readSize type max =>
    refine yields_readSize.mpr fun _ _ => ?_
    dsimp only
    rw [if_pos (by exact hw)]
  | readBool => exact readBool_reports val hw
  | readBytes size => exact readBytes_reports val hw

/-! ## Runs -/

theorem seek_ne_read (pos : Nat) (op : ReadOp) (val : op.Val) : Act.seek pos ≠ .read op val := nofun

theorem reported_seek (m' : SeekableNetworkMessage) (pos : Nat) : Reported host m (.seek pos) m' := nofun

theorem next_ok (h : Readable m) (a : Act) :
    (next host m a).Ok fun m' => Reported host m a m' ∧ Readable m' := by
  cases a with
  | seek pos =>
    simp only [next, pure_eq, ok_next, seek]
    split
    next => exact ⟨reported_seek m pos, h⟩
    next hpos => exact ⟨reported_seek _ pos, h.data, Nat.le_of_lt (Nat.lt_of_not_le hpos)⟩
  | read op val =>
    obtain ⟨r, hr, hdata⟩ := (run_ends host h op val).exists
    have hle : r.message.offset ≤ r.message.size := run_offset_le m op val r hr
    simp only [next, hr, next_bind, pure_eq, ok_next]
    refine ⟨fun op' val' he hw => ?_, by rw [hdata]; exact h.data, hle⟩
    cases he
    exact run_reports m op val hw

/-- A null pointer. -/
theorem read_fails (h : m.data = none) (op : ReadOp) (val : op.Val) : op.run host m val = .failed := by
  have hnone : asserting (m.data.isSome = true) = .failed := if_neg (by simp [h])
  have hread : ∀ val, IncomingNetworkMessage.read m val = .failed := by
    intro val
    unfold IncomingNetworkMessage.read
    rw [hnone]
    rfl
  cases op with
  | read => exact hread val
  | readSize type max =>
    show readSize host type max m val = .failed
    unfold readSize
    rw [hread]
    rfl
  | readBytes size =>
    show readBytes m val size = .failed
    unfold readBytes
    rw [hnone]
    rfl
  | readBool =>
    show readBool m val = .failed
    unfold readBool
    rw [hnone]
    rfl
  | readString assigned =>
    show readString host assigned m val = .failed
    unfold readString
    rw [hnone]
    rfl
  | readArray sizeof size =>
    show readArray m val sizeof size = .failed
    unfold readArray
    rw [hnone]
    rfl

/-- Seeking is all that can be done with it. -/
theorem along_null (h : m = new none) (as : List Act) :
    Runs.Along (next host) (Reported host) m as ↔ ∀ a ∈ as, ∀ op val, a ≠ .read op val := by
  induction as with
  | nil => exact iff_of_true trivial (List.forall_mem_nil _)
  | cons a as ih =>
    cases a with
    | read op val =>
      have hfail : next host m (.read op val) = .failed := by
        simp [next, read_fails (m := m) (by rw [h]; rfl)]
      simp only [Runs.Along, hfail, ok_failed, false_iff]
      exact fun hall => hall _ List.mem_cons_self op val rfl
    | seek pos =>
      have hseek : (m.seek pos).1 = m := by rw [h]; rfl
      simp only [Runs.Along, next, pure_eq, ok_next, hseek, ih, List.forall_mem_cons]
      exact ⟨fun hall => ⟨seek_ne_read pos, hall.2⟩, fun hall => ⟨reported_seek m pos, hall.2⟩⟩

/-- **No assertion fails in any sequence of reads, and reads past the end
return `false`, exactly if the message is not null or nothing is read.** -/
theorem reads_iff (host : Endian) (data : Option (List UInt8)) (as : List Act) :
    Runs.Along (next host) (Reported host) (new data) as ↔
      data ≠ none ∨ ∀ a ∈ as, ∀ op val, a ≠ .read op val := by
  cases data with
  | none => simp [along_null rfl]
  | some bs =>
    have hnew : Readable (new (some bs)) := ⟨rfl, Nat.zero_le _⟩
    exact iff_of_true (Runs.Along.of_invariant (fun _ a h => next_ok h a) as hnew) (.inl nofun)

/-- The message of a writer that wrote nothing, from which no byte is read. -/
theorem reads_nothing_fails : ¬Runs.Along (next .little) (Reported .little)
    (new OutgoingNetworkMessage.new.data) [.read (.readBytes 0) ([] : List UInt8)] := id

end IncomingNetworkMessage
