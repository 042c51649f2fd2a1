/-
The circular buffer is a lossless FIFO, whatever the order in which the two
parties take their steps.

`Inv` ties the two offsets to the counter while either party may be between
the update of the counter and the move of its own offset: the offset a party
has yet to move by is `pending`, and with it added the reader's position, the
counter and the writer's position always agree around the ring. Each party
owns a stretch of the ring that starts at its offset (the writer the free
cells, the reader the pending ones); the other party's steps only lengthen it
and never touch what is in it (`PartyOk.mono`).
-/
import CxxHeaders.CircBuffer

open Outcome

namespace CircBuffer

variable {α δ : Type} {N : Nat}

/-! ## The methods, computed -/

theorem sub_eq {x y : Nat} (h : y ≤ x) : sub x y = .next (x - y) := by
  simp [sub, asserting_true h]

theorem advance_eq {bufferSize offset size : Nat} (ho : offset < bufferSize) (hs : size ≤ bufferSize) :
    advance bufferSize offset size = .next ((offset + size) % bufferSize) := by
  have hlt : (offset + size) % bufferSize < bufferSize := Nat.mod_lt _ (by omega)
  simp only [advance, asserting_true ho, sub_eq hs, next_bind]
  by_cases h : offset < bufferSize - size
  · have he : (offset + size) % bufferSize = offset + size := Nat.mod_eq_of_lt (by omega)
    rw [he] at hlt ⊢
    simp only [if_pos h, pure_eq, next_bind, asserting_true hlt]
  · have he : (offset + size) % bufferSize = size - (bufferSize - offset) := by
      rw [Nat.mod_eq_sub_mod (by omega), Nat.mod_eq_of_lt (by omega)]; omega
    rw [he] at hlt ⊢
    have hge : size ≥ bufferSize - offset := by omega
    simp only [if_neg h, asserting_true hge, pure_eq, next_bind, asserting_true hlt]

theorem write_availableUntilBufferEnd {b : CircBuffer α} (hd : b.dataAvailable ≤ b.bufferSize)
    (hw : b.writeOffset < b.bufferSize) : writeActions.availableUntilBufferEnd b =
      .next (min (b.bufferSize - b.dataAvailable) (b.bufferSize - b.writeOffset)) := by
  simp [writeActions, spaceAvailableUntilBufferEnd, spaceAvailable, asserting_true hd,
    sub_eq (Nat.le_of_lt hw)]

theorem read_availableUntilBufferEnd {b : CircBuffer α} (hr : b.readOffset < b.bufferSize) :
    readActions.availableUntilBufferEnd b =
      .next (min b.dataAvailable (b.bufferSize - b.readOffset)) := by
  simp [readActions, dataAvailableUntilBufferEnd, sub_eq (Nat.le_of_lt hr)]

theorem write_copyAction {b : CircBuffer α} {data : List α} {n : Nat} (hn : n ≤ data.length)
    (hw : b.writeOffset + n ≤ b.bufferSize) : writeActions.copyAction b data n =
      .next ({ b with buffer := Ring.put b.bufferSize b.buffer b.writeOffset (data.take n) },
        data.take n, data.drop n) := by
  have hfit : b.writeOffset + (data.take n).length ≤ b.bufferSize := by
    rw [List.length_take, Nat.min_eq_left hn]; exact hw
  simp [writeActions, asserting_true hn, asserting_true hw, Ring.store_eq_put b.buffer _ hfit]

theorem read_copyAction {b : CircBuffer α} {d : Dest α} {n : Nat} (hn : n ≤ d.want)
    (hr : b.readOffset + n ≤ b.bufferSize) : readActions.copyAction b d n =
      .next (b, Ring.slice b.bufferSize b.buffer b.readOffset n,
        ⟨d.want - n, d.got ++ Ring.slice b.bufferSize b.buffer b.readOffset n⟩) := by
  simp [readActions, asserting_true hn, asserting_true hr, Ring.load_eq_slice b.buffer hr]

theorem write_update {b : CircBuffer α} {n : Nat} (hn : n ≤ b.bufferSize) :
    writeActions.update b n =
      .next ({ b with dataAvailable := b.dataAvailable + n }, b.dataAvailable + n) := by
  simp [writeActions, increaseDataAvailable, asserting_true hn]

theorem read_update {b : CircBuffer α} {n : Nat} (hn : n ≤ b.bufferSize) (hd : n ≤ b.dataAvailable) :
    readActions.update b n =
      .next ({ b with dataAvailable := b.dataAvailable - n }, b.dataAvailable - n) := by
  simp [readActions, decreaseDataAvailable, asserting_true hn, asserting_true hd]

/-- The write offset `n` cells further round. -/
def writeMoved (b : CircBuffer α) (n : Nat) : CircBuffer α :=
  { b with writeOffset := (b.writeOffset + n) % b.bufferSize }

/-- The read offset `n` cells further round. -/
def readMoved (b : CircBuffer α) (n : Nat) : CircBuffer α :=
  { b with readOffset := (b.readOffset + n) % b.bufferSize }

theorem write_move {b : CircBuffer α} {n : Nat} (hw : b.writeOffset < b.bufferSize)
    (hn : n ≤ b.bufferSize) : writeActions.move b n = .next (b.writeMoved n) := by
  simp [writeActions, moveWriteOffset, writeMoved, advance_eq hw hn]

theorem read_move {b : CircBuffer α} {n : Nat} (hr : b.readOffset < b.bufferSize)
    (hn : n ≤ b.bufferSize) : readActions.move b n = .next (b.readMoved n) := by
  simp [readActions, moveReadOffset, readMoved, advance_eq hr hn]

theorem writeMoved_lt {b : CircBuffer α} (hw : b.writeOffset < b.bufferSize) (n : Nat) :
    (b.writeMoved n).writeOffset < (b.writeMoved n).bufferSize :=
  Nat.mod_lt _ (Nat.zero_lt_of_lt hw)

theorem readMoved_lt {b : CircBuffer α} (hr : b.readOffset < b.bufferSize) (n : Nat) :
    (b.readMoved n).readOffset < (b.readMoved n).bufferSize :=
  Nat.mod_lt _ (Nat.zero_lt_of_lt hr)

theorem write_ret {b : CircBuffer α} {ret : Nat} (hret : ret ≤ b.bufferSize) :
    writeActions.ret b ret = .next (b.bufferSize - ret) := sub_eq hret

theorem write_retUbe {b : CircBuffer α} {ret : Nat} (hret : ret ≤ b.bufferSize)
    (hw : b.writeOffset < b.bufferSize) : writeActions.retUbe b ret =
      .next (min (b.bufferSize - ret) (b.bufferSize - b.writeOffset)) := by
  simp [writeActions, sub_eq hret, sub_eq (Nat.le_of_lt hw)]

theorem read_retUbe {b : CircBuffer α} (ret : Nat) (hr : b.readOffset < b.bufferSize) :
    readActions.retUbe b ret = .next (min ret (b.bufferSize - b.readOffset)) := by
  simp [readActions, sub_eq (Nat.le_of_lt hr)]

/-- `haveWritten` and `haveRead` are the update and the move that `operate`
and outside callers are stepped through, and then what they return. -/
theorem done_split (b : CircBuffer α) (size : Nat) :
    (haveWritten b size = do
      let (b, ret) ← writeActions.update b size
      let b ← writeActions.move b size
      return (b, ← writeActions.ret b ret)) ∧
    (haveRead b size = do
      let (b, ret) ← readActions.update b size
      let b ← readActions.move b size
      return (b, ← readActions.ret b ret)) := by
  constructor <;> rfl

theorem doneRetUbe_split (b : CircBuffer α) (size : Nat) :
    (haveWrittenRetUbe b size = do
      let (b, ret) ← writeActions.update b size
      let b ← writeActions.move b size
      return (b, ← writeActions.retUbe b ret)) ∧
    (haveReadRetUbe b size = do
      let (b, ret) ← readActions.update b size
      let b ← readActions.move b size
      return (b, ← readActions.retUbe b ret)) := by
  rw [haveWrittenRetUbe, haveReadRetUbe, (done_split b size).1, (done_split b size).2]
  constructor
  · simp only [writeActions, bind_assoc, pure_eq, next_bind]
  · simp only [readActions, bind_assoc, pure_eq, next_bind]

/-! ## The invariant -/

/-- What the party's offset has yet to be moved by. -/
def Pc.pending : Pc α δ → Nat
  | .updated size _ _ => size
  | _ => 0

theorem Pc.pending_copied (xs : List α) (after : After δ) : (Pc.copied xs after).pending = 0 := rfl

theorem Pc.pending_updated (size ret : Nat) (after : After δ) :
    (Pc.updated size ret after : Pc α δ).pending = size := rfl

/-- `operate` goes round again only with something left to transfer. -/
def AfterOk (size : δ → Nat) : After δ → Prop
  | .doneRetUbe _ rest => 0 < size rest
  | _ => True

/-- A party that owns the `own` cells from its offset `off` on; `room` of what
the update of the counter returned is how many of them it is told of. -/
def PcOk (size : δ → Nat) (room : Nat → Nat) (bufferSize : Nat) (mem : Nat → α) (off own : Nat) :
    Pc α δ → Prop
  | .idle => True
  | .entered d => 0 < size d
  | .loop aUBE _ d => 0 < aUBE ∧ aUBE ≤ own ∧ off + aUBE ≤ bufferSize ∧ 0 < size d
  | .copied xs after =>
    xs.length ≤ own ∧ Ring.slice bufferSize mem off xs.length = xs ∧ AfterOk size after
  | .updated n ret after => n ≤ bufferSize ∧ ret ≤ bufferSize ∧ room ret ≤ own ∧ AfterOk size after

structure PartyOk (size : δ → Nat) (room : Nat → Nat) (bufferSize : Nat) (mem : Nat → α) (off own : Nat)
    (p : Party α δ) : Prop where
  granted : p.granted ≤ own
  pc : PcOk size room bufferSize mem off own p.pc

abbrev ProducerOk (b : CircBuffer α) (p : Party α (List α)) : Prop :=
  PartyOk List.length (b.bufferSize - ·) b.bufferSize b.buffer b.writeOffset
    (b.bufferSize - b.dataAvailable) p

abbrev ConsumerOk (b : CircBuffer α) (p : Party α (Dest α)) : Prop :=
  PartyOk Dest.want id b.bufferSize b.buffer b.readOffset b.dataAvailable p

/-- The elements in the buffer, in order. -/
def inBuffer (c : Config α) : List α :=
  Ring.slice c.buf.bufferSize c.buf.buffer (c.buf.readOffset + c.consumer.pc.pending) c.buf.dataAvailable

structure Inv (bufferSize : Nat) (c : Config α) : Prop where
  size : c.buf.bufferSize = bufferSize
  available : c.buf.dataAvailable ≤ c.buf.bufferSize
  write : c.buf.writeOffset < c.buf.bufferSize
  read : c.buf.readOffset < c.buf.bufferSize
  ring : (c.buf.writeOffset + c.producer.pc.pending) % c.buf.bufferSize =
    (c.buf.readOffset + c.consumer.pc.pending + c.buf.dataAvailable) % c.buf.bufferSize
  fifo : c.sent = c.received ++ inBuffer c
  producer : ProducerOk c.buf c.producer
  consumer : ConsumerOk c.buf c.consumer

/-- A party's stretch may grow and the rest of the ring change. -/
theorem PartyOk.mono {size : δ → Nat} {room : Nat → Nat} {mem mem' : Nat → α} {off own own' : Nat}
    {p : Party α δ} (h : PartyOk size room N mem off own p) (hown : own ≤ own')
    (hmem : p.pc.pending = 0 → Ring.slice N mem' off own = Ring.slice N mem off own) :
    PartyOk size room N mem' off own' p := by
  obtain ⟨hg, hpc⟩ := h
  refine ⟨Nat.le_trans hg hown, ?_⟩
  cases hp : p.pc with
  | idle => trivial
  | entered d => rw [hp] at hpc; exact hpc
  | loop aUBE t d =>
    rw [hp] at hpc
    obtain ⟨h1, h2, h3⟩ := hpc
    exact ⟨h1, Nat.le_trans h2 hown, h3⟩
  | copied xs after =>
    rw [hp] at hpc hmem
    obtain ⟨h1, h2, h3⟩ := hpc
    refine ⟨Nat.le_trans h1 hown, ?_, h3⟩
    rw [← Ring.slice_take mem' off h1, hmem rfl, Ring.slice_take mem off h1, h2]
  | updated n ret after =>
    rw [hp] at hpc
    obtain ⟨h1, h2, h3, h4⟩ := hpc
    exact ⟨h1, h2, Nat.le_trans h3 hown, h4⟩

theorem init_inv {bufferSize : Nat} {c : Config α} (hpos : 0 < bufferSize) (h : Init bufferSize c) :
    Inv bufferSize c := by
  obtain ⟨garbage, rfl⟩ := h
  exact ⟨rfl, by simp [new], hpos, hpos, by simp [new, Pc.pending], by simp [inBuffer, new],
    ⟨by simp, trivial⟩, ⟨by simp, trivial⟩⟩

/-! ## The producer's steps -/

/-- Storing into free cells. -/
theorem Inv.put {c : Config α} (h : Inv N c) {xs : List α} (hp : c.producer.pc.pending = 0)
    (hlen : xs.length ≤ c.buf.bufferSize - c.buf.dataAvailable) :
    let mem := Ring.put c.buf.bufferSize c.buf.buffer c.buf.writeOffset xs
    Ring.slice c.buf.bufferSize mem c.buf.writeOffset xs.length = xs ∧
    Ring.slice c.buf.bufferSize mem (c.buf.readOffset + c.consumer.pc.pending) c.buf.dataAvailable =
      inBuffer c ∧
    ConsumerOk { c.buf with buffer := mem } c.consumer := by
  have hring := h.ring
  rw [hp, Nat.add_zero] at hring
  have hav := h.available
  have hkeep := Ring.slice_put_other c.buf.buffer xs hring (by omega)
  refine ⟨Ring.slice_put _ _ _ (by omega), hkeep, h.consumer.mono (Nat.le_refl _) fun hc => ?_⟩
  rwa [hc, Nat.add_zero] at hkeep

/-- A producer's step that exchanges nothing and leaves the buffer alone. -/
theorem Inv.setProducer {c : Config α} (h : Inv N c) {p : Party α (List α)}
    (hpend : p.pc.pending = c.producer.pc.pending)
    (hp : ProducerOk c.buf p) : Inv N { c with producer := p, sent := c.sent ++ [] } := by
  obtain ⟨hN, hav, hw, hr, hring, hfifo, -, hq⟩ := h
  exact ⟨hN, hav, hw, hr, by rw [← hring, ← hpend], by simpa [inBuffer] using hfifo, hp, hq⟩

/-- The producer copies a chunk into the free cells. -/
theorem Inv.copyIn {c : Config α} (h : Inv N c) {xs : List α} {after : After (List α)}
    (hpend : c.producer.pc.pending = 0) (hlen : xs.length ≤ c.buf.bufferSize - c.buf.dataAvailable)
    (hafter : AfterOk List.length after) :
    Inv N { c with
      buf := { c.buf with buffer := Ring.put c.buf.bufferSize c.buf.buffer c.buf.writeOffset xs },
      producer := { c.producer with pc := .copied xs after }, sent := c.sent ++ [] } := by
  obtain ⟨hput, hkeep, hq⟩ := h.put hpend hlen
  have ⟨hN, hav, hw, hr, hring, hfifo, ⟨hg, _⟩, _⟩ := h
  rw [hpend] at hring
  exact ⟨hN, hav, hw, hr, hring, by rw [List.append_nil, inBuffer, hkeep]; exact hfifo,
    ⟨hg, hlen, hput, hafter⟩, hq⟩

/-- The producer's offset catches up with the counter. -/
theorem Inv.moveWrite {c : Config α} (h : Inv N c) {n ret : Nat} {after : After (List α)}
    (hpc : c.producer.pc = .updated n ret after) {p : Party α (List α)} (hpend : p.pc.pending = 0)
    (hp : ProducerOk (c.buf.writeMoved n) p) :
    Inv N { c with buf := c.buf.writeMoved n, producer := p, sent := c.sent ++ [] } := by
  obtain ⟨hN, hav, hw, hr, hring, hfifo, -, hq⟩ := h
  rw [hpc] at hring
  refine ⟨hN, hav, writeMoved_lt hw n, hr, ?_, by rw [List.append_nil]; exact hfifo, hp, hq⟩
  rw [hpend, Nat.add_zero]
  exact (Nat.mod_mod _ _).trans hring

theorem producer_step_ok {c : Config α} (h : Inv N c) : (next c .producer).Ok (Inv N) := by
  simp only [next, ok_bind]
  have ⟨hN, hav, hw, hr, hring, hfifo, ⟨hg, hpc⟩, hq⟩ := h
  cases hp : c.producer.pc with
  | idle => simp [Party.step, hp]
  | entered data =>
    rw [hp] at hpc
    replace hpc : writeActions.size data > 0 := hpc
    simp only [Party.step, hp, asserting_true hpc, next_bind, write_availableUntilBufferEnd hav hw]
    split
    · exact h.setProducer (by rw [hp]; rfl) ⟨hg, trivial⟩
    · next hne =>
      have hmin := Nat.min_le_right (c.buf.bufferSize - c.buf.dataAvailable)
        (c.buf.bufferSize - c.buf.writeOffset)
      exact h.setProducer (by rw [hp]; rfl)
        ⟨hg, Nat.pos_of_ne_zero hne, Nat.min_le_left _ _, by omega, hpc⟩
  | loop aUBE t data =>
    rw [hp] at hpc
    obtain ⟨hpos, hown, hend, hsz⟩ := hpc
    replace hpos : aUBE > 0 := hpos
    simp only [Party.step, hp, asserting_true hpos, next_bind]
    split
    · next hge =>
      -- The rest of the data goes in as one chunk.
      rw [show writeActions.size data = data.length from rfl, write_copyAction (Nat.le_refl _)
        (Nat.le_trans (Nat.add_le_add_left hge _) hend), List.take_length]
      exact h.copyIn (by rw [hp]; rfl) (Nat.le_trans hge hown) trivial
    · next hlt =>
      replace hlt : writeActions.size data > aUBE := Nat.not_le.mp hlt
      have hlt' : aUBE < data.length := hlt
      rw [asserting_true hlt, next_bind, write_copyAction (Nat.le_of_lt hlt) hend]
      refine h.copyIn (by rw [hp]; rfl) (by rw [List.length_take]; omega) ?_
      show 0 < (data.drop aUBE).length
      rw [List.length_drop]
      omega
  | copied xs after =>
    rw [hp] at hpc hring
    obtain ⟨hlen, hslice, hafter⟩ := hpc
    have hle : xs.length ≤ c.buf.bufferSize := by omega
    replace hring : c.buf.writeOffset % c.buf.bufferSize =
      (c.buf.readOffset + c.consumer.pc.pending + c.buf.dataAvailable) % c.buf.bufferSize := hring
    simp only [Party.step, hp, write_update hle, next_bind]
    refine ⟨hN, ?_, hw, hr, ?_, ?_, ⟨?_, hle, ?_, Nat.le_refl _, hafter⟩,
      hq.mono (Nat.le_add_right _ _) fun _ => rfl⟩
    · show c.buf.dataAvailable + xs.length ≤ c.buf.bufferSize
      omega
    · show (c.buf.writeOffset + xs.length) % c.buf.bufferSize =
        (c.buf.readOffset + c.consumer.pc.pending + (c.buf.dataAvailable + xs.length)) % c.buf.bufferSize
      rw [Nat.add_mod, hring, ← Nat.add_mod, Nat.add_assoc]
    · -- The chunk is now the last of what is in the buffer.
      simp only [inBuffer] at hfifo ⊢
      rw [Ring.slice_add, ← Ring.slice_congr_start _ hring, hslice, hfifo, List.append_assoc]
    · show c.producer.granted - xs.length ≤ c.buf.bufferSize - (c.buf.dataAvailable + xs.length)
      omega
    · show c.buf.dataAvailable + xs.length ≤ c.buf.bufferSize
      omega
  | updated n ret after =>
    rw [hp] at hpc
    obtain ⟨hn, hret, hroom, hafter⟩ := hpc
    have hw' := writeMoved_lt hw n
    simp only [Party.step, hp, write_move hw hn, next_bind]
    cases after with
    | doneNoRet total => exact h.moveWrite hp rfl ⟨hg, trivial⟩
    | doneRetUbe total rest =>
      simp only [write_retUbe (b := c.buf.writeMoved n) hret hw', next_bind]
      split
      · exact h.moveWrite hp rfl ⟨hg, trivial⟩
      · next hne =>
        have hmin := Nat.min_le_right ((c.buf.writeMoved n).bufferSize - ret)
          ((c.buf.writeMoved n).bufferSize - (c.buf.writeMoved n).writeOffset)
        exact h.moveWrite hp rfl ⟨hg, Nat.pos_of_ne_zero hne,
          Nat.le_trans (Nat.min_le_left _ _) hroom, by omega, hafter⟩
    | caller =>
      simp only [write_ret (b := c.buf.writeMoved n) hret, next_bind]
      exact h.moveWrite hp rfl ⟨hroom, trivial⟩

/-! ## The consumer's steps -/

/-- A consumer's step that exchanges nothing and leaves the buffer alone. -/
theorem Inv.setConsumer {c : Config α} (h : Inv N c) {p : Party α (Dest α)}
    (hpend : p.pc.pending = c.consumer.pc.pending) (hp : ConsumerOk c.buf p) :
    Inv N { c with consumer := p, received := c.received ++ [] } := by
  obtain ⟨hN, hav, hw, hr, hring, hfifo, hq, -⟩ := h
  exact ⟨hN, hav, hw, hr, by rw [hring, ← hpend], by simpa [inBuffer, hpend] using hfifo, hq, hp⟩

/-- The consumer copies a chunk of what is in the buffer. -/
theorem Inv.copyOut {c : Config α} (h : Inv N c) {n : Nat} {after : After (Dest α)}
    (hpend : c.consumer.pc.pending = 0) (hlen : n ≤ c.buf.dataAvailable)
    (hafter : AfterOk Dest.want after) :
    Inv N { c with
      consumer := { c.consumer with
        pc := .copied (Ring.slice c.buf.bufferSize c.buf.buffer c.buf.readOffset n) after },
      received := c.received ++ [] } := by
  refine h.setConsumer (by rw [hpend]; rfl) ⟨h.consumer.granted, ?_, ?_, hafter⟩
  · rwa [Ring.slice_length]
  · rw [Ring.slice_length]

/-- The consumer's offset catches up with the counter. -/
theorem Inv.moveRead {c : Config α} (h : Inv N c) {n ret : Nat} {after : After (Dest α)}
    (hpc : c.consumer.pc = .updated n ret after) {p : Party α (Dest α)} (hpend : p.pc.pending = 0)
    (hp : ConsumerOk (c.buf.readMoved n) p) :
    Inv N { c with buf := c.buf.readMoved n, consumer := p, received := c.received ++ [] } := by
  obtain ⟨hN, hav, hw, hr, hring, hfifo, hq, -⟩ := h
  have hstart : (c.buf.readMoved n).readOffset % c.buf.bufferSize =
      (c.buf.readOffset + n) % c.buf.bufferSize := Nat.mod_mod _ _
  simp only [inBuffer, hpc, Pc.pending_updated] at hring hfifo
  refine ⟨hN, hav, hw, readMoved_lt hr n, ?_, ?_, hq, hp⟩
  · rw [hpend, Nat.add_zero]
    show (c.buf.writeOffset + c.producer.pc.pending) % c.buf.bufferSize =
      ((c.buf.readMoved n).readOffset + c.buf.dataAvailable) % c.buf.bufferSize
    rw [Nat.add_mod _ c.buf.dataAvailable, hstart, ← Nat.add_mod]
    exact hring
  · rw [inBuffer, hpend, Nat.add_zero, List.append_nil, hfifo]
    exact congrArg (c.received ++ ·) (Ring.slice_congr_start _ hstart.symm _)

theorem consumer_step_ok {c : Config α} (h : Inv N c) : (next c .consumer).Ok (Inv N) := by
  simp only [next, ok_bind]
  have ⟨hN, hav, hw, hr, hring, hfifo, hq, ⟨hg, hpc⟩⟩ := h
  cases hp : c.consumer.pc with
  | idle => simp [Party.step, hp]
  | entered d =>
    rw [hp] at hpc
    replace hpc : readActions.size d > 0 := hpc
    simp only [Party.step, hp, asserting_true hpc, next_bind, read_availableUntilBufferEnd hr]
    split
    · exact h.setConsumer (by rw [hp]; rfl) ⟨hg, trivial⟩
    · next hne =>
      have hmin := Nat.min_le_right c.buf.dataAvailable (c.buf.bufferSize - c.buf.readOffset)
      exact h.setConsumer (by rw [hp]; rfl)
        ⟨hg, Nat.pos_of_ne_zero hne, Nat.min_le_left _ _, by omega, hpc⟩
  | loop aUBE t d =>
    rw [hp] at hpc
    obtain ⟨hpos, hown, hend, hsz⟩ := hpc
    replace hpos : aUBE > 0 := hpos
    simp only [Party.step, hp, asserting_true hpos, next_bind]
    split
    · next hge =>
      -- What is still wanted comes out as one chunk.
      rw [show readActions.size d = d.want from rfl, read_copyAction (Nat.le_refl _)
        (Nat.le_trans (Nat.add_le_add_left hge _) hend)]
      exact h.copyOut (by rw [hp]; rfl) (Nat.le_trans hge hown) trivial
    · next hlt =>
      replace hlt : readActions.size d > aUBE := Nat.not_le.mp hlt
      rw [asserting_true hlt, next_bind, read_copyAction (Nat.le_of_lt hlt) hend]
      exact h.copyOut (by rw [hp]; rfl) hown (Nat.sub_pos_of_lt hlt)
  | copied xs after =>
    rw [hp] at hpc hring
    obtain ⟨hlen, hslice, hafter⟩ := hpc
    have hle : xs.length ≤ c.buf.bufferSize := by omega
    simp only [inBuffer, hp, Pc.pending_copied, Nat.add_zero] at hring hfifo
    simp only [Party.step, hp, read_update hle hlen, next_bind]
    refine ⟨hN, ?_, hw, hr, ?_, ?_, hq.mono ?_ fun _ => rfl, ⟨?_, hle, ?_, Nat.le_refl _, hafter⟩⟩
    · show c.buf.dataAvailable - xs.length ≤ c.buf.bufferSize
      omega
    · show (c.buf.writeOffset + c.producer.pc.pending) % c.buf.bufferSize =
        (c.buf.readOffset + xs.length + (c.buf.dataAvailable - xs.length)) % c.buf.bufferSize
      rw [hring, Nat.add_assoc, Nat.add_sub_cancel' hlen]
    · -- The chunk was the first of what is in the buffer.
      show c.sent = c.received ++ xs ++ Ring.slice c.buf.bufferSize c.buf.buffer
        (c.buf.readOffset + xs.length) (c.buf.dataAvailable - xs.length)
      rw [hfifo, ← Nat.add_sub_cancel' hlen, Ring.slice_add, hslice, Nat.add_sub_cancel_left,
        List.append_assoc]
    · show c.buf.bufferSize - c.buf.dataAvailable ≤ c.buf.bufferSize - (c.buf.dataAvailable - xs.length)
      omega
    · show c.consumer.granted - xs.length ≤ c.buf.dataAvailable - xs.length
      omega
    · show c.buf.dataAvailable - xs.length ≤ c.buf.bufferSize
      omega
  | updated n ret after =>
    rw [hp] at hpc
    obtain ⟨hn, hret, hroom, hafter⟩ := hpc
    have hr' := readMoved_lt hr n
    simp only [Party.step, hp, read_move hr hn, next_bind]
    cases after with
    | doneNoRet total => exact h.moveRead hp rfl ⟨hg, trivial⟩
    | doneRetUbe total rest =>
      simp only [read_retUbe ret hr', next_bind]
      split
      · exact h.moveRead hp rfl ⟨hg, trivial⟩
      · next hne =>
        have hmin := Nat.min_le_right ret
          ((c.buf.readMoved n).bufferSize - (c.buf.readMoved n).readOffset)
        exact h.moveRead hp rfl ⟨hg, Nat.pos_of_ne_zero hne,
          Nat.le_trans (Nat.min_le_left _ _) hroom, by omega, hafter⟩
    | caller => exact h.moveRead hp rfl ⟨hroom, trivial⟩

/-! ## Every step -/

theorem next_ok {c : Config α} (h : Inv N c) (a : Act α) : (next c a).Ok (Inv N) := by
  have ⟨hN, hav, hw, hr, hring, hfifo, ⟨hg, hpc⟩, ⟨hg', hpc'⟩⟩ := h
  cases a with
  | producer => exact producer_step_ok h
  | consumer => exact consumer_step_ok h
  | write data =>
    simp only [next, ok_bind, ok_requiring]
    intro hboth
    obtain ⟨hidle, hne⟩ := hboth
    cases hp : c.producer.pc with
    | idle =>
      simpa using h.setProducer (p := { c.producer with pc := .entered data }) (by rw [hp]; rfl)
        ⟨hg, List.length_pos_iff.mpr hne⟩
    | _ => rw [hp] at hidle; cases hidle
  | spaceAvailable =>
    simp only [next, ok_bind, ok_requiring, spaceAvailable, ok_asserting]
    intro hidle
    cases hp : c.producer.pc with
    | idle =>
      refine ⟨hav, ?_⟩
      simpa using h.setProducer (p := ⟨.idle, c.buf.bufferSize - c.buf.dataAvailable, _⟩) (by rw [hp])
        ⟨Nat.le_refl _, trivial⟩
    | _ => rw [hp] at hidle; cases hidle
  | haveWritten xs =>
    simp only [next, ok_bind, ok_requiring]
    intro hboth
    obtain ⟨hidle, hlen⟩ := hboth
    cases hp : c.producer.pc with
    | idle =>
      simpa using h.copyIn (by rw [hp]; rfl) (Nat.le_trans hlen hg)
        (show AfterOk List.length .caller from trivial)
    | _ => rw [hp] at hidle; cases hidle
  | read size =>
    simp only [next, ok_bind, ok_requiring]
    intro hboth
    obtain ⟨hidle, hne⟩ := hboth
    cases hp : c.consumer.pc with
    | idle =>
      simpa using h.setConsumer (p := { c.consumer with pc := .entered ⟨size, []⟩ }) (by rw [hp]; rfl)
        ⟨hg', Nat.pos_of_ne_zero hne⟩
    | _ => rw [hp] at hidle; cases hidle
  | dataAvailable =>
    simp only [next, ok_bind, ok_requiring]
    intro hidle
    cases hp : c.consumer.pc with
    | idle =>
      simpa using h.setConsumer (p := ⟨.idle, c.buf.dataAvailable, c.buf.dataAvailable⟩) (by rw [hp])
        ⟨Nat.le_refl _, trivial⟩
    | _ => rw [hp] at hidle; cases hidle
  | haveRead size =>
    simp only [next, ok_bind, ok_requiring]
    intro hboth
    obtain ⟨hidle, hlen⟩ := hboth
    cases hp : c.consumer.pc with
    | idle =>
      simpa using h.copyOut (by rw [hp]; rfl) (Nat.le_trans hlen hg')
        (show AfterOk Dest.want .caller from trivial)
    | _ => rw [hp] at hidle; cases hidle

theorem reachable_inv {bufferSize : Nat} {c : Config α} (hpos : 1 ≤ bufferSize)
    (h : Runs.Reachable next (Init bufferSize) c) : Inv bufferSize c :=
  h.invariant (fun _ => init_inv hpos) fun _ a hi => next_ok hi a

/-- **The buffer is a lossless FIFO.** In whatever order the parties take
their steps: the counter and the offsets stay in range, and around the ring
they agree once no offset has yet to catch up; what the consumer has received
is a prefix of what the producer has put in, and the rest is in the buffer,
in order; and no assertion can fail. -/
theorem lossless_fifo {bufferSize : Nat} {c : Config α} (hpos : 1 ≤ bufferSize)
    (h : Runs.Reachable next (Init bufferSize) c) :
    (c.buf.bufferSize = bufferSize ∧ c.buf.dataAvailable ≤ bufferSize ∧ c.buf.writeOffset < bufferSize ∧
      c.buf.readOffset < bufferSize ∧
      (c.producer.pc.pending = 0 → c.consumer.pc.pending = 0 →
        (c.buf.readOffset + c.buf.dataAvailable) % bufferSize = c.buf.writeOffset)) ∧
    (c.received <+: c.sent ∧ c.sent = c.received ++ inBuffer c ∧
      (inBuffer c).length = c.buf.dataAvailable) ∧
    ∀ a, next c a ≠ .failed := by
  have hi := reachable_inv hpos h
  have ⟨hN, hav, hw, hr, hring, hfifo, _, _⟩ := hi
  subst hN
  refine ⟨⟨rfl, hav, hw, hr, fun hp hq => ?_⟩, ⟨⟨_, hfifo.symm⟩, hfifo, Ring.slice_length _ _ _⟩,
    fun a => (next_ok hi a).not_failed⟩
  rw [hp, hq, Nat.add_zero, Nat.add_zero, Nat.mod_eq_of_lt hw] at hring
  exact hring.symm

/-- The actions of a run of a buffer of two cells in which the consumer's read
and the producer's second write overlap, both between update and move. -/
def overlap : List (Act Nat) :=
  [.write [1, 2], .producer, .producer, .producer, .read 1, .producer, .consumer, .consumer, .consumer,
   .write [3], .producer, .producer, .producer]

theorem lossless_fifo_overlap : ∃ c : Config Nat,
    Runs.run next ⟨new 2 fun _ => 0, ⟨.idle, 0, 0⟩, ⟨.idle, 0, 0⟩, [], []⟩ overlap = .next c ∧
    c.sent = c.received ++ inBuffer c := by
  obtain ⟨c, hc⟩ : ∃ c, Runs.run next ⟨new 2 fun _ => 0, ⟨.idle, 0, 0⟩, ⟨.idle, 0, 0⟩, [], []⟩ overlap =
    .next c := ⟨_, rfl⟩
  exact ⟨c, hc, (lossless_fifo (Nat.le_of_lt Nat.one_lt_two) (.run (.init ⟨_, rfl⟩) hc)).2.1.2.1⟩

end CircBuffer
