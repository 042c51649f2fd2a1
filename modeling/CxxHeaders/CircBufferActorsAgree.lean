/-
A transfer by an actor and one by copying come to the same (`actors_agree`).
What the two loops of `operate` have in common is that each call or copy moves
one of the offsets by what was accepted: so there is one proof of the actor's
loop, for a writer and for a reader (`Serves`).
-/
import CxxHeaders.CircBufferActors
import CxxHeaders.CircBufferCopies

open Outcome

namespace CircBuffer

variable {α σ δ : Type} {N r : Nat} {q : List α} {b : CircBuffer α}

/-! ## `haveWritten` and `haveRead` -/

theorem haveWritten_eq {k : Nat} (hw : b.writeOffset < b.bufferSize)
    (hk : b.dataAvailable + k ≤ b.bufferSize) :
    haveWritten b k = .next ({ b with
      dataAvailable := b.dataAvailable + k, writeOffset := (b.writeOffset + k) % b.bufferSize },
      b.bufferSize - (b.dataAvailable + k)) := by
  have hle : k ≤ b.bufferSize := by omega
  simp [haveWritten, increaseDataAvailable, moveWriteOffset, asserting_true hle, advance_eq hw hle, sub_eq hk]

theorem haveRead_eq {k : Nat} (hr : b.readOffset < b.bufferSize) (hk : k ≤ b.dataAvailable)
    (hle : k ≤ b.bufferSize) :
    haveRead b k = .next ({ b with
      dataAvailable := b.dataAvailable - k, readOffset := (b.readOffset + k) % b.bufferSize },
      b.dataAvailable - k) := by
  simp [haveRead, decreaseDataAvailable, moveReadOffset, asserting_true hle, asserting_true hk,
    advance_eq hr hle]

/-! ## The calls of an actor -/

/-- What a writer or a reader is shown by a call, and what is in the buffer after
it. -/
structure Side (α : Type) where
  Shown : List α → Call α → Prop
  after : List α → Call α → List α

def writer : Side α where
  Shown _ call := call.elems.length = call.toTransfer
  after q call := q ++ call.elems.take call.accepted

def reader : Side α where
  Shown q call := call.elems = q.take call.toTransfer
  after q call := q.drop call.accepted

/-- The calls, of which each offers all of the `avail` cells from `start` on that
come before the end of the array. The first one that takes less is the last one,
and so is one after which there are none left. -/
def Calls (N : Nat) (S : Side α) : (start avail : Nat) → List α → List (Call α) → Prop
  | _, avail, _, [] => avail = 0
  | start, avail, q, call :: calls =>
    0 < avail ∧ call.start = start ∧ call.toTransfer = min avail (N - start) ∧
      call.accepted ≤ call.toTransfer ∧ S.Shown q call ∧
      (call.accepted < call.toTransfer ∧ calls = [] ∨ call.accepted = call.toTransfer ∧
        Calls N S ((start + call.accepted) % N) (avail - call.accepted) (S.after q call) calls)

def total (calls : List (Call α)) : Nat := (calls.map Call.accepted).sum

/-- What one call does, for the buffers that `Rep` describes: the actions move the
offset by what is accepted. -/
structure Serves (N : Nat) (S : Side α) (A : ActorActions α σ)
    (Rep : (start avail : Nat) → List α → CircBuffer α → Prop) : Prop where
  size : ∀ {start avail q b}, Rep start avail q b → b.bufferSize = N ∧ avail ≤ N ∧ start < max 1 N
  availableUntilBufferEnd : ∀ {start avail q b}, Rep start avail q b →
    A.availableUntilBufferEnd b = .next (min avail (N - start))
  call : ∀ {start avail q b}, Rep start avail q b → 0 < avail → ∀ s, ∃ b₁ s' call b₂,
    A.actor b s (min avail (N - start)) = .next (b₁, s', call) ∧
    call.start = start ∧ call.toTransfer = min avail (N - start) ∧ call.accepted ≤ call.toTransfer ∧
    S.Shown q call ∧
    A.doneRetUbe b₁ call.accepted =
      .next (b₂, min (avail - call.accepted) (N - (start + call.accepted) % N)) ∧
    A.doneNoRet b₁ call.accepted = .next b₂ ∧
    Rep ((start + call.accepted) % N) (avail - call.accepted) (S.after q call) b₂

variable {S : Side α} {A : ActorActions α σ} {Rep : (start avail : Nat) → List α → CircBuffer α → Prop}
  {sizeMax start avail : Nat}

/-- What the calls leave behind. -/
def Transferred (N : Nat) (S : Side α) (Rep : (start avail : Nat) → List α → CircBuffer α → Prop)
    (start avail : Nat) (q : List α) (t t' : Transfer α σ) : Prop :=
  ∃ calls, t'.calls = t.calls ++ calls ∧ t'.totalTransferred = t.totalTransferred + total calls ∧
    total calls ≤ avail ∧ Calls N S start avail q calls ∧
    Rep ((start + total calls) % N) (avail - total calls) (calls.foldl S.after q) t'.buf

/-- In front of the first call there is nothing. -/
theorem Transferred.all {s : σ} {t : Transfer α σ} (h : Transferred N S Rep start avail q ⟨b, s, 0, []⟩ t) :
    t.totalTransferred = total t.calls ∧ total t.calls ≤ avail ∧ Calls N S start avail q t.calls ∧
      Rep ((start + total t.calls) % N) (avail - total t.calls) (t.calls.foldl S.after q) t.buf := by
  obtain ⟨calls, hcalls, htotal, hle, hall, hrep⟩ := h
  rw [List.nil_append] at hcalls
  subst hcalls
  exact ⟨htotal.trans (Nat.zero_add _), hle, hall, hrep⟩

theorem Transferred.cons {t t₁ t' : Transfer α σ} {call : Call α} (hpos : 0 < avail) (hstart : call.start = start)
    (hto : call.toTransfer = min avail (N - start)) (hacc : call.accepted = call.toTransfer)
    (hshown : S.Shown q call) (hcalls : t₁.calls = t.calls ++ [call])
    (htotal : t₁.totalTransferred = t.totalTransferred + call.accepted)
    (h : Transferred N S Rep ((start + call.accepted) % N) (avail - call.accepted) (S.after q call) t₁ t') :
    Transferred N S Rep start avail q t t' := by
  obtain ⟨calls, hcalls', htotal', hle, hall, hrep⟩ := h
  have hsum : total (call :: calls) = call.accepted + total calls := by simp [total]
  refine ⟨call :: calls, by simp [hcalls', hcalls], by rw [htotal', htotal, hsum, Nat.add_assoc], ?_, ?_, ?_⟩
  · rw [hsum]
    omega
  · exact ⟨hpos, hstart, hto, Nat.le_of_eq hacc, hshown, .inr ⟨hacc, hall⟩⟩
  · rwa [Nat.mod_add_mod, Nat.add_assoc, Nat.sub_sub, ← hsum] at hrep

theorem Transferred.last {t t' : Transfer α σ} {call : Call α} (hpos : 0 < avail) (hstart : call.start = start)
    (hto : call.toTransfer = min avail (N - start)) (hle : call.accepted ≤ call.toTransfer)
    (hshown : S.Shown q call) (hend : call.accepted < call.toTransfer ∨ avail - call.accepted = 0)
    (hcalls : t'.calls = t.calls ++ [call])
    (htotal : t'.totalTransferred = t.totalTransferred + call.accepted)
    (hrep : Rep ((start + call.accepted) % N) (avail - call.accepted) (S.after q call) t'.buf) :
    Transferred N S Rep start avail q t t' := by
  have hsum : total [call] = call.accepted := by simp [total]
  refine ⟨[call], hcalls, by rw [htotal, hsum], by omega, ?_, by rwa [hsum]⟩
  refine ⟨hpos, hstart, hto, hle, hshown, ?_⟩
  by_cases hlt : call.accepted < call.toTransfer
  · exact .inl ⟨hlt, rfl⟩
  · exact .inr ⟨by omega, hend.resolve_left hlt⟩

theorem operateLoop_returns (hA : Serves N S A Rep) (hmax : N ≤ sizeMax) (fuel : Nat) {t : Transfer α σ}
    (hrep : Rep start avail q t.buf) (hpos : 0 < avail) (htotal : t.totalTransferred + avail ≤ N)
    (hfuel : avail ≤ fuel) :
    (operateLoop sizeMax A fuel t (min avail (N - start)) (sizeMax - t.totalTransferred)).Returns
      (Transferred N S Rep start avail q t) := by
  induction fuel generalizing start avail q t with
  | zero => omega
  | succ fuel ih =>
    obtain ⟨hsize, -, hinside⟩ := hA.size hrep
    obtain ⟨b₁, s, call, b₂, hactor, hstart, hto, hle, hshown, hube, hno, hrep'⟩ :=
      hA.call hrep hpos t.actor
    have hube_pos : min avail (N - start) > 0 := by omega
    have hadd : t.totalTransferred + call.accepted ≤ sizeMax := by omega
    unfold operateLoop
    rw [asserting_true hube_pos, next_bind]
    dsimp only
    split
    · next hlt =>
      rw [hactor, next_bind]
      dsimp only
      rw [asserting_true (hto ▸ hle), next_bind, hube, next_bind]
      dsimp only
      rw [add, asserting_true hadd, next_bind, pure_eq, next_bind]
      split
      · next hend =>
        refine Transferred.last hpos hstart hto hle hshown ?_ rfl rfl hrep'
        have hnew := Nat.mod_lt (start + call.accepted) (show 0 < N by omega)
        omega
      · next hgoes =>
        have hsub : call.accepted ≤ sizeMax - t.totalTransferred := by omega
        rw [sub_eq hsub, next_bind, Nat.sub_sub]
        refine (ih hrep' (by omega) ?_ (by omega)).mono fun t' ht' => ?_
        · show t.totalTransferred + call.accepted + (avail - call.accepted) ≤ N
          omega
        · exact ht'.cons hpos hstart hto (by omega) hshown rfl rfl
    · next hge =>
      -- The total can only reach its limit where the buffer ends too.
      have heq : sizeMax - t.totalTransferred = min avail (N - start) := by omega
      rw [heq, hactor, next_bind]
      dsimp only
      rw [asserting_true (hto ▸ hle), next_bind, hno, next_bind, add, asserting_true hadd, next_bind,
        pure_eq, next_bind]
      exact Transferred.last hpos hstart hto hle hshown (by omega) rfl rfl hrep'

theorem operate_returns (hA : Serves N S A Rep) (hmax : N ≤ sizeMax) (s : σ) (hrep : Rep start avail q b) :
    (operate sizeMax A b s).Returns (Transferred N S Rep start avail q ⟨b, s, 0, []⟩) := by
  obtain ⟨hsize, havail, hinside⟩ := hA.size hrep
  unfold operate
  rw [hA.availableUntilBufferEnd hrep, next_bind]
  split
  · next hzero =>
    have havail : avail = 0 := by omega
    subst havail
    refine ⟨[], rfl, rfl, Nat.le_refl 0, rfl, ?_⟩
    have hmod : start % N = start := by
      by_cases hN : N = 0
      · rw [hN, Nat.mod_zero]
      · exact Nat.mod_eq_of_lt (by omega)
    simpa [total, hmod] using hrep
  · next hne =>
    have hpos : 0 < avail := by omega
    obtain ⟨b₁, s', call, b₂, hactor, hstart, hto, hle, hshown, hube, -, hrep'⟩ := hA.call hrep hpos s
    obtain ⟨hsize', -, -⟩ := hA.size hrep'
    dsimp only
    rw [hactor, next_bind]
    dsimp only
    rw [asserting_true (hto ▸ hle), next_bind, hube, next_bind]
    dsimp only
    split
    · next hend =>
      refine Transferred.last hpos hstart hto hle hshown ?_ rfl (Nat.zero_add _).symm hrep'
      have hnew := Nat.mod_lt (start + call.accepted) (show 0 < N by omega)
      omega
    · next hgoes =>
      have hsub : call.accepted ≤ sizeMax := by omega
      rw [sub_eq hsub, next_bind, hsize']
      refine (operateLoop_returns hA hmax _ (t := ⟨b₂, s', call.accepted, [call]⟩) hrep' (by omega) ?_
        (by omega)).mono fun t' ht' => ?_
      · show call.accepted + (avail - call.accepted) ≤ N
        omega
      · exact ht'.cons hpos hstart hto (by omega) hshown rfl (Nat.zero_add _).symm

/-! ## Writers and readers -/

/-- The free cells are from the write offset on. -/
def FreeFrom (N r start avail : Nat) (q : List α) (b : CircBuffer α) : Prop :=
  Holds N r q b ∧ start = (r + q.length) % N ∧ avail = N - q.length

/-- The pending elements are from the read offset on. -/
def PendingFrom (N start avail : Nat) (q : List α) (b : CircBuffer α) : Prop :=
  Holds N start q b ∧ avail = q.length

theorem writer_serves (p : InputProducerActor α σ) :
    Serves N writer (writeActorActions p) (FreeFrom N r) where
  size := by
    rintro start avail q b ⟨h, rfl, rfl⟩
    exact ⟨h.size, Nat.sub_le .., h.write_lt⟩
  availableUntilBufferEnd := by
    rintro start avail q b ⟨h, rfl, rfl⟩
    have hw := h.write_lt
    have hle : (r + q.length) % N ≤ N := by
      by_cases hN : N = 0
      · simp [hN] at hw ⊢
        exact hw
      · omega
    simp [writeActorActions, spaceAvailableUntilBufferEnd, spaceAvailable, h.size, h.available, h.write,
      asserting_true h.fits, sub_eq hle]
  call := by
    rintro start avail q b ⟨h, rfl, rfl⟩ hpos s
    obtain rfl := h.size
    have hw := h.write_lt
    have hw' : b.writeOffset < b.bufferSize := by
      rw [h.write]
      omega
    generalize hn : min (b.bufferSize - q.length) (b.bufferSize - (r + q.length) % b.bufferSize) = n
    have hin : b.writeOffset + n ≤ b.bufferSize := by
      rw [h.write]
      omega
    have hlen := p.length_eq s (Ring.load b.buffer b.writeOffset n)
    have hacc := p.accepted_le s (Ring.load b.buffer b.writeOffset n)
    rcases hact : p.act s (Ring.load b.buffer b.writeOffset n) with ⟨s', elems, accepted⟩
    have hload : (Ring.load b.buffer b.writeOffset n).length = n := by simp [Ring.load]
    simp only [hact, hload] at hlen hacc
    have hmin := Nat.min_eq_left (hacc.trans (Nat.le_of_eq hlen.symm))
    have hstore : Ring.store b.buffer b.writeOffset elems = Ring.put b.bufferSize b.buffer b.writeOffset elems :=
      Ring.store_eq_put _ _ (by omega)
    have hroom : b.dataAvailable + accepted ≤ b.bufferSize := by
      rw [h.available]
      omega
    have hdone := haveWritten_eq (b := { b with buffer := Ring.store b.buffer b.writeOffset elems }) hw' hroom
    have hheld := h.written elems (by omega) (k := accepted) (by omega)
    rw [hstore] at hdone
    have hnew : (b.writeOffset + accepted) % b.bufferSize ≤ b.bufferSize :=
      Nat.le_of_lt (Nat.mod_lt _ (by omega))
    refine ⟨{ b with buffer := Ring.put b.bufferSize b.buffer b.writeOffset elems }, s',
      ⟨b.writeOffset, n, elems, accepted⟩, _, ?_, h.write, rfl, hacc, hlen, ?_, ?_, hheld, ?_, ?_⟩
    · simp only [writeActorActions, asserting_true hin, next_bind, hact, hstore, pure_eq]
    · simp only [writeActorActions, haveWrittenRetUbe, hdone, next_bind, sub_eq hnew, pure_eq]
      rw [h.available, h.write, Nat.sub_sub]
    · simp only [writeActorActions, hdone, next_bind, pure_eq]
    · simp [writer, hmin, Nat.add_assoc]
    · simp [writer, hmin, Nat.sub_sub]

theorem reader_serves (p : OutputConsumerActor α σ) :
    Serves N reader (readActorActions p) (PendingFrom N) where
  size := by
    rintro start avail q b ⟨h, rfl⟩
    exact ⟨h.size, h.fits, h.inside⟩
  availableUntilBufferEnd := by
    rintro start avail q b ⟨h, rfl⟩
    have hle : start ≤ N := by
      have hinside := h.inside
      by_cases hN : N = 0
      · simp [hN] at hinside ⊢
        exact hinside
      · omega
    simp [readActorActions, dataAvailableUntilBufferEnd, h.size, h.available, h.read, sub_eq hle]
  call := by
    rintro start avail q b ⟨h, rfl⟩ hpos s
    obtain rfl := h.size
    have hfits := h.fits
    have hinside := h.inside
    have hr : b.readOffset < b.bufferSize := by
      rw [h.read]
      omega
    generalize hn : min q.length (b.bufferSize - start) = n
    have hin : b.readOffset + n ≤ b.bufferSize := by
      rw [h.read]
      omega
    have hload : Ring.load b.buffer b.readOffset n = q.take n := by
      rw [Ring.load_eq_slice _ hin, h.read, ← Ring.slice_take _ _ (show n ≤ q.length by omega), h.holds]
    have hacc := p.accepted_le s (q.take n)
    rcases hact : p.act s (q.take n) with ⟨s', accepted⟩
    have htake : (q.take n).length = n := by simp; omega
    simp only [hact, htake] at hacc
    have hdone := haveRead_eq (k := accepted) hr (by rw [h.available]; omega) (by omega)
    have hheld := h.taken (k := accepted) (by omega)
    have hnew : (b.readOffset + accepted) % b.bufferSize ≤ b.bufferSize :=
      Nat.le_of_lt (Nat.mod_lt _ (by omega))
    refine ⟨b, s', ⟨b.readOffset, n, q.take n, accepted⟩, _, ?_, h.read, rfl, hacc, rfl, ?_, ?_, hheld, ?_⟩
    · simp only [readActorActions, asserting_true hin, next_bind, hload, hact, pure_eq]
    · simp only [readActorActions, haveReadRetUbe, hdone, next_bind, sub_eq hnew, pure_eq]
      rw [h.available, h.read]
    · simp only [readActorActions, hdone, next_bind, pure_eq]
    · simp [reader]

/-! ## What the calls come to -/

theorem accepted_cons (call : Call α) (calls : List (Call α)) :
    accepted (call :: calls) = call.elems.take call.accepted ++ accepted calls := by simp [accepted]

theorem total_cons (call : Call α) (calls : List (Call α)) :
    total (call :: calls) = call.accepted + total calls := by simp [total]

theorem foldl_writer (calls : List (Call α)) (q : List α) :
    calls.foldl writer.after q = q ++ accepted calls := by
  induction calls generalizing q with
  | nil => simp [accepted]
  | cons call calls ih => rw [List.foldl_cons, ih, accepted_cons, ← List.append_assoc]; rfl

theorem foldl_reader (calls : List (Call α)) (q : List α) :
    calls.foldl reader.after q = q.drop (total calls) := by
  induction calls generalizing q with
  | nil => simp [total]
  | cons call calls ih => rw [List.foldl_cons, ih, total_cons, ← List.drop_drop]; rfl

theorem length_accepted {calls : List (Call α)} (h : Calls N writer start avail q calls) :
    (accepted calls).length = total calls := by
  induction calls generalizing start avail q with
  | nil => rfl
  | cons call calls ih =>
    obtain ⟨-, -, -, hle, hshown, hrest⟩ := h
    have hlen : (call.elems.take call.accepted).length = call.accepted := by
      rw [List.length_take, show call.elems.length = call.toTransfer from hshown, Nat.min_eq_left hle]
    rw [accepted_cons, total_cons, List.length_append, hlen]
    rcases hrest with ⟨-, rfl⟩ | ⟨-, hcalls⟩
    · rfl
    · rw [ih hcalls]

/-- What a reader takes is the first elements. -/
theorem accepted_reader {calls : List (Call α)} (h : Calls N reader start q.length q calls) :
    accepted calls = q.take (total calls) := by
  induction calls generalizing start q with
  | nil => simp [accepted, total]
  | cons call calls ih =>
    obtain ⟨-, -, -, hle, hshown, hrest⟩ := h
    have helems : call.elems.take call.accepted = q.take call.accepted := by
      rw [show call.elems = q.take call.toTransfer from hshown, List.take_take, Nat.min_eq_left hle]
    rw [accepted_cons, total_cons, helems, List.take_add]
    rcases hrest with ⟨-, rfl⟩ | ⟨-, hcalls⟩
    · simp [accepted, total]
    · rw [← List.length_drop] at hcalls
      rw [ih hcalls]

/-! ## What is expected of a transfer -/

/-- Of one into the buffer: `writing` the same elements leaves the same in it. -/
structure Writes (sizeMax N : Nat) (c : Config α) (t : Transfer α σ) : Prop where
  sum : t.totalTransferred = total t.calls
  sum_le : t.totalTransferred ≤ sizeMax
  calls : Calls N writer c.buf.writeOffset (N - c.buf.dataAvailable) (inBuffer c) t.calls
  length : (accepted t.calls).length = t.totalTransferred
  holds : Holds N c.buf.readOffset (inBuffer c ++ accepted t.calls) t.buf
  copies : accepted t.calls ≠ [] → ∃ k c',
    Runs.run next c (.write (accepted t.calls) :: List.replicate k .producer) = .next c' ∧
    c'.producer.pc = .idle ∧ c'.producer.result = t.totalTransferred ∧
    c'.sent = c.sent ++ accepted t.calls ∧ Holds N c.buf.readOffset (inBuffer c ++ accepted t.calls) c'.buf

/-- Of one out of the buffer: so does reading as many. -/
structure Reads (sizeMax N : Nat) (c : Config α) (t : Transfer α σ) : Prop where
  sum : t.totalTransferred = total t.calls
  sum_le : t.totalTransferred ≤ sizeMax
  calls : Calls N reader c.buf.readOffset c.buf.dataAvailable (inBuffer c) t.calls
  elems : accepted t.calls = (inBuffer c).take t.totalTransferred
  holds : Holds N ((c.buf.readOffset + t.totalTransferred) % N) ((inBuffer c).drop t.totalTransferred) t.buf
  copies : accepted t.calls ≠ [] → ∃ k c',
    Runs.run next c (.read t.totalTransferred :: List.replicate k .consumer) = .next c' ∧
    c'.consumer.pc = .idle ∧ c'.consumer.result = t.totalTransferred ∧
    c'.received = c.received ++ accepted t.calls ∧
    Holds N ((c.buf.readOffset + t.totalTransferred) % N) ((inBuffer c).drop t.totalTransferred) c'.buf

variable {c : Config α}

theorem write_transfer (h : Holds N c.buf.readOffset (inBuffer c) c.buf) (hidle : c.producer.pc.isIdle)
    (hmax : N ≤ sizeMax) (p : InputProducerActor α σ) (s : σ) :
    (operate sizeMax (writeActorActions p) c.buf s).Returns (Writes sizeMax N c) := by
  have hfits := h.fits
  refine (operate_returns (writer_serves p) hmax s ⟨h, rfl, rfl⟩).mono fun t ht => ?_
  obtain ⟨htotal, hle, hall, hrep⟩ := ht.all
  rw [foldl_writer] at hrep
  have hlen := length_accepted hall
  refine ⟨htotal, by omega, ?_, by rw [hlen, htotal], hrep.1, fun hne => ?_⟩
  · rw [h.write, h.available]
    exact hall
  · obtain ⟨k, c', hrun, hpc, hresult, hsent, hheld⟩ := write_run h hidle hne (by omega)
    exact ⟨k, c', hrun, hpc, by rw [hresult, hlen, htotal], hsent, hheld⟩

theorem read_transfer (h : Holds N c.buf.readOffset (inBuffer c) c.buf) (hidle : c.consumer.pc.isIdle)
    (hmax : N ≤ sizeMax) (p : OutputConsumerActor α σ) (s : σ) :
    (operate sizeMax (readActorActions p) c.buf s).Returns (Reads sizeMax N c) := by
  have hfits := h.fits
  refine (operate_returns (reader_serves p) hmax s ⟨h, rfl⟩).mono fun t ht => ?_
  obtain ⟨htotal, hle, hall, hrep⟩ := ht.all
  rw [foldl_reader, ← htotal] at hrep
  have helems := accepted_reader hall
  rw [← htotal] at helems
  refine ⟨htotal, by omega, by rw [h.available]; exact hall, helems, hrep.1, fun hne => ?_⟩
  have hpos : 0 < t.totalTransferred := Nat.pos_of_ne_zero fun hzero => hne (by simp [helems, hzero])
  rw [helems]
  exact read_run h hidle hpos (by omega)

/-! ## Reachable buffers -/

/-- Nothing is under way, and the buffer holds what was sent and not received. -/
theorem Holds.inv (h : Holds N r q c.buf) (hN : 0 < N) (hp : c.producer.pc = .idle) (hq : c.consumer.pc = .idle)
    (hfifo : c.sent = c.received ++ q) (hproducer : c.producer.granted ≤ N - q.length)
    (hconsumer : c.consumer.granted ≤ q.length) : Inv N c := by
  obtain rfl := h.size
  obtain rfl := h.read
  have hfits := h.fits
  have hinside := h.inside
  have hw : c.buf.writeOffset < c.buf.bufferSize := by
    rw [h.write]
    exact Nat.mod_lt _ hN
  have hin : inBuffer c = q := by
    rw [inBuffer, hq, h.available]
    exact h.holds
  refine ⟨rfl, by rw [h.available]; exact hfits, hw, by omega, ?_, by rw [hin, hfifo], ⟨?_, ?_⟩, ⟨?_, ?_⟩⟩
  · rw [hp, hq, h.available, h.write]
    exact Nat.mod_mod _ _
  · rw [h.available]
    exact hproducer
  · rw [hp]
    trivial
  · rw [h.available]
    exact hconsumer
  · rw [hq]
    trivial

theorem pc_of_isIdle {pc : Pc α δ} (h : pc.isIdle) : pc = .idle := by
  cases pc with
  | idle => rfl
  | _ => cases h

theorem Inv.holds_of_isIdle (h : Inv N c) (hp : c.producer.pc.isIdle) (hq : c.consumer.pc.isIdle) :
    Holds N c.buf.readOffset (inBuffer c) c.buf := by
  refine h.holds ?_ ?_
  · rw [pc_of_isIdle hp]
    rfl
  · rw [pc_of_isIdle hq]
    rfl

theorem nextActor_ok (hN : 0 < N) (hmax : N ≤ sizeMax) (h : Inv N c) (a : ActorAct α σ) :
    (nextActor sizeMax c a).Ok (Inv N) := by
  have hgranted := h.producer.granted
  have hgranted' := h.consumer.granted
  rw [h.size] at hgranted
  cases a with
  | act a => exact next_ok h a
  | write p s =>
    simp only [nextActor, ok_bind, ok_requiring]
    intro ⟨hp, hq⟩
    have hholds := h.holds_of_isIdle hp hq
    refine (write_transfer hholds hp hmax p s).ok.mono fun t ht => ?_
    have hlen := ht.length
    have hav := hholds.available
    refine ht.holds.inv hN rfl (pc_of_isIdle hq) ?_ ?_ ?_
    · rw [← List.append_assoc, ← h.fifo]
    · simp only [List.length_append]
      omega
    · simp only [List.length_append]
      omega
  | read p s =>
    simp only [nextActor, ok_bind, ok_requiring]
    intro ⟨hp, hq⟩
    have hholds := h.holds_of_isIdle hp hq
    refine (read_transfer hholds hq hmax p s).ok.mono fun t ht => ?_
    have hav := hholds.available
    refine ht.holds.inv hN (pc_of_isIdle hp) rfl ?_ ?_ ?_
    · rw [ht.elems, List.append_assoc, List.take_append_drop]
      exact h.fifo
    · simp only [List.length_drop]
      omega
    · simp only [List.length_drop]
      omega

/-! ## A buffer of no cells -/

/-- Where a party can be. -/
def Pc.Still : Pc α δ → Prop
  | .loop .. => False
  | .copied xs _ => xs = []
  | _ => True

/-- Nothing ever is in it. -/
structure NoCells (c : Config α) : Prop where
  holds : Holds 0 0 [] c.buf
  producer : c.producer.granted = 0 ∧ c.producer.pc.Still
  consumer : c.consumer.granted = 0 ∧ c.consumer.pc.Still
  sent : c.sent = []
  received : c.received = []

theorem Holds.advance_failed (h : Holds 0 0 [] b) (offset n : Nat) : advance b.bufferSize offset n = .failed := by
  rw [h.size]
  rfl

theorem step_noCells {A : Actions α δ} {p : Party α δ} (hp : p.granted = 0 ∧ p.pc.Still)
    (hube : A.availableUntilBufferEnd b = .next 0) (hupdate : (A.update b 0).Yields fun s => Holds 0 0 [] s.1)
    (hmove : ∀ n, A.move b n = .failed) (h : Holds 0 0 [] b) :
    (p.step A b).Yields fun s => Holds 0 0 [] s.1 ∧ (s.2.1.granted = 0 ∧ s.2.1.pc.Still) ∧ s.2.2 = [] := by
  obtain ⟨hgranted, hstill⟩ := hp
  unfold Party.step
  cases hpc : p.pc with
  | idle => exact yields_blocked
  | entered d =>
    simp only [hube, yields_bind, yields_asserting, next_bind, if_true, pure_eq, yields_next]
    exact fun _ => ⟨h, ⟨hgranted, trivial⟩, trivial⟩
  | loop => rw [hpc] at hstill; exact hstill.elim
  | copied xs after =>
    rw [hpc] at hstill
    obtain rfl : xs = [] := hstill
    simp only [yields_bind, pure_eq, yields_next, List.length_nil]
    exact hupdate.mono fun s hs => ⟨hs, ⟨by rw [hgranted], trivial⟩, trivial⟩
  | updated n ret after =>
    simp only [hmove, failed_bind]
    exact yields_failed

theorem next_noCells (h : NoCells c) (a : Act α) : (next c a).Yields NoCells := by
  obtain ⟨hholds, hproducer, hconsumer, hsent, hreceived⟩ := h
  have hav := hholds.available
  have hsize := hholds.size
  have hread := hholds.read
  have hwrite := hholds.write
  cases a with
  | write data =>
    simp only [next, yields_bind, yields_requiring, pure_eq, yields_next]
    exact fun _ => ⟨hholds, ⟨hproducer.1, trivial⟩, hconsumer, hsent, hreceived⟩
  | spaceAvailable =>
    simp only [next, spaceAvailable, yields_bind, yields_requiring, yields_asserting, pure_eq, yields_next]
    exact fun _ _ => ⟨hholds, ⟨by simp [hsize], trivial⟩, hconsumer, hsent, hreceived⟩
  | haveWritten xs =>
    simp only [next, yields_bind, yields_requiring, pure_eq, yields_next]
    rintro ⟨-, hlen⟩
    rw [hproducer.1] at hlen
    obtain rfl := List.length_eq_zero_iff.mp (Nat.le_zero.mp hlen)
    exact ⟨hholds, ⟨hproducer.1, rfl⟩, hconsumer, hsent, hreceived⟩
  | producer =>
    simp only [next, yields_bind]
    refine (step_noCells hproducer ?_ ?_ ?_ hholds).mono fun s hs => ?_
    · simp [writeActions, spaceAvailableUntilBufferEnd, spaceAvailable, hav, hsize, hwrite, sub, asserting]
    · simp only [writeActions, increaseDataAvailable, yields_bind, yields_asserting, pure_eq, yields_next]
      exact fun _ => hholds
    · intro n
      simp [writeActions, moveWriteOffset, hholds.advance_failed]
    · obtain ⟨hb, hp, hxs⟩ := hs
      exact yields_next.mpr ⟨hb, hp, hconsumer, by rw [hsent, hxs]; rfl, hreceived⟩
  | read size =>
    simp only [next, yields_bind, yields_requiring, pure_eq, yields_next]
    exact fun _ => ⟨hholds, hproducer, ⟨hconsumer.1, trivial⟩, hsent, hreceived⟩
  | dataAvailable =>
    simp only [next, yields_bind, yields_requiring, pure_eq, yields_next]
    exact fun _ => ⟨hholds, hproducer, ⟨hav, trivial⟩, hsent, hreceived⟩
  | haveRead size =>
    simp only [next, yields_bind, yields_requiring, pure_eq, yields_next]
    rintro ⟨-, hlen⟩
    rw [hconsumer.1] at hlen
    obtain rfl := Nat.le_zero.mp hlen
    exact ⟨hholds, hproducer, ⟨hconsumer.1, rfl⟩, hsent, hreceived⟩
  | consumer =>
    simp only [next, yields_bind]
    refine (step_noCells hconsumer ?_ ?_ ?_ hholds).mono fun s hs => ?_
    · simp [readActions, dataAvailableUntilBufferEnd, hav, hsize, hread, sub, asserting]
    · simp only [readActions, decreaseDataAvailable, yields_bind, yields_asserting, pure_eq, yields_next]
      exact fun _ _ => hholds
    · intro n
      simp [readActions, moveReadOffset, hholds.advance_failed]
    · obtain ⟨hb, hp, hxs⟩ := hs
      exact yields_next.mpr ⟨hb, hproducer, hp, hsent, by rw [hreceived, hxs]; rfl⟩

theorem NoCells.inBuffer_eq (h : NoCells c) : inBuffer c = [] := by
  rw [inBuffer, h.holds.available]
  rfl

theorem nextActor_noCells (h : NoCells c) (a : ActorAct α σ) : (nextActor sizeMax c a).Yields NoCells := by
  have hin := h.inBuffer_eq
  have hholds : Holds 0 c.buf.readOffset (inBuffer c) c.buf := by
    rw [hin, h.holds.read]
    exact h.holds
  cases a with
  | act a => exact next_noCells h a
  | write p s =>
    simp only [nextActor, yields_bind, yields_requiring]
    intro ⟨hp, hq⟩
    obtain ⟨t, ht, hwrites⟩ := (write_transfer hholds hp (Nat.zero_le sizeMax) p s).exists
    have hnone : accepted t.calls = [] := by
      have hfits := hwrites.holds.fits
      simp only [List.length_append] at hfits
      exact List.length_eq_zero_iff.mp (by omega)
    have hbuf := hwrites.holds
    rw [hnone, hin, h.holds.read] at hbuf
    rw [ht, yields_next]
    exact yields_next.mpr ⟨by simpa using hbuf, ⟨by simp [h.producer.1], trivial⟩, h.consumer,
      by simp [h.sent, hnone], h.received⟩
  | read p s =>
    simp only [nextActor, yields_bind, yields_requiring]
    intro ⟨hp, hq⟩
    obtain ⟨t, ht, hreads⟩ := (read_transfer hholds hq (Nat.zero_le sizeMax) p s).exists
    have hzero : t.totalTransferred = 0 := by
      have hinside := hreads.holds.inside
      rw [h.holds.read, Nat.mod_zero] at hinside
      omega
    have hbuf := hreads.holds
    have helems := hreads.elems
    rw [hzero, hin, h.holds.read] at hbuf
    rw [hin, List.take_nil] at helems
    rw [ht, yields_next]
    exact yields_next.mpr ⟨hbuf, h.producer, ⟨by simp [h.consumer.1], trivial⟩, h.sent,
      by simp [h.received, helems]⟩

/-- The buffer of any reachable state holds what is in it, and this is what was
sent and not received. -/
theorem reachable_holds {bufferSize : Nat} (hmax : bufferSize ≤ sizeMax)
    (h : Runs.Reachable (nextActor (σ := σ) sizeMax) (Init bufferSize) c) (hp : c.producer.pc.isIdle)
    (hq : c.consumer.pc.isIdle) :
    Holds bufferSize c.buf.readOffset (inBuffer c) c.buf ∧ c.sent = c.received ++ inBuffer c := by
  by_cases hpos : 0 < bufferSize
  · have hinv : Inv bufferSize c :=
      h.invariant (fun _ => init_inv hpos) fun _ a hi => nextActor_ok hpos hmax hi a
    exact ⟨hinv.holds_of_isIdle hp hq, hinv.fifo⟩
  · obtain rfl : bufferSize = 0 := by omega
    have hnone : NoCells c := by
      refine h.yields ?_ fun _ a hi => nextActor_noCells hi a
      rintro _ ⟨garbage, rfl⟩
      exact ⟨⟨rfl, rfl, rfl, rfl, Nat.le_refl 0, Nat.one_pos, rfl⟩, ⟨rfl, trivial⟩, ⟨rfl, trivial⟩, rfl, rfl⟩
    rw [hnone.inBuffer_eq, hnone.holds.read]
    exact ⟨hnone.holds, by rw [hnone.sent, hnone.received]; rfl⟩

/-- **Transfers by an actor and by copying agree**, in whatever state the two
parties are idle. -/
theorem actors_agree {bufferSize : Nat} (hmax : bufferSize ≤ sizeMax)
    (h : Runs.Reachable (nextActor (σ := σ) sizeMax) (Init bufferSize) c) (hp : c.producer.pc.isIdle)
    (hq : c.consumer.pc.isIdle) :
    c.sent = c.received ++ inBuffer c ∧
    (∀ (p : InputProducerActor α σ) (s : σ),
      (operate sizeMax (writeActorActions p) c.buf s).Returns (Writes sizeMax bufferSize c)) ∧
    ∀ (p : OutputConsumerActor α σ) (s : σ),
      (operate sizeMax (readActorActions p) c.buf s).Returns (Reads sizeMax bufferSize c) := by
  obtain ⟨hholds, hfifo⟩ := reachable_holds hmax h hp hq
  exact ⟨hfifo, write_transfer hholds hp hmax, read_transfer hholds hq hmax⟩

/-- It fills all the cells with ones. -/
def fills : InputProducerActor Nat Unit where
  act _ cells := ((), cells.map fun _ => 1, cells.length)
  length_eq _ _ := List.length_map _
  accepted_le _ _ := Nat.le_refl _

/-- It takes one element at most. -/
def takesOne : OutputConsumerActor Nat Unit where
  act _ elems := ((), min 1 elems.length)
  accepted_le _ _ := Nat.min_le_right ..

/-- A new buffer of three cells, from which one element was read after two were
written. -/
def oneLeft : List (ActorAct Nat Unit) :=
  [.act (.write [5, 6]), .act .producer, .act .producer, .act .producer, .act .producer,
   .act (.read 1), .act .consumer, .act .consumer, .act .consumer, .act .consumer]

theorem actors_agree_oneLeft : ∃ c : Config Nat,
    Runs.run (nextActor 100) ⟨new 3 fun _ => 0, ⟨.idle, 0, 0⟩, ⟨.idle, 0, 0⟩, [], []⟩ oneLeft = .next c ∧
    (operate 100 (writeActorActions fills) c.buf ()).Returns (Writes 100 3 c) ∧
    (operate 100 (readActorActions takesOne) c.buf ()).Returns (Reads 100 3 c) := by
  obtain ⟨c, hc, hp, hq⟩ : ∃ c : Config Nat, Runs.run (nextActor 100)
      ⟨new 3 fun _ => 0, ⟨.idle, 0, 0⟩, ⟨.idle, 0, 0⟩, [], []⟩ oneLeft = .next c ∧ c.producer.pc.isIdle ∧
      c.consumer.pc.isIdle := ⟨_, rfl, rfl, rfl⟩
  obtain ⟨-, hwrites, hreads⟩ := actors_agree (by decide) (.run (.init ⟨_, rfl⟩) hc) hp hq
  exact ⟨c, hc, hwrites fills (), hreads takesOne ()⟩

end CircBuffer
