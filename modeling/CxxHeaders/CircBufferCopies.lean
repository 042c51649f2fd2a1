/-
The circular buffer while one party is idle: it is a list (`Holds`), to which a
writing party adds what it copies, and from which a reading one takes
(`write_run`, `read_run`). The end of the array is met at most once by each.
-/
import CxxHeaders.CircBufferFifo

open Outcome

namespace CircBuffer

variable {α δ : Type} {N r : Nat} {q : List α} {b : CircBuffer α}

/-! ## What a buffer holds -/

/-- The elements in the buffer, from the offset on. The rest of the cells are
anything. -/
structure Holds (N r : Nat) (q : List α) (b : CircBuffer α) : Prop where
  size : b.bufferSize = N
  read : b.readOffset = r
  available : b.dataAvailable = q.length
  write : b.writeOffset = (r + q.length) % N
  fits : q.length ≤ N
  inside : r < max 1 N
  holds : Ring.slice N b.buffer r q.length = q

/-- The first of the written elements are accepted. -/
theorem Holds.written (h : Holds N r q b) (elems : List α) (hlen : elems.length ≤ N - q.length) {k : Nat}
    (hk : k ≤ elems.length) :
    Holds N r (q ++ elems.take k) { b with
      buffer := Ring.put N b.buffer b.writeOffset elems,
      dataAvailable := b.dataAvailable + k,
      writeOffset := (b.writeOffset + k) % N } := by
  have hfits := h.fits
  have htake : (elems.take k).length = k := by simp [hk]
  have hpos : b.writeOffset % N = (r + q.length) % N := by rw [h.write, Nat.mod_mod]
  refine ⟨h.size, h.read, by simp [h.available, htake], ?_, by simp; omega, h.inside, ?_⟩
  · rw [List.length_append, htake, h.write, Nat.mod_add_mod, Nat.add_assoc]
  · rw [List.length_append, htake, Ring.slice_add, Ring.slice_put_other _ _ hpos (by omega), h.holds,
      ← Ring.slice_congr_start _ hpos, ← Ring.slice_take _ _ hk, Ring.slice_put _ _ _ (by omega)]

/-- The first of the elements are taken out. -/
theorem Holds.taken (h : Holds N r q b) {k : Nat} (hk : k ≤ q.length) :
    Holds N ((r + k) % N) (q.drop k) { b with
      dataAvailable := b.dataAvailable - k, readOffset := (b.readOffset + k) % N } := by
  have hfits := h.fits
  have hinside := h.inside
  refine ⟨h.size, by rw [h.read], by simp [h.available], ?_, by simp; omega, ?_, ?_⟩
  · rw [List.length_drop, Nat.mod_add_mod, Nat.add_assoc, Nat.add_sub_cancel' hk, h.write]
  · by_cases hpos : 0 < N
    · have hlt := Nat.mod_lt (r + k) hpos
      omega
    · have hzero : N = 0 := by omega
      subst hzero
      simp at hfits
      simp [hfits] at hk ⊢
      omega
  · have hsplit : Ring.slice N b.buffer r (k + (q.length - k)) = _ := Ring.slice_add b.buffer r k (q.length - k)
    rw [Nat.add_sub_cancel' hk, h.holds] at hsplit
    have hdrop := (congrArg (List.drop k) hsplit).trans (List.drop_left' (Ring.slice_length ..))
    rw [List.length_drop, Ring.slice_mod]
    exact hdrop.symm

theorem mod_lt_max {k N : Nat} (h : N = 0 → k = 0) : k % N < max 1 N := by
  by_cases hN : N = 0
  · subst hN
    simp [h rfl]
  · have hlt := Nat.mod_lt k (Nat.pos_of_ne_zero hN)
    omega

theorem Holds.write_lt (h : Holds N r q b) : (r + q.length) % N < max 1 N := by
  have hfits := h.fits
  have hinside := h.inside
  exact mod_lt_max fun hN => by omega

/-- What the buffer holds where nothing is under way. -/
theorem Inv.holds {c : Config α} (h : Inv N c) (hp : c.producer.pc.pending = 0) (hq : c.consumer.pc.pending = 0) :
    Holds N c.buf.readOffset (inBuffer c) c.buf := by
  have ⟨hN, hav, hw, hr, hring, _, _, _⟩ := h
  subst hN
  rw [hp, hq, Nat.add_zero, Nat.add_zero, Nat.mod_eq_of_lt hw] at hring
  have hlen : (inBuffer c).length = c.buf.dataAvailable := Ring.slice_length ..
  refine ⟨rfl, rfl, hlen.symm, by rw [hlen, hring], by rw [hlen]; exact hav, by omega, ?_⟩
  rw [hlen, inBuffer, hq, Nat.add_zero]

/-! ## The steps of one party -/

/-- A party, the buffer, and what it has handed over. -/
def partyNext (A : Actions α δ) (s : CircBuffer α × Party α δ × List α) (_ : Unit) :
    Outcome (CircBuffer α × Party α δ × List α) := do
  let (b, p, xs) ← s.2.1.step A s.1
  return (b, p, s.2.2 ++ xs)

theorem run_producer {c : Config α} {k : Nat} {s : CircBuffer α × Party α (List α) × List α}
    (h : Runs.run (partyNext writeActions) (c.buf, c.producer, c.sent) (List.replicate k ()) = .next s) :
    Runs.run next c (List.replicate k .producer) =
      .next { c with buf := s.1, producer := s.2.1, sent := s.2.2 } := by
  have hrun := Runs.run_map next (f := fun s => { c with buf := s.1, producer := s.2.1, sent := s.2.2 })
    (g := fun _ => .producer) ?_ h
  · rwa [List.map_replicate] at hrun
  · intro s _ t hst
    obtain ⟨⟨b, p, xs⟩, hstep, hm⟩ := bind_eq_next.mp hst
    cases hm
    simp [next, hstep]

theorem run_consumer {c : Config α} {k : Nat} {s : CircBuffer α × Party α (Dest α) × List α}
    (h : Runs.run (partyNext readActions) (c.buf, c.consumer, c.received) (List.replicate k ()) = .next s) :
    Runs.run next c (List.replicate k .consumer) =
      .next { c with buf := s.1, consumer := s.2.1, received := s.2.2 } := by
  have hrun := Runs.run_map next (f := fun s => { c with buf := s.1, consumer := s.2.1, received := s.2.2 })
    (g := fun _ => .consumer) ?_ h
  · rwa [List.map_replicate] at hrun
  · intro s _ t hst
    obtain ⟨⟨b, p, xs⟩, hstep, hm⟩ := bind_eq_next.mp hst
    cases hm
    simp [next, hstep]

/-! ## Rounds of the loop -/

variable {A : Actions α δ} {p : Party α δ} {d rest : δ} {xs : List α} {b' : CircBuffer α}
  {n aUBE newAUBE transferred : Nat}

/-- What is copied in a round, and what is left to copy. -/
def Copies (A : Actions α δ) (b : CircBuffer α) (d : δ) (n : Nat) (xs : List α) (rest : δ) (b' : CircBuffer α)
    (newAUBE : Nat) : Prop :=
  xs.length = n ∧ ∃ b₁ b₂ ret, A.copyAction b d n = .next (b₁, xs, rest) ∧ A.update b₁ n = .next (b₂, ret) ∧
    A.move b₂ n = .next b' ∧ A.retUbe b' ret = .next newAUBE

theorem run_entered (ys : List α) (hpc : p.pc = .entered d) (hsize : A.size d > 0)
    (hube : A.availableUntilBufferEnd b = .next aUBE) (hne : aUBE ≠ 0) :
    ∃ p' : Party α δ, p'.pc = .loop aUBE 0 d ∧
      Runs.run (partyNext A) (b, p, ys) (List.replicate 1 ()) = .next (b, p', ys) := by
  refine ⟨⟨.loop aUBE 0 d, p.granted, p.result⟩, rfl, ?_⟩
  simp only [List.replicate, Runs.run, partyNext, Party.step, hpc, asserting_true hsize, hube, if_neg hne,
    next_bind, pure_eq, List.append_nil]

/-- A round after which there is more to copy, and room for it. -/
theorem run_round (ys : List α) (hpc : p.pc = .loop aUBE transferred d) (hpos : 0 < aUBE) (hlt : aUBE < A.size d)
    (h : Copies A b d aUBE xs rest b' newAUBE) (hne : newAUBE ≠ 0) :
    ∃ p' : Party α δ, p'.pc = .loop newAUBE (transferred + aUBE) rest ∧
      Runs.run (partyNext A) (b, p, ys) (List.replicate 3 ()) = .next (b', p', ys ++ xs) := by
  obtain ⟨hlen, b₁, b₂, ret, hcopy, hupdate, hmove, hret⟩ := h
  refine ⟨⟨.loop newAUBE (transferred + aUBE) rest, p.granted - aUBE, p.result⟩, rfl, ?_⟩
  have hge : ¬aUBE ≥ A.size d := Nat.not_le.mpr hlt
  simp only [List.replicate, Runs.run, partyNext, Party.step, hpc, asserting_true hpos, asserting_true hlt,
    if_neg hge, if_neg hne, next_bind, hcopy, hlen, hupdate, hmove, hret, pure_eq, List.append_nil]

/-- The last round. -/
theorem run_last (ys : List α) (hpc : p.pc = .loop aUBE transferred d) (hpos : 0 < aUBE) (hge : A.size d ≤ aUBE)
    (h : Copies A b d (A.size d) xs rest b' newAUBE) :
    ∃ p' : Party α δ, p'.pc = .idle ∧ p'.result = transferred + A.size d ∧
      Runs.run (partyNext A) (b, p, ys) (List.replicate 3 ()) = .next (b', p', ys ++ xs) := by
  obtain ⟨hlen, b₁, b₂, ret, hcopy, hupdate, hmove, -⟩ := h
  refine ⟨⟨.idle, p.granted - A.size d, transferred + A.size d⟩, rfl, rfl, ?_⟩
  simp only [List.replicate, Runs.run, partyNext, Party.step, hpc, asserting_true hpos, if_pos hge, next_bind,
    hcopy, hlen, hupdate, hmove, pure_eq, List.append_nil]

theorem run_replicate_add {s s₁ s₂ : CircBuffer α × Party α δ × List α} {j k : Nat}
    (h : Runs.run (partyNext A) s (List.replicate j ()) = .next s₁)
    (h' : Runs.run (partyNext A) s₁ (List.replicate k ()) = .next s₂) :
    Runs.run (partyNext A) s (List.replicate (j + k) ()) = .next s₂ := by
  rw [List.replicate_add, Runs.run_append, h, next_bind, h']

/-! ## Copying into the buffer -/

theorem write_copies (h : Holds N r q b) (data : List α) (hN : 0 < N) (hn : n ≤ data.length)
    (hroom : q.length + n ≤ N) (hend : b.writeOffset + n ≤ N) :
    ∃ b', Copies writeActions b data n (data.take n) (data.drop n) b'
        (min (N - (q.length + n)) (N - (b.writeOffset + n) % N)) ∧
      Holds N r (q ++ data.take n) b' := by
  obtain rfl := h.size
  have hlen : (data.take n).length = n := by simp [hn]
  have hw : b.writeOffset < b.bufferSize := by
    rw [h.write]
    exact Nat.mod_lt _ hN
  have hheld := h.written (data.take n) (by omega) (k := n) (by omega)
  rw [List.take_take, Nat.min_self] at hheld
  have hnew : (b.writeOffset + n) % b.bufferSize < b.bufferSize := Nat.mod_lt _ hN
  have hle : n ≤ b.bufferSize := by omega
  refine ⟨_, ⟨hlen, _, _, _, write_copyAction hn hend, write_update hle, write_move hw hle, ?_⟩, hheld⟩
  rw [← h.available]
  exact write_retUbe (by rw [h.available]; exact hroom) hnew

/-- The data is written at once, or in two parts of which the first one ends with
the array. -/
theorem write_rounds {p : Party α (List α)} {data : List α} (h : Holds N r q b) (hne : data ≠ [])
    (hroom : q.length + data.length ≤ N) (hpc : p.pc = .loop (min (N - q.length) (N - b.writeOffset)) 0 data)
    (ys : List α) :
    ∃ k b' p', Runs.run (partyNext writeActions) (b, p, ys) (List.replicate k ()) = .next (b', p', ys ++ data) ∧
      p'.pc = .idle ∧ p'.result = data.length ∧ Holds N r (q ++ data) b' := by
  have hpos := List.length_pos_iff.mpr hne
  have hN : 0 < N := by omega
  have hw : b.writeOffset < N := by
    rw [h.write]
    exact Nat.mod_lt _ hN
  by_cases hfit : data.length ≤ min (N - q.length) (N - b.writeOffset)
  · obtain ⟨b', hcopies, hheld⟩ := write_copies h data hN (Nat.le_refl _) hroom (by omega)
    rw [List.take_length] at hcopies hheld
    obtain ⟨p', hp', hresult, hrun⟩ := run_last ys hpc (by omega) hfit hcopies
    exact ⟨3, b', p', hrun, hp', hresult.trans (Nat.zero_add _), hheld⟩
  · have hend : b.writeOffset + min (N - q.length) (N - b.writeOffset) = N := by omega
    obtain ⟨b₁, hcopies, hheld⟩ := write_copies h data hN
      (n := min (N - q.length) (N - b.writeOffset)) (by omega) (by omega) (Nat.le_of_eq hend)
    rw [hend, Nat.mod_self] at hcopies
    generalize hn : min (N - q.length) (N - b.writeOffset) = n at *
    obtain ⟨p₁, hp₁, hrun₁⟩ := run_round ys hpc (by omega) (by show n < data.length; omega) hcopies (by omega)
    have hw₁ : b₁.writeOffset = 0 := by
      rw [hheld.write, List.length_append, ← Nat.add_assoc, ← Nat.mod_add_mod, ← h.write, List.length_take,
        Nat.min_eq_left (by omega), hend, Nat.mod_self]
    have hlen : (data.drop n).length = data.length - n := List.length_drop ..
    have hlen' : (q ++ data.take n).length = q.length + n := by simp; omega
    obtain ⟨b', hcopies', hheld'⟩ := write_copies hheld (data.drop n) hN (Nat.le_refl _)
      (by omega) (by omega)
    rw [List.take_length] at hcopies' hheld'
    obtain ⟨p', hp', hresult, hrun⟩ := run_last (ys ++ data.take n) hp₁ (by omega)
      (by show (data.drop n).length ≤ _; omega) hcopies'
    rw [List.append_assoc, List.take_append_drop] at hrun hheld'
    refine ⟨3 + 3, b', p', run_replicate_add hrun₁ hrun, hp', ?_, hheld'⟩
    rw [hresult, show writeActions.size (data.drop n) = (data.drop n).length from rfl]
    omega

theorem write_run {c : Config α} {data : List α} (h : Holds N r q c.buf) (hidle : c.producer.pc.isIdle)
    (hne : data ≠ []) (hroom : q.length + data.length ≤ N) :
    ∃ k c', Runs.run next c (.write data :: List.replicate k .producer) = .next c' ∧
      c'.producer.pc = .idle ∧ c'.producer.result = data.length ∧ c'.sent = c.sent ++ data ∧
      Holds N r (q ++ data) c'.buf := by
  have hpos := List.length_pos_iff.mpr hne
  have hw : c.buf.writeOffset < N := by
    rw [h.write]
    exact Nat.mod_lt _ (by omega)
  have hube : writeActions.availableUntilBufferEnd c.buf =
      .next (min (N - q.length) (N - c.buf.writeOffset)) := by
    obtain rfl := h.size
    rw [write_availableUntilBufferEnd (by rw [h.available]; omega) hw, h.available]
  obtain ⟨p₁, hp₁, hrun₁⟩ := run_entered (p := { c.producer with pc := .entered data }) c.sent rfl
    (show writeActions.size data > 0 from hpos) hube (by omega)
  obtain ⟨k, b', p', hrun, hp', hresult, hheld⟩ := write_rounds h hne hroom hp₁ c.sent
  have hcall : next c (.write data) = .next { c with producer := { c.producer with pc := .entered data } } := by
    simp [next, requiring_true (show c.producer.pc.isIdle ∧ data ≠ [] from ⟨hidle, hne⟩)]
  refine ⟨1 + k, { c with buf := b', producer := p', sent := c.sent ++ data }, ?_, hp', hresult, rfl, hheld⟩
  rw [Runs.run, hcall, next_bind]
  exact run_producer (run_replicate_add hrun₁ hrun)

/-! ## Copying out of the buffer -/

theorem read_copies (h : Holds N r q b) (d : Dest α) (hN : 0 < N) (hn : n ≤ d.want) (hroom : n ≤ q.length)
    (hend : r + n ≤ N) :
    ∃ b', Copies readActions b d n (q.take n) ⟨d.want - n, d.got ++ q.take n⟩ b'
        (min (q.length - n) (N - (r + n) % N)) ∧
      Holds N ((r + n) % N) (q.drop n) b' := by
  obtain rfl := h.size
  obtain rfl := h.read
  have hinside := h.inside
  have hr : b.readOffset < b.bufferSize := by omega
  have hle : n ≤ b.bufferSize := by omega
  have hslice : Ring.slice b.bufferSize b.buffer b.readOffset n = q.take n := by
    rw [← Ring.slice_take _ _ hroom, h.holds]
  have hcopy := read_copyAction hn hend
  rw [hslice] at hcopy
  have hnew : (b.readOffset + n) % b.bufferSize < b.bufferSize := Nat.mod_lt _ hN
  refine ⟨_, ⟨by simp [hroom], _, _, _, hcopy, read_update hle (by rw [h.available]; exact hroom),
    read_move hr hle, ?_⟩, h.taken hroom⟩
  rw [← h.available]
  exact read_retUbe _ hnew

/-- What is wanted is read at once, or in two parts of which the first one ends
with the array. -/
theorem read_rounds {p : Party α (Dest α)} {d : Dest α} (h : Holds N r q b) (hpos : 0 < d.want)
    (hroom : d.want ≤ q.length) (hpc : p.pc = .loop (min q.length (N - r)) 0 d) (ys : List α) :
    ∃ k b' p', Runs.run (partyNext readActions) (b, p, ys) (List.replicate k ()) =
        .next (b', p', ys ++ q.take d.want) ∧
      p'.pc = .idle ∧ p'.result = d.want ∧ Holds N ((r + d.want) % N) (q.drop d.want) b' := by
  have hfits := h.fits
  have hN : 0 < N := by omega
  have hr : r < N := by
    have hinside := h.inside
    omega
  by_cases hfit : d.want ≤ min q.length (N - r)
  · obtain ⟨b', hcopies, hheld⟩ := read_copies h d hN (Nat.le_refl _) hroom (by omega)
    obtain ⟨p', hp', hresult, hrun⟩ := run_last ys hpc (by omega) hfit hcopies
    exact ⟨3, b', p', hrun, hp', hresult.trans (Nat.zero_add _), hheld⟩
  · have hend : r + min q.length (N - r) = N := by omega
    obtain ⟨b₁, hcopies, hheld⟩ := read_copies h d hN (n := min q.length (N - r)) (by omega) (by omega)
      (Nat.le_of_eq hend)
    rw [hend, Nat.mod_self] at hcopies hheld
    generalize hn : min q.length (N - r) = n at *
    obtain ⟨p₁, hp₁, hrun₁⟩ := run_round ys hpc (by omega) (by show n < d.want; omega) hcopies (by omega)
    have hlen : (q.drop n).length = q.length - n := List.length_drop ..
    obtain ⟨b', hcopies', hheld'⟩ := read_copies hheld ⟨d.want - n, d.got ++ q.take n⟩ hN (Nat.le_refl _)
      (by show d.want - n ≤ _; omega) (by show 0 + (d.want - n) ≤ N; omega)
    obtain ⟨p', hp', hresult, hrun⟩ := run_last (ys ++ q.take n) hp₁ (by omega)
      (by show d.want - n ≤ _; omega) hcopies'
    have hwant : n + (d.want - n) = d.want := by omega
    have hmod : (0 + (d.want - n)) % N = (r + d.want) % N := by
      rw [← hwant, ← Nat.add_assoc, hend, Nat.add_mod_left, hwant, Nat.zero_add]
    rw [List.append_assoc, ← List.take_add, hwant] at hrun
    rw [hmod, List.drop_drop, hwant] at hheld'
    refine ⟨3 + 3, b', p', run_replicate_add hrun₁ hrun, hp', ?_, hheld'⟩
    rw [hresult, Nat.zero_add]
    exact hwant

theorem read_run {c : Config α} {n : Nat} (h : Holds N r q c.buf) (hidle : c.consumer.pc.isIdle) (hpos : 0 < n)
    (hroom : n ≤ q.length) :
    ∃ k c', Runs.run next c (.read n :: List.replicate k .consumer) = .next c' ∧
      c'.consumer.pc = .idle ∧ c'.consumer.result = n ∧ c'.received = c.received ++ q.take n ∧
      Holds N ((r + n) % N) (q.drop n) c'.buf := by
  have hfits := h.fits
  have hr : r < N := by
    have hinside := h.inside
    omega
  have hube : readActions.availableUntilBufferEnd c.buf = .next (min q.length (N - r)) := by
    obtain rfl := h.size
    obtain rfl := h.read
    rw [read_availableUntilBufferEnd hr, h.available]
  obtain ⟨p₁, hp₁, hrun₁⟩ := run_entered (p := { c.consumer with pc := .entered ⟨n, []⟩ }) c.received rfl
    (show readActions.size ⟨n, []⟩ > 0 from hpos) hube (by omega)
  obtain ⟨k, b', p', hrun, hp', hresult, hheld⟩ := read_rounds h (d := ⟨n, []⟩) hpos hroom hp₁ c.received
  have hcall : next c (.read n) = .next { c with consumer := { c.consumer with pc := .entered ⟨n, []⟩ } } := by
    simp [next, requiring_true (show c.consumer.pc.isIdle ∧ n ≠ 0 from ⟨hidle, Nat.pos_iff_ne_zero.mp hpos⟩)]
  refine ⟨1 + k, { c with buf := b', consumer := p', received := c.received ++ q.take n }, ?_, hp', hresult, rfl,
    hheld⟩
  rw [Runs.run, hcall, next_bind]
  exact run_consumer (run_replicate_add hrun₁ hrun)

end CircBuffer
