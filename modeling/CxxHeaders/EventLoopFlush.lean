/-
When an iteration of the event loop empties the pipe that woke it up.

An error of `read` is taken for a size before it is looked at, and fails an
assertion: be it that the call was interrupted, or that the pipe was empty
already, which the loop finds out so where its bytes are a multiple of what it
asks for. And a call that returns less than it could ends the loop with bytes
left (`woken_iff`).
-/
import CxxHeaders.EventLoop

open Outcome

namespace EventLoop

variable {η : Type} {e : EpollEvent} {reads : Nat → Read} {s : State η} {n fuel : Nat}

theorem DISCARD_SIZE_pos (e : EpollEvent) : 0 < DISCARD_SIZE e := Nat.mul_pos e.pos (by decide)

theorem DISCARD_SIZE_lt (e : EpollEvent) : DISCARD_SIZE e < 2 ^ 63 := e.fits

/-! ## The loop -/

theorem flush_error {errno : Errno} (h : reads 0 = .error errno) : flush e (fuel + 1) reads s = .failed := by
  have hnot : ¬toSize (Read.error errno).result ≤ DISCARD_SIZE e := not_toSize_neg_one_le (DISCARD_SIZE_lt e)
  rw [flush]
  simp only [h, asserting, if_neg hnot, failed_bind]

theorem flush_bytes (h : reads 0 = .bytes n) (hpos : 1 ≤ n) (hle : n ≤ DISCARD_SIZE e) :
    flush e (fuel + 1) reads s =
      if n < DISCARD_SIZE e then .next (.continues, { s with pending := s.pending - n })
      else flush e fuel (laterCalls reads) { s with pending := s.pending - n } := by
  have hlt := DISCARD_SIZE_lt e
  have hsize : toSize (n : Int) = n := toSize_natCast (by omega)
  have hnot : ¬(n : Int) ≤ 0 := by omega
  rw [flush]
  simp only [h, Read.result, hsize, asserting_true hle, next_bind, if_neg hnot, State.taken, pure_eq]

/-- The calls empty a pipe with `n` bytes, and the last one is short. -/
def Empties (e : EpollEvent) (n : Nat) (reads : Nat → Read) : Prop :=
  n % DISCARD_SIZE e ≠ 0 ∧ (∀ k < n / DISCARD_SIZE e, reads k = .bytes (DISCARD_SIZE e)) ∧
    reads (n / DISCARD_SIZE e) = .bytes (n % DISCARD_SIZE e)

theorem not_empties_error {errno : Errno} (h : reads 0 = .error errno) : ¬Empties e n reads := by
  rintro ⟨-, hfull, hshort⟩
  rcases Nat.eq_zero_or_pos (n / DISCARD_SIZE e) with hz | hpos
  · rw [hz, h] at hshort
    cases hshort
  · rw [hfull 0 hpos] at h
    cases h

/-- A short read has to be all that is there. -/
theorem empties_short {m : Nat} (h : reads 0 = .bytes m) (hpos : 1 ≤ m) (hlt : m < DISCARD_SIZE e) :
    Empties e n reads ↔ n = m := by
  constructor
  · rintro ⟨-, hfull, hshort⟩
    rcases Nat.eq_zero_or_pos (n / DISCARD_SIZE e) with hz | hpos
    · rw [hz, h, Read.bytes.injEq] at hshort
      have hdiv := Nat.div_add_mod n (DISCARD_SIZE e)
      rw [hz] at hdiv
      omega
    · rw [hfull 0 hpos, Read.bytes.injEq] at h
      omega
  · rintro rfl
    unfold Empties
    rw [Nat.div_eq_of_lt hlt, Nat.mod_eq_of_lt hlt]
    exact ⟨Nat.ne_of_gt hpos, fun k hk => absurd hk (Nat.not_lt_zero k), h⟩

theorem empties_full (h : reads 0 = .bytes (DISCARD_SIZE e)) (hle : DISCARD_SIZE e ≤ n) :
    Empties e n reads ↔ Empties e (n - DISCARD_SIZE e) (laterCalls reads) := by
  have hpos := DISCARD_SIZE_pos e
  have hdiv : n / DISCARD_SIZE e = (n - DISCARD_SIZE e) / DISCARD_SIZE e + 1 := Nat.div_eq_sub_div hpos hle
  unfold Empties
  rw [hdiv, ← Nat.mod_eq_sub_mod hle]
  rw [Nat.forall_lt_succ_left]
  exact and_congr_right fun _ => and_congr_left fun _ => and_iff_right h

theorem Consistent.later (hc : Consistent e n reads) {m : Nat} (h : reads 0 = .bytes m) :
    Consistent e (n - m) (laterCalls reads) := by
  intro k
  have hk := hc (k + 1)
  simp only [total, h, Read.result, Int.toNat_natCast] at hk
  rw [Nat.sub_sub]
  exact hk

/-- It takes fuel to get anywhere. -/
theorem exists_fuel {Q : After × State η → Prop} :
    (∃ fuel, (flush e fuel reads s).Returns Q) ↔ ∃ fuel, (flush e (fuel + 1) reads s).Returns Q := by
  constructor
  · rintro ⟨fuel, h⟩
    cases fuel with
    | zero => exact absurd h (by simp [flush])
    | succ fuel => exact ⟨fuel, h⟩
  · rintro ⟨fuel, h⟩
    exact ⟨fuel + 1, h⟩

/-- **The loop.** By induction on the bytes in the pipe, where `Q` asks that
none are left. -/
theorem flush_iff {Q : After × State η → Prop} (hc : Consistent e s.pending reads)
    (hQ : ∀ left, Q (.continues, { s with pending := left }) ↔ left = 0) :
    (∃ fuel, (flush e fuel reads s).Returns Q) ↔ Empties e s.pending reads := by
  induction hn : s.pending using Nat.strongRecOn generalizing s reads with
  | ind n ih =>
    subst hn
    rw [exists_fuel]
    have hfits := hc 0
    cases h : reads 0 with
    | error errno =>
      -- taken for a size, it is too large
      simp only [flush_error h, returns_failed, exists_false, not_empties_error h]
    | bytes b =>
      rw [h] at hfits
      obtain ⟨hpos, hle, hmax⟩ := hfits
      simp only [total, Nat.sub_zero] at hle
      have hroom := DISCARD_SIZE_pos e
      simp only [flush_bytes h hpos hmax]
      rcases Nat.lt_or_ge b (DISCARD_SIZE e) with hlt | hge
      · have hall : s.pending - b = 0 ↔ s.pending = b := by omega
        simp only [if_pos hlt, returns_next, exists_const, hQ, hall, empties_short h hpos hlt]
      · obtain rfl : b = DISCARD_SIZE e := Nat.le_antisymm hmax hge
        simp only [Nat.lt_irrefl, if_false]
        rw [empties_full h hle]
        exact ih (s.pending - DISCARD_SIZE e) (by omega) (hc.later h) hQ rfl

/-! ## The other events -/

theorem handleRemaining_ofHandler (xs : List (η × EventSet)) (s : State η) :
    handleRemaining (xs.map ofHandler) s = .next { s with handled := s.handled ++ xs } := by
  induction xs generalizing s with
  | nil => simp [handleRemaining]
  | cons x xs ih => simp [handleRemaining, ofHandler, ih, State.handleEvent]

theorem handleEvents_signal (before after : List (η × EventSet)) (s : State η) :
    handleEvents e fuel reads (before.map ofHandler ++ signal :: after.map ofHandler) s =
      flush e fuel reads { s with handled := s.handled ++ (before ++ after) } := by
  induction before generalizing s with
  | nil =>
    have hfatal : ¬EPOLLIN &&& ALL_FATAL_EVENTS ≠ 0 := by decide
    have hinput : EPOLLIN &&& INPUT_DATA_EVENTS ≠ 0 := by decide
    simp only [List.map_nil, List.nil_append, handleEvents, signal, handleRemaining_ofHandler, next_bind,
      if_neg hfatal, asserting_true hinput]
  | cons x before ih => simp [handleEvents, ofHandler, ih, State.handleEvent]

/-! ## The iteration -/

theorem State.released {start : BitVec 32} (h : s.Spins start) : ¬s.loopIterationFinish.Spins start := by
  intro hstill
  have hsucc : s.loopCounter + 1 = s.loopCounter := hstill.trans h.symm
  exact absurd hsucc (by bv_omega)

theorem woken_finish {others : List (η × EventSet)} (left : Nat) :
    Woken s others (.continues, State.loopIterationFinish
      { s with pending := left, handled := s.handled ++ others }) ↔ left = 0 := by
  constructor
  · intro h
    exact h.empty
  · rintro rfl
    exact { continues := rfl, empty := rfl, handled := rfl, released := fun _ h => State.released h }

/-- **An iteration woken up by bytes in the pipe.** It empties the pipe, without
a failed assertion, handles all other events and is counted, if and only if the
bytes are no multiple of what a call can take, and each call takes what is there,
if it can. -/
theorem woken_iff (e : EpollEvent) (before after : List (η × EventSet)) (reads : Nat → Read) (s : State η)
    (hc : Consistent e s.pending reads) :
    (∃ fuel, (iteration e fuel reads (before.map ofHandler ++ signal :: after.map ofHandler) s).Returns
        (Woken s (before ++ after))) ↔
      Empties e s.pending reads := by
  unfold iteration
  simp only [handleEvents_signal, returns_bind, pure_eq, returns_next]
  exact flush_iff (s := { s with handled := s.handled ++ (before ++ after) }) hc woken_finish

/-- `sizeof(::epoll_event)` is 12 on x86-64. -/
def packed : EpollEvent := ⟨12, by decide, by decide⟩

def oneByte : Nat → Read
  | 0 => .bytes 1
  | _ + 1 => .error .eagain

theorem oneByte_consistent : Consistent packed 1 oneByte
  | 0 => by
    show 1 ≤ 1 ∧ 1 ≤ 1 ∧ 1 ≤ DISCARD_SIZE packed
    decide
  | k + 1 => by
    show 1 - (1 + total _ k) = 0
    omega

def woken : State Unit := ⟨1, 0, []⟩

theorem woken_one : ∃ fuel, (iteration packed fuel oneByte [signal] woken).Returns (Woken woken []) := by
  refine (woken_iff packed [] [] oneByte woken oneByte_consistent).2 ⟨by decide, fun k hk => ?_, by decide⟩
  exact absurd hk (Nat.not_lt_zero k)

/-- The first call was interrupted. -/
def interrupted : Nat → Read
  | 0 => .error .eintr
  | k + 1 => oneByte k

theorem interrupted_consistent : Consistent packed 1 interrupted
  | 0 => trivial
  | k + 1 => by
    have hk := oneByte_consistent k
    rw [← Nat.zero_add (total oneByte k)] at hk
    exact hk

/-- Then the assertion fails on it. -/
theorem interrupted_fails : Consistent packed 1 interrupted ∧
    (∀ fuel, iteration packed (fuel + 1) interrupted [signal] woken = .failed) ∧
      ¬∃ fuel, (iteration packed fuel interrupted [signal] woken).Returns (Woken woken []) := by
  have hfailed : ∀ fuel, iteration packed (fuel + 1) interrupted [signal] woken = .failed := fun _ => rfl
  refine ⟨interrupted_consistent, hfailed, ?_⟩
  rintro ⟨fuel, h⟩
  cases fuel with
  | zero => exact h
  | succ fuel =>
    rw [hfailed] at h
    exact h

end EventLoop
