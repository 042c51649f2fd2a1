/-
Long division divides, for every width of two bits or more (`divides`).

The remainder has taken in as many bits as there were rounds (`Inv`), so there
is room to double it, also where the divisor has the highest bit set.
-/
import CxxHeaders.LongDivision
import CxxHeaders.UintArithmetic
import CxxHeaders.UintDivision
import Mathlib.Data.Nat.Bitwise

open Outcome Digits

namespace Uint

variable {N : Nat} {B : UnsignedType} {x y : Uint N B}

/-! ## Comparisons, and one bit -/

theorem foldl_or_eq_zero {w : Nat} (f : Nat → BitVec w) (l : List Nat) (acc : BitVec w) :
    l.foldl (fun acc i => acc ||| f i) acc = 0 ↔ acc = 0 ∧ ∀ i ∈ l, f i = 0 := by
  induction l generalizing acc with
  | nil => simp
  | cons i l ih =>
    rw [List.foldl_cons, ih, List.forall_mem_cons, ← and_assoc]
    exact and_congr_left fun _ => BitVec.or_eq_zero_iff

theorem isZero_iff : x.isZero ↔ x.toNat = 0 := by
  rw [isZero, beq_iff_eq, foldl_or_eq_zero]
  constructor
  · intro h
    rw [← ofBlocks_block x, toNat_ofBlocks (v := 0), Nat.zero_mod]
    intro i hi
    rw [h.2 i (List.mem_range.mpr hi), Nat.zero_div, Nat.zero_mod]
    rfl
  · intro h
    refine ⟨rfl, fun i _ => BitVec.eq_of_toNat_eq ?_⟩
    rw [toNat_block, h, Nat.zero_div, Nat.zero_mod]
    rfl

theorem ne_iff : x.ne y ↔ x.toNat ≠ y.toNat := by
  rw [ne, Bool.not_eq_true', ← Bool.not_eq_true, eq_iff]

theorem ge_iff : x.ge y ↔ y.toNat ≤ x.toNat := by
  rw [ge, Bool.not_eq_true', ← Bool.not_eq_true, lt_iff, Nat.not_lt]

theorem gt_iff : x.gt y ↔ y.toNat < x.toNat := lt_iff

theorem toNat_ofInt_zero : (ofInt 0 : Uint N B).toNat = 0 := by
  rw [toNat_ofInt (Nat.two_pow_pos 32), Nat.zero_mod]

theorem block_zero_lt (hN : 0 < N) : 0 < numOfBlocks N B := by
  have hspec := (numOfBlocks_spec N B).1
  by_contra hn
  rw [Nat.eq_zero_of_not_pos hn] at hspec
  omega

/-- The lowest bit of a number that is even. -/
theorem orBit_returns (hN : 0 < N) {n : Nat} (hx : x.toNat = 2 * n) (b : Bool) :
    (x.orBit 0 b).Returns fun z => z.toNat = 2 * n + b.toNat := by
  simp only [orBit, asserting_true hN, next_bind, Nat.zero_mod, Nat.zero_div, pure_eq, returns_next]
  cases b with
  | false => exact hx
  | true =>
    have hbits := B.bits_pos
    have hone : ((1 : BitVec B.bits) <<< 0).toNat = 1 := by rw [BitVec.shiftLeft_zero, toNat_one]
    obtain ⟨m, hm⟩ : ∃ m, (x.block 0).toNat = 2 ^ 1 * m := by
      obtain ⟨w, hw⟩ := Nat.exists_eq_succ_of_ne_zero hbits.ne'
      rw [toNat_block, Nat.mul_zero, Nat.pow_zero, Nat.div_one, hx, hw, Nat.pow_succ, Nat.mul_comm _ 2,
        Nat.mul_mod_mul_left]
      exact ⟨_, rfl⟩
    have hor : (x.block 0 ||| (1 : BitVec B.bits) <<< 0).toNat = (x.block 0).toNat + 1 := by
      have hadd := Nat.two_pow_add_eq_or_of_lt (show 1 < 2 ^ 1 by decide) m
      rw [BitVec.toNat_or, hone, hm]
      exact hadd.symm
    have hset := x.toNat_setBlock (block_zero_lt hN) (x.block 0 ||| (1 : BitVec B.bits) <<< 0)
    rw [hor, Nat.mul_zero, Nat.pow_zero, Nat.one_mul, Nat.one_mul, hx] at hset
    show (x.setBlock 0 (x.block 0 ||| (1 : BitVec B.bits) <<< 0)).toNat = 2 * n + 1
    omega

theorem isZero_and {bit : Uint N B} {k : Nat} (hbit : bit.toNat = 2 ^ k) :
    (!(x.and bit).isZero) = x.toNat.testBit k := by
  have hiff : (x.and bit).isZero ↔ x.toNat.testBit k = false := by
    rw [isZero_iff, and_toNat, hbit, Nat.and_two_pow]
    cases x.toNat.testBit k <;> simp
  cases hb : x.toNat.testBit k with
  | false => simp [hiff.mpr hb]
  | true =>
    have hne : ¬(x.and bit).isZero := fun hz => by
      rw [hiff.mp hz] at hb
      cases hb
    simp [hne]

namespace Division

/-- What holds where `k` rounds are left. -/
structure Inv (x y : Uint N B) (k : Nat) (s : Division N B) : Prop where
  left : LongDivision.Partial x.toNat y.toNat k s.quot.toNat s.rem.toNat
  le : k ≤ N
  bit : s.bit.toNat = 2 ^ k / 2

variable {k : Nat} {s : Division N B}

theorem start_returns (hN : 0 < N) (hx : x.Valid) (hy : y.toNat ≠ 0) :
    (start : Outcome (Division N B)).Returns (Inv x y N) := by
  have hone : (ofInt 1 : Uint N B).toNat = 1 := by
    rw [toNat_ofInt (by decide), Nat.mod_eq_of_lt (Nat.one_lt_two_pow (by omega))]
  have hvalid : (ofInt 1 : Uint N B).Valid := valid_iff.mpr (by
    rw [hone]
    exact Nat.one_lt_two_pow (by omega))
  obtain ⟨n, rfl⟩ := Nat.exists_eq_succ_of_ne_zero hN.ne'
  simp only [start, returns_bind]
  refine (shiftLeft_returns hvalid (Nat.sub_lt hN Nat.one_pos)).mono fun bit hbit => ?_
  refine ⟨?_, Nat.le_refl _, ?_⟩
  · simp only [toNat_ofInt_zero]
    exact .start (Nat.pos_of_ne_zero hy) (valid_iff.mp hx)
  · have hlt : 2 ^ n < 2 ^ (n + 1) := Nat.pow_lt_pow_succ (by decide)
    show bit.toNat = 2 ^ (n + 1) / 2
    rw [hbit, hone, Nat.one_mul, Nat.succ_sub_one, Nat.mod_eq_of_lt hlt, Nat.pow_succ,
      Nat.mul_div_cancel _ (by decide)]

theorem Inv.bit_eq_zero_iff (h : Inv x y k s) : s.bit.toNat = 0 ↔ k = 0 := by
  rw [h.bit]
  cases k with
  | zero => simp
  | succ k =>
    have hpos := Nat.two_pow_pos k
    rw [Nat.pow_succ]
    omega

/-- There is room for one bit more. -/
theorem Inv.room (h : Inv x y (k + 1) s) (hx : x.Valid) : 2 * s.rem.toNat + 1 < 2 ^ N := by
  have hsum : N - (k + 1) + (k + 1) = N := Nat.sub_add_cancel h.le
  have hlt := h.left.lt_two_pow (n := N - (k + 1)) (by rw [hsum]; exact valid_iff.mp hx)
  have hpow : 2 ^ (N - (k + 1) + 1) ≤ 2 ^ N := Nat.pow_le_pow_right (by decide) (by omega)
  rw [Nat.pow_succ] at hpow
  omega

theorem Inv.bit_eq (h : Inv x y (k + 1) s) : s.bit.toNat = 2 ^ k := by
  rw [h.bit, Nat.pow_succ, Nat.mul_div_cancel _ (by decide)]

/-- The remainder is doubled, and no bit of it is lost. -/
theorem Inv.doubled (h : Inv x y (k + 1) s) (hN : 2 ≤ N) (hx : x.Valid) :
    (s.rem.shiftLeft 1).Returns fun z => z.toNat = 2 * s.rem.toNat := by
  have hroom := h.room hx
  have hvalid : s.rem.Valid := valid_iff.mpr (by omega)
  refine (shiftLeft_returns hvalid hN).mono fun z hz => ?_
  rw [hz, Nat.pow_one, Nat.mul_comm, Nat.mod_eq_of_lt (by omega)]

theorem round_returns (h : Inv x y (k + 1) s) (hN : 2 ≤ N) (hx : x.Valid) (hy : y.Valid) :
    (s.round x y).Returns (Inv x y k) := by
  have hroom := h.room hx
  have hbit := h.bit_eq
  have hle : k ≤ N := Nat.le_of_succ_le h.le
  have hvalid : s.bit.Valid :=
    valid_iff.mpr (hbit ▸ Nat.pow_lt_pow_right (by decide) (Nat.lt_of_succ_le h.le))
  simp only [round, returns_bind]
  refine (h.doubled hN hx).mono fun rem hdouble => ?_
  refine (orBit_returns (by omega) hdouble _).mono fun rem htaken => ?_
  refine (shiftRight_returns hvalid hN).mono fun bit hnext => ?_
  rw [isZero_and hbit] at htaken
  have hnext : bit.toNat = 2 ^ k / 2 := by rw [hnext, hbit, Nat.pow_one]
  have hylt := valid_iff.mp hy
  have hb := Bool.toNat_le (x.toNat.testBit k)
  split
  · next hge =>
    have hge : y.toNat ≤ 2 * s.rem.toNat + (x.toNat.testBit k).toNat := htaken ▸ ge_iff.mp hge
    refine ⟨?_, hle, hnext⟩
    have hquot : (s.quot.or s.bit).toNat = s.quot.toNat + 2 ^ k := by
      obtain ⟨c, hc⟩ := h.left.dvd
      have hlt : 2 ^ k < 2 ^ (k + 1) := Nat.pow_lt_pow_succ (by decide)
      rw [or_toNat, hbit, hc, Nat.two_pow_add_eq_or_of_lt hlt]
    have hsub : (2 * s.rem.toNat + (x.toNat.testBit k).toNat + (2 ^ N - y.toNat)) % 2 ^ N =
        2 * s.rem.toNat + (x.toNat.testBit k).toNat - y.toNat := by
      have hsplit : 2 * s.rem.toNat + (x.toNat.testBit k).toNat + (2 ^ N - y.toNat) =
          2 * s.rem.toNat + (x.toNat.testBit k).toNat - y.toNat + 2 ^ N := by omega
      rw [hsplit, Nat.add_mod_right, Nat.mod_eq_of_lt (by omega)]
    simp only [hquot, sub_toNat _ hy, htaken, hsub]
    exact h.left.subtract hge
  · next hlt =>
    have hlt : 2 * s.rem.toNat + (x.toNat.testBit k).toNat < y.toNat := by
      rw [← htaken]
      exact Nat.lt_of_not_le fun hle => hlt (ge_iff.mpr hle)
    refine ⟨?_, hle, hnext⟩
    rw [htaken]
    exact h.left.skip hlt

/-- One round after another, as long as the loop goes on. -/
def next (x y : Uint N B) (s : Division N B) (_ : Unit) : Outcome (Division N B) := do
  requiring (s.bit.ne (ofInt 0))
  s.round x y

theorem ne_zero_iff (s : Division N B) : s.bit.ne (ofInt 0) ↔ s.bit.toNat ≠ 0 := by
  rw [ne_iff, toNat_ofInt_zero]

theorem reachable_inv (hN : 2 ≤ N) (hx : x.Valid) (hy : y.Valid) (hne : y.toNat ≠ 0)
    (h : Runs.Reachable (next x y) (start = .next ·) s) : ∃ k, Inv x y k s := by
  refine h.invariant (I := fun s => ∃ k, Inv x y k s) (fun s hs => ?_) fun s _ hs => ?_
  · have hstart := start_returns (B := B) (by omega) hx hne
    rw [hs] at hstart
    exact ⟨N, hstart⟩
  · obtain ⟨k, hk⟩ := hs
    simp only [next, ok_bind, ok_requiring, ne_zero_iff]
    intro hbit
    cases k with
    | zero => exact absurd (hk.bit_eq_zero_iff.mpr rfl) hbit
    | succ k => exact (round_returns hk hN hx hy).ok.mono fun t ht => ⟨k, ht⟩

end Division

theorem eq_zero_iff : y.eq (ofInt 0) ↔ y.toNat = 0 := by rw [eq_iff, toNat_ofInt_zero]

theorem divMod_zero (hy : y.toNat = 0) : divMod x y = .next (.error divisionByZero) :=
  if_pos (eq_zero_iff.mpr hy)

theorem divMod_returns (hN : 2 ≤ N) (hx : x.Valid) (hy : y.Valid) (hne : y.toNat ≠ 0) :
    (divMod x y).Returns fun r =>
      ∃ d, r = .ok d ∧ d.quot.toNat * y.toNat + d.rem.toNat = x.toNat ∧ d.rem.toNat < y.toNat := by
  have hloop : ∀ s, Division.Inv x y N s →
      (whileLoop (fun s => s.bit.ne (ofInt 0)) (Division.round x y) (N + 1) s).Returns
        (Division.Inv x y 0) := by
    intro s hs
    refine whileLoop_returns (I := Division.Inv x y)
      (fun k s hs => ⟨?_, Division.round_returns hs hN hx hy⟩) (fun s hs => ?_) hs (Nat.lt_succ_self N)
    · rw [Division.ne_zero_iff, Ne, hs.bit_eq_zero_iff]
      exact Nat.succ_ne_zero k
    · rw [← Bool.not_eq_true, Division.ne_zero_iff, not_not]
      exact hs.bit_eq_zero_iff.mpr rfl
  simp only [divMod, if_neg (eq_zero_iff.not.mpr hne), returns_bind]
  refine (Division.start_returns (by omega) hx hne).mono fun s hs => ?_
  exact (hloop s hs).mono fun s hs => ⟨⟨s.quot, s.rem⟩, rfl, hs.left.done⟩

structure Divided (x y : Uint N B) : Prop where
  throws : divMod x y = .next (.error divisionByZero) ↔ y.toNat = 0
  divides : y.toNat ≠ 0 → (divMod x y).Returns fun r =>
    ∃ d, r = .ok d ∧ d.quot.toNat * y.toNat + d.rem.toNat = x.toNat ∧ d.rem.toNat < y.toNat
  /-- Whenever the remainder is doubled, there is room for it. -/
  room : y.toNat ≠ 0 → ∀ s, Runs.Reachable (Division.next x y) (Division.start = .next ·) s →
    s.bit.toNat ≠ 0 → (s.rem.shiftLeft 1).Returns fun z => z.toNat = 2 * s.rem.toNat

/-- **Long division divides**, whatever the blocks, and throws exactly where
the divisor is zero. -/
theorem divides (hN : 2 ≤ N) (hx : x.Valid) (hy : y.Valid) : Divided x y where
  throws := by
    refine ⟨fun h => ?_, divMod_zero⟩
    by_contra hne
    obtain ⟨r, hr, d, hd, -⟩ := (divMod_returns hN hx hy hne).exists
    rw [hr, hd] at h
    cases h
  divides := divMod_returns hN hx hy
  room hne s hs hbit := by
    obtain ⟨k, hk⟩ := Division.reachable_inv hN hx hy hne hs
    cases k with
    | zero => exact absurd (hk.bit_eq_zero_iff.mpr rfl) hbit
    | succ k => exact hk.doubled hN hx

/-- Thirteen bits in two bytes, of which the divisor has the highest one. -/
theorem divides_thirteenBits : Divided (ofInt 8191 : Uint 13 .uint8) (ofInt 5000) :=
  divides (by decide) (valid_iff.mpr (by decide)) (valid_iff.mpr (by decide))

end Uint
