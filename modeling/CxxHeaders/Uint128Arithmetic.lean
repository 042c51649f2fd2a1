/-
`uint128_t` is arithmetic modulo 2^128: what every operation does to the
numbers that its operands stand for.
-/
import CxxHeaders.Uint128
import CxxHeaders.LongDivision
import CxxHeaders.Words
import Mathlib.Algebra.Order.BigOperators.Group.List
import Mathlib.Data.Fintype.Basic
import Mathlib.Data.Nat.Bitwise
import Mathlib.Tactic.FinCases

open Outcome

namespace Uint128

def toNat (x : Uint128) : Nat := 2 ^ 64 * x.upper.toNat + x.lower.toNat

variable (x y : Uint128)

theorem toNat_lt : x.toNat < 2 ^ 128 := by
  have hu := x.upper.isLt
  have hl := x.lower.isLt
  unfold toNat
  omega

theorem toNat_flag (b : Bool) : (flag b).toNat = b.toNat := by cases b <;> rfl

theorem toNat_zero : (0 : BitVec 64).toNat = 0 := rfl

theorem toNat_ofLower (l : BitVec 64) : (ofLower l).toNat = l.toNat := by
  simp [toNat, ofLower]

theorem toNat_inj {x y : Uint128} (h : x.toNat = y.toNat) : x = y := by
  obtain ⟨xu, xl⟩ := x
  obtain ⟨yu, yl⟩ := y
  have hx := xl.isLt
  have hy := yl.isLt
  simp only [toNat] at h
  simp only [mk.injEq]
  exact ⟨BitVec.eq_of_toNat_eq (by omega), BitVec.eq_of_toNat_eq (by omega)⟩

/-! ## Bits -/

theorem testBit_toNat (i : Nat) :
    x.toNat.testBit i = if i < 64 then x.lower.getLsbD i else x.upper.getLsbD (i - 64) := by
  rw [toNat, Nat.testBit_two_pow_mul_add _ x.lower.isLt]
  rfl

theorem and_toNat : (x.and y).toNat = x.toNat &&& y.toNat := by
  refine Nat.eq_of_testBit_eq fun i => ?_
  simp only [Nat.testBit_and, testBit_toNat, and, BitVec.getLsbD_and]
  split <;> rfl

theorem xor_toNat : (x.xor y).toNat = x.toNat ^^^ y.toNat := by
  refine Nat.eq_of_testBit_eq fun i => ?_
  simp only [Nat.testBit_xor, testBit_toNat, xor, BitVec.getLsbD_xor]
  split <;> rfl

theorem or_toNat : (x.or y).toNat = x.toNat ||| y.toNat := by
  refine Nat.eq_of_testBit_eq fun i => ?_
  simp only [Nat.testBit_or, testBit_toNat, or, BitVec.getLsbD_or]
  split <;> rfl

theorem not_toNat : x.not.toNat = 2 ^ 128 - 1 - x.toNat := by
  have hu := x.upper.isLt
  have hl := x.lower.isLt
  simp only [toNat, not, BitVec.toNat_not]
  omega

theorem isZero_iff : x.isZero ↔ x.toNat = 0 := by
  have hor : x.isZero ↔ x.upper ||| x.lower = 0 := by simp [isZero]
  rw [hor]
  constructor
  · intro h
    obtain ⟨hu, hl⟩ := BitVec.or_eq_zero_iff.mp h
    simp [toNat, hu, hl]
  · intro h
    have hz : x = ⟨0, 0⟩ := toNat_inj (h.trans rfl)
    rw [hz]
    rfl

/-! ## Shifts -/

theorem shiftLeft_returns {shift : Nat} (h : shift < 128) :
    (x.shiftLeft shift).Returns fun z => z.toNat = x.toNat * 2 ^ shift % 2 ^ 128 := by
  have hsquare : (2 : Nat) ^ 128 = 2 ^ 64 * 2 ^ 64 := by decide
  unfold shiftLeft
  split
  · next h0 =>
    subst h0
    have hx := x.toNat_lt
    simp only [pure_eq, returns_next]
    omega
  · next h0 =>
    simp only [returns_bind, returns_asserting]
    refine ⟨h, ?_⟩
    split
    · next hlt =>
      have hw : shift + (64 - shift) = 64 := by omega
      simp only [pure_eq, returns_next, toNat, Words.toNat_shiftLeft_or hw, BitVec.toNat_shiftLeft,
        Nat.shiftLeft_eq]
      rw [hsquare, Words.shiftLeft_two hw]
    · next hge =>
      obtain ⟨t, rfl⟩ : ∃ t, shift = 64 + t := ⟨shift - 64, by omega⟩
      have hin : 2 ^ 64 * x.upper.toNat * 2 ^ t + x.lower.toNat * 2 ^ t =
          2 ^ 64 * (x.upper.toNat * 2 ^ t) + x.lower.toNat * 2 ^ t := by rw [Nat.mul_assoc]
      simp only [pure_eq, returns_next, toNat, Nat.add_sub_cancel_left, BitVec.toNat_shiftLeft,
        Nat.shiftLeft_eq, toNat_zero, Nat.add_zero]
      rw [hsquare, Nat.pow_add, ← Nat.mul_assoc, Nat.mul_comm _ (2 ^ 64), Nat.mul_assoc (2 ^ 64),
        Nat.mul_mod_mul_left, Nat.add_mul, hin, Nat.mul_add_mod]

theorem shiftRight_returns {shift : Nat} (h : shift < 128) :
    (x.shiftRight shift).Returns fun z => z.toNat = x.toNat / 2 ^ shift := by
  unfold shiftRight
  split
  · next h0 =>
    subst h0
    simp
  · next h0 =>
    simp only [returns_bind, returns_asserting]
    refine ⟨h, ?_⟩
    split
    · next hlt =>
      have hw : shift + (64 - shift) = 64 := by omega
      simp only [pure_eq, returns_next, toNat, Words.toNat_shiftRight_or hw, BitVec.toNat_ushiftRight,
        Nat.shiftRight_eq_div_pow]
      rw [Words.shiftRight_two hw]
    · next hge =>
      obtain ⟨t, rfl⟩ : ∃ t, shift = 64 + t := ⟨shift - 64, by omega⟩
      have hl := x.lower.isLt
      have hdiv : (2 ^ 64 * x.upper.toNat + x.lower.toNat) / 2 ^ 64 = x.upper.toNat := by omega
      simp only [pure_eq, returns_next, toNat, Nat.add_sub_cancel_left, BitVec.toNat_ushiftRight,
        Nat.shiftRight_eq_div_pow, toNat_zero, Nat.mul_zero, Nat.zero_add]
      rw [Nat.pow_add, ← Nat.div_div_eq_div_mul, hdiv]

/-! ## Sums and differences -/

theorem add_toNat : (x.add y).toNat = (x.toNat + y.toNat) % 2 ^ 128 := by
  have hx := x.lower.isLt
  have hy := y.lower.isLt
  simp only [toNat, add, BitVec.toNat_add, toNat_flag, BitVec.lt_def]
  by_cases h : (x.lower.toNat + y.lower.toNat) % 2 ^ 64 < x.lower.toNat
  · simp only [h, decide_true, Bool.toNat_true]
    omega
  · simp only [h, decide_false, Bool.toNat_false]
    omega

theorem sub_toNat : (x.sub y).toNat = (x.toNat + (2 ^ 128 - y.toNat)) % 2 ^ 128 := by
  have hx := x.lower.isLt
  have hy := y.lower.isLt
  have hx' := x.upper.isLt
  have hy' := y.upper.isLt
  simp only [toNat, sub, BitVec.toNat_sub, toNat_flag, gt_iff_lt, BitVec.lt_def]
  by_cases h : x.lower.toNat < (2 ^ 64 - y.lower.toNat + x.lower.toNat) % 2 ^ 64
  · simp only [h, decide_true, Bool.toNat_true]
    omega
  · simp only [h, decide_false, Bool.toNat_false]
    omega

theorem neg_toNat : x.neg.toNat = (2 ^ 128 - x.toNat) % 2 ^ 128 := by
  have hl := x.lower.isLt
  have hu := x.upper.isLt
  simp only [toNat, neg, BitVec.toNat_sub, BitVec.toNat_neg, toNat_flag, gt_iff_lt, BitVec.lt_def,
    toNat_zero]
  by_cases h : 0 < x.lower.toNat
  · simp only [h, decide_true, Bool.toNat_true]
    omega
  · simp only [h, decide_false, Bool.toNat_false]
    omega

/-! ## Comparisons -/

theorem eq_iff : x.eq y ↔ x.toNat = y.toNat := by
  have hiff : x.eq y ↔ x = y := by
    obtain ⟨xu, xl⟩ := x
    obtain ⟨yu, yl⟩ := y
    simp [eq]
  rw [hiff]
  exact ⟨congrArg toNat, toNat_inj⟩

theorem lt_iff : x.lt y ↔ x.toNat < y.toNat := by
  have hx := x.lower.isLt
  have hy := y.lower.isLt
  simp only [lt, toNat, Bool.or_eq_true, Bool.and_eq_true, decide_eq_true_eq, beq_iff_eq, BitVec.lt_def,
    BitVec.toNat_eq]
  omega

theorem ne_iff : x.ne y ↔ x.toNat ≠ y.toNat := by
  rw [Ne, ← eq_iff, ne]
  simp

theorem le_iff : x.le y ↔ x.toNat ≤ y.toNat := by
  rw [← Nat.not_lt, ← lt_iff, le, gt]
  simp

theorem ge_iff : x.ge y ↔ y.toNat ≤ x.toNat := by
  rw [← Nat.not_lt, ← lt_iff, ge]
  simp

/-! ## Products -/

theorem block_lt (i : Fin 4) : (x.block i).toNat < 2 ^ 32 := by
  have hu := x.upper.isLt
  have hl := x.lower.isLt
  fin_cases i <;> simp only [block, MASK, Words.toNat_lower, Words.toNat_upper] <;> omega

/-- The blocks are the digits of the number. -/
theorem toNat_blocks : x.toNat = 2 ^ 96 * (x.block 0).toNat + 2 ^ 64 * (x.block 1).toNat +
    2 ^ 32 * (x.block 2).toNat + (x.block 3).toNat := by
  simp only [toNat, block, MASK, Words.toNat_lower, Words.toNat_upper]
  omega

/-- No product of blocks is cut off. -/
theorem toNat_block_mul (i j : Fin 4) :
    (x.block i * y.block j).toNat = (x.block i).toNat * (y.block j).toNat :=
  Words.toNat_mul_halves (block_lt x i) (block_lt y j)

theorem toNat_foldl {l : List (BitVec 64)} {b : BitVec 64}
    (h : b.toNat + (l.map BitVec.toNat).sum < 2 ^ 64) :
    (l.foldl (· + ·) b).toNat = b.toNat + (l.map BitVec.toNat).sum := by
  induction l generalizing b with
  | nil => rfl
  | cons c l ih =>
    simp only [List.map_cons, List.sum_cons] at h ⊢
    have hadd : (b + c).toNat = b.toNat + c.toNat := by
      rw [BitVec.toNat_add, Nat.mod_eq_of_lt (by omega)]
    rw [List.foldl_cons, ih (by omega), hadd, Nat.add_assoc]

/-- Of what is added up, every number has 32 bits. -/
theorem summands_lt (i : Fin 4) : ∀ b ∈ summands x y i, b.toNat < 2 ^ 32 := by
  have hlow : ∀ b : BitVec 64, (b &&& MASK).toNat < 2 ^ 32 := fun b => by
    rw [MASK, Words.toNat_lower]
    omega
  have hhigh : ∀ b : BitVec 64, (b >>> 32).toNat < 2 ^ 32 := fun b => by
    have hb := b.isLt
    rw [Words.toNat_upper]
    omega
  fin_cases i <;> simp only [summands, List.forall_mem_cons, hlow, hhigh, List.not_mem_nil,
    false_imp_iff, implies_true, and_self]

theorem sum_summands_le (i : Fin 4) : ((summands x y i).map BitVec.toNat).sum ≤ 7 * 2 ^ 32 := by
  have hlength : (summands x y i).length ≤ 7 := by fin_cases i <;> simp [summands]
  have hsum := List.sum_le_card_nsmul ((summands x y i).map BitVec.toNat) (2 ^ 32) fun n hn => by
    obtain ⟨b, hb, rfl⟩ := List.mem_map.mp hn
    exact Nat.le_of_lt (summands_lt x y i b hb)
  rw [List.length_map, nsmul_eq_mul] at hsum
  exact hsum.trans (Nat.mul_le_mul_right _ hlength)

/-- **No sum loses a carry.** -/
theorem toNat_vals (i : Fin 4) : (vals x y i).toNat = ((summands x y i).map BitVec.toNat).sum := by
  have hle := sum_summands_le x y i
  rw [vals, toNat_foldl (by rw [toNat_zero]; omega), toNat_zero, Nat.zero_add]

theorem mul_toNat : (x.mul y).toNat = x.toNat * y.toNat % 2 ^ 128 := by
  have hvals := fun i => sum_summands_le x y i
  simp only [← toNat_vals] at hvals
  have h0 := hvals 0
  have h1 := hvals 1
  have h2 := hvals 2
  have h3 := hvals 3
  have hmul : (x.mul y).toNat = ((vals x y 0).toNat + 2 ^ 32 * (vals x y 1).toNat +
      2 ^ 64 * (vals x y 2).toNat + 2 ^ 96 * (vals x y 3).toNat) % 2 ^ 128 := by
    simp only [mul, add_toNat, toNat_ofLower]
    simp only [toNat, toNat_zero, Words.toNat_upper, BitVec.toNat_shiftLeft, Nat.shiftLeft_eq]
    omega
  have hprod : x.toNat * y.toNat = 2 ^ 128 * (2 ^ 64 * ((x.block 0).toNat * (y.block 0).toNat) +
      2 ^ 32 * ((x.block 0).toNat * (y.block 1).toNat + (x.block 1).toNat * (y.block 0).toNat) +
      ((x.block 0).toNat * (y.block 2).toNat + (x.block 1).toNat * (y.block 1).toNat +
        (x.block 2).toNat * (y.block 0).toNat)) +
      2 ^ 96 * ((x.block 0).toNat * (y.block 3).toNat + (x.block 1).toNat * (y.block 2).toNat +
        (x.block 2).toNat * (y.block 1).toNat + (x.block 3).toNat * (y.block 0).toNat) +
      2 ^ 64 * ((x.block 1).toNat * (y.block 3).toNat + (x.block 2).toNat * (y.block 2).toNat +
        (x.block 3).toNat * (y.block 1).toNat) +
      2 ^ 32 * ((x.block 2).toNat * (y.block 3).toNat + (x.block 3).toNat * (y.block 2).toNat) +
      (x.block 3).toNat * (y.block 3).toNat := by
    rw [toNat_blocks x, toNat_blocks y]
    ring
  rw [hmul, hprod]
  simp only [toNat_vals, summands, List.map_cons, List.map_nil, List.sum_cons, List.sum_nil,
    MASK, Words.toNat_lower, Words.toNat_upper, toNat_block_mul]
  omega

/-! ## Division -/

/-- A single bit. -/
theorem isZero_and {s : Uint128} {k : Nat} (hs : s.toNat = 2 ^ k) :
    (!(x.and s).isZero) = x.toNat.testBit k := by
  have hiff : (x.and s).isZero ↔ x.toNat.testBit k = false := by
    rw [isZero_iff, and_toNat, hs, Nat.and_two_pow]
    cases x.toNat.testBit k <;> simp
  cases hb : x.toNat.testBit k
  · simp [hiff.mpr hb]
  · have hne : ¬(x.and s).isZero := fun hz => by
      rw [hiff.mp hz] at hb
      cases hb
    simp [hne]

/-- The lowest bit is free. -/
theorem or_flag {r : Uint128} {n : Nat} (hr : r.toNat = 2 * n) (b : Bool) :
    ({ r with lower := r.lower ||| flag b } : Uint128).toNat = 2 * n + b.toNat := by
  obtain ⟨m, hm⟩ : ∃ m, r.lower.toNat = 2 * m := ⟨r.lower.toNat / 2, by unfold toNat at hr; omega⟩
  have hor : (r.lower ||| flag b).toNat = r.lower.toNat + b.toNat := by
    have hb : b.toNat < 2 ^ 1 := Bool.toNat_lt b
    have hadd := Nat.two_pow_add_eq_or_of_lt hb m
    rw [BitVec.toNat_or, toNat_flag, hm]
    exact hadd.symm
  unfold toNat at hr ⊢
  simp only [hor]
  omega

namespace Division

/-- What holds where `k` rounds are left. -/
structure Inv (k : Nat) (s : Division) : Prop where
  left : LongDivision.Partial x.toNat y.toNat k s.quotient.toNat s.reminder.toNat
  le : k ≤ 128
  bit : s.bit.toNat = 2 ^ k / 2

variable {x y} {k : Nat} {s : Division}

theorem Inv.start (hy : y.toNat ≠ 0) : Inv x y 128 .start :=
  ⟨.start (Nat.pos_of_ne_zero hy) x.toNat_lt, Nat.le_refl 128, rfl⟩

theorem Inv.bit_eq_zero_iff (h : Inv x y k s) : s.bit.toNat = 0 ↔ k = 0 := by
  rw [h.bit]
  cases k with
  | zero => simp
  | succ k =>
    have hpos := Nat.two_pow_pos k
    rw [Nat.pow_succ]
    omega

/-- There is room for one bit more. -/
theorem Inv.reminder_lt (h : Inv x y (k + 1) s) : s.reminder.toNat < 2 ^ 127 := by
  have hsum : 127 - k + (k + 1) = 128 := by have := h.le; omega
  have hlt := h.left.lt_two_pow (n := 127 - k) (by rw [hsum]; exact x.toNat_lt)
  exact Nat.lt_of_lt_of_le hlt (Nat.pow_le_pow_right (by decide) (Nat.sub_le 127 k))

theorem round_returns (h : Inv x y (k + 1) s) : (s.round x y).Returns (Inv x y k) := by
  have hroom := h.reminder_lt
  have hbit : s.bit.toNat = 2 ^ k := by rw [h.bit, Nat.pow_succ, Nat.mul_div_cancel _ (by decide)]
  simp only [round, returns_bind]
  refine (shiftLeft_returns s.reminder (by decide)).mono fun r hr => ?_
  refine (shiftRight_returns s.bit (by decide)).mono fun bit hnext => ?_
  have hdouble : r.toNat = 2 * s.reminder.toNat := by omega
  have htaken := or_flag hdouble (x.toNat.testBit k)
  rw [isZero_and x hbit]
  have hle : k ≤ 128 := Nat.le_of_succ_le h.le
  have hnext : bit.toNat = 2 ^ k / 2 := by rw [hnext, hbit, Nat.pow_one]
  have hy := y.toNat_lt
  have hb := Bool.toNat_le (x.toNat.testBit k)
  split
  · next hge =>
    have hge := (ge_iff _ y).mp hge
    have hpart := h.left.subtract (htaken ▸ hge)
    refine ⟨?_, hle, hnext⟩
    have hquot : (s.quotient.or s.bit).toNat = s.quotient.toNat + 2 ^ k := by
      obtain ⟨c, hc⟩ := h.left.dvd
      have hlt : 2 ^ k < 2 ^ (k + 1) := Nat.pow_lt_pow_succ (by decide)
      rw [or_toNat, hbit, hc, Nat.two_pow_add_eq_or_of_lt hlt]
    simp only [hquot, sub_toNat, htaken]
    rw [htaken] at hge
    have hsub : (2 * s.reminder.toNat + (x.toNat.testBit k).toNat + (2 ^ 128 - y.toNat)) % 2 ^ 128 =
        2 * s.reminder.toNat + (x.toNat.testBit k).toNat - y.toNat := by omega
    rw [hsub]
    exact hpart
  · next hlt =>
    have hlt : ¬y.toNat ≤ _ := fun hle => hlt ((ge_iff _ y).mpr hle)
    rw [htaken, Nat.not_le] at hlt
    refine ⟨?_, hle, hnext⟩
    rw [htaken]
    exact h.left.skip hlt

/-- One round after another, as long as the loop goes on. -/
def next (x y : Uint128) (s : Division) (_ : Unit) : Outcome Division := do
  requiring (s.bit.ne (ofLower 0))
  s.round x y

theorem ne_zero_iff (s : Division) : s.bit.ne (ofLower 0) ↔ s.bit.toNat ≠ 0 := by
  rw [ne_iff, toNat_ofLower]
  rfl

theorem reachable_inv (hy : y.toNat ≠ 0) (h : Runs.Reachable (next x y) (· = .start) s) :
    ∃ k, Inv x y k s := by
  refine h.invariant (I := fun s => ∃ k, Inv x y k s) ?_ fun s _ hs => ?_
  · intro s hs
    subst hs
    exact ⟨128, .start hy⟩
  obtain ⟨k, hk⟩ := hs
  simp only [next, ok_bind, ok_requiring, ne_zero_iff]
  intro hne
  cases k with
  | zero => exact absurd (hk.bit_eq_zero_iff.mpr rfl) hne
  | succ k => exact (round_returns hk).ok.mono fun t ht => ⟨k, ht⟩

end Division

theorem divMod_returns (hy : y.toNat ≠ 0) : (divMod x y).Returns fun r =>
    ∃ q m, r = .ok (q, m) ∧ q.toNat * y.toNat + m.toNat = x.toNat ∧ m.toNat < y.toNat := by
  have hne : ¬y.eq (ofLower 0) := by
    rw [eq_iff, toNat_ofLower]
    exact hy
  have hloop : (whileLoop (fun s => s.bit.ne (ofLower 0)) (Division.round x y) 129 .start).Returns
      (Division.Inv x y 0) := by
    refine whileLoop_returns (I := Division.Inv x y) (fun k s hs => ⟨?_, Division.round_returns hs⟩)
      (fun s hs => ?_) (.start hy) (by decide)
    · rw [Division.ne_zero_iff, Ne, hs.bit_eq_zero_iff]
      exact Nat.succ_ne_zero k
    · rw [← Bool.not_eq_true, Division.ne_zero_iff, not_not]
      exact hs.bit_eq_zero_iff.mpr rfl
  simp only [divMod, if_neg hne, returns_bind]
  refine hloop.mono fun s hs => ?_
  exact ⟨s.quotient, s.reminder, rfl, hs.left.done⟩

/-! ## Everything -/

structure Arithmetic (x y : Uint128) : Prop where
  add : (x.add y).toNat = (x.toNat + y.toNat) % 2 ^ 128
  sub : (x.sub y).toNat = (x.toNat + (2 ^ 128 - y.toNat)) % 2 ^ 128
  mul : (x.mul y).toNat = x.toNat * y.toNat % 2 ^ 128
  neg : x.neg.toNat = (2 ^ 128 - x.toNat) % 2 ^ 128
  increment : x.increment.toNat = (x.toNat + 1) % 2 ^ 128
  decrement : x.decrement.toNat = (x.toNat + (2 ^ 128 - 1)) % 2 ^ 128
  not : x.not.toNat = 2 ^ 128 - 1 - x.toNat
  and : (x.and y).toNat = x.toNat &&& y.toNat
  xor : (x.xor y).toNat = x.toNat ^^^ y.toNat
  or : (x.or y).toNat = x.toNat ||| y.toNat
  shiftLeft : ∀ shift < 128, (x.shiftLeft shift).Returns fun z => z.toNat = x.toNat * 2 ^ shift % 2 ^ 128
  shiftRight : ∀ shift < 128, (x.shiftRight shift).Returns fun z => z.toNat = x.toNat / 2 ^ shift
  eq : x.eq y ↔ x.toNat = y.toNat
  ne : x.ne y ↔ x.toNat ≠ y.toNat
  lt : x.lt y ↔ x.toNat < y.toNat
  gt : x.gt y ↔ y.toNat < x.toNat
  le : x.le y ↔ x.toNat ≤ y.toNat
  ge : x.ge y ↔ y.toNat ≤ x.toNat
  divMod : y.toNat ≠ 0 → (divMod x y).Returns fun r =>
    ∃ q m, r = .ok (q, m) ∧ q.toNat * y.toNat + m.toNat = x.toNat ∧ m.toNat < y.toNat
  /-- No product of blocks is cut off. -/
  products : ∀ i j, (x.block i * y.block j).toNat = (x.block i).toNat * (y.block j).toNat
  /-- No sum of them loses a carry. -/
  sums : ∀ i, (vals x y i).toNat = ((summands x y i).map BitVec.toNat).sum
  /-- The reminder is only doubled where there is room for it. -/
  room : y.toNat ≠ 0 → ∀ s, Runs.Reachable (Division.next x y) (· = .start) s → s.bit.toNat ≠ 0 →
    s.reminder.toNat < 2 ^ 127

/-- **Arithmetic modulo 2^128.** -/
theorem arithmetic : Arithmetic x y where
  add := add_toNat x y
  sub := sub_toNat x y
  mul := mul_toNat x y
  neg := neg_toNat x
  increment := by rw [increment, add_toNat, toNat_ofLower]; rfl
  decrement := by rw [decrement, sub_toNat, toNat_ofLower]; rfl
  not := not_toNat x
  and := and_toNat x y
  xor := xor_toNat x y
  or := or_toNat x y
  shiftLeft _ h := shiftLeft_returns x h
  shiftRight _ h := shiftRight_returns x h
  eq := eq_iff x y
  ne := ne_iff x y
  lt := lt_iff x y
  gt := lt_iff y x
  le := le_iff x y
  ge := ge_iff x y
  divMod := divMod_returns x y
  products := toNat_block_mul x y
  sums := toNat_vals x y
  room hy s h hbit := by
    obtain ⟨k, hk⟩ := Division.reachable_inv hy h
    cases k with
    | zero => exact absurd (hk.bit_eq_zero_iff.mpr rfl) hbit
    | succ k => exact hk.reminder_lt

end Uint128
