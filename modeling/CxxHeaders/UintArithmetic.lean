/-
`uint_t` is arithmetic modulo 2^N: what every operation does to the numbers
that its operands stand for, and that it keeps the unused bits at zero.
-/
import CxxHeaders.UintFacts

open Outcome Digits

namespace Uint

variable {N : Nat} {B : UnsignedType} {w : Nat} {x y : Uint N B}

/-! ## Bitwise operations -/

theorem not_toNat (hx : x.Valid) : x.not.toNat = 2 ^ N - 1 - x.toNat := by
  have hlt := valid_iff.mp hx
  have hcomplement : x.not.toNat = (2 ^ (B.bits * numOfBlocks N B) - 1 - x.toNat) % 2 ^ N := by
    refine toNat_ofBlocks_clear fun i hi => ?_
    rw [complement hi x.toNat_lt_blocks, BitVec.toNat_not, toNat_block]
  obtain ⟨c, hc⟩ := two_pow_dvd N B
  have hpos : 0 < c := Nat.pos_of_ne_zero fun h0 => by
    rw [h0, Nat.mul_zero] at hc
    exact absurd hc (Nat.two_pow_pos _).ne'
  obtain ⟨d, rfl⟩ : ∃ d, c = d + 1 := ⟨c - 1, by omega⟩
  rw [hcomplement, hc, Nat.mul_succ]
  have hsum : 2 ^ N * d + 2 ^ N - 1 - x.toNat = 2 ^ N - 1 - x.toNat + 2 ^ N * d := by omega
  rw [hsum, Nat.add_mul_mod_self_left, Nat.mod_eq_of_lt (by omega)]

theorem and_toNat : (x.and y).toNat = x.toNat &&& y.toNat := by
  have hlt : x.toNat &&& y.toNat < _ := Nat.lt_of_le_of_lt Nat.and_le_left x.toNat_lt_blocks
  rw [and, toNat_ofBlocks (v := x.toNat &&& y.toNat), Nat.mod_eq_of_lt hlt]
  intro i _
  rw [BitVec.toNat_and, toNat_block, toNat_block, Nat.and_div_two_pow, Nat.and_mod_two_pow]

theorem xor_toNat : (x.xor y).toNat = x.toNat ^^^ y.toNat := by
  have hlt := Nat.xor_lt_two_pow x.toNat_lt_blocks y.toNat_lt_blocks
  rw [xor, toNat_ofBlocks (v := x.toNat ^^^ y.toNat), Nat.mod_eq_of_lt hlt]
  intro i _
  rw [BitVec.toNat_xor, toNat_block, toNat_block, Nat.xor_div_two_pow, Nat.xor_mod_two_pow]

theorem or_toNat : (x.or y).toNat = x.toNat ||| y.toNat := by
  have hlt := Nat.or_lt_two_pow x.toNat_lt_blocks y.toNat_lt_blocks
  rw [or, toNat_ofBlocks (v := x.toNat ||| y.toNat), Nat.mod_eq_of_lt hlt]
  intro i _
  rw [BitVec.toNat_or, toNat_block, toNat_block, Nat.or_div_two_pow, Nat.or_mod_two_pow]

/-! ## Sums and differences -/

theorem toNat_flag (hw : 0 < w) (b : Bool) : (flag b : BitVec w).toNat = b.toNat := by
  have hone : 1 % 2 ^ w = 1 := Nat.mod_eq_of_lt (Nat.one_lt_two_pow (by omega))
  cases b <;> simp [flag, hone]

/-- The carry out of the sum of two blocks and a carry. -/
theorem carry_block (hw : 0 < w) (x y : BitVec w) (carry : Bool) {temp limit : BitVec w}
    (ht : temp = x + y + flag carry) (hl : limit = if y < x then y else x) :
    temp.toNat + 2 ^ w * (temp < limit || (carry && temp == limit) : Bool).toNat =
      x.toNat + y.toNat + carry.toNat := by
  have hx := x.isLt
  have hy := y.isLt
  have hc := Bool.toNat_le carry
  have hsum : temp.toNat = (x.toNat + y.toNat + carry.toNat) % 2 ^ w := by
    rw [ht, BitVec.toNat_add, BitVec.toNat_add, toNat_flag hw, Nat.mod_add_mod]
  have hlimit : limit.toNat = min x.toNat y.toNat := by
    rw [hl]
    split
    · next h =>
      rw [BitVec.lt_def] at h
      omega
    · next h =>
      rw [BitVec.lt_def] at h
      omega
  have hcarry : carry = true ↔ carry.toNat = 1 := by cases carry <;> simp
  have hiff : (temp < limit || (carry && temp == limit) : Bool) = true ↔
      temp.toNat < limit.toNat ∨ carry.toNat = 1 ∧ temp.toNat = limit.toNat := by
    simp only [Bool.or_eq_true, Bool.and_eq_true, decide_eq_true_eq, beq_iff_eq, BitVec.lt_def,
      BitVec.toNat_eq, hcarry]
  by_cases hover : x.toNat + y.toNat + carry.toNat < 2 ^ w
  · rw [Nat.mod_eq_of_lt hover] at hsum
    have hno : (temp < limit || (carry && temp == limit) : Bool) = false := by
      rw [← Bool.not_eq_true, hiff]
      omega
    rw [hno, hsum]
    rfl
  · have hmod : (x.toNat + y.toNat + carry.toNat) % 2 ^ w = x.toNat + y.toNat + carry.toNat - 2 ^ w := by
      rw [Nat.mod_eq_sub_mod (by omega), Nat.mod_eq_of_lt (by omega)]
    rw [hmod] at hsum
    have hyes : (temp < limit || (carry && temp == limit) : Bool) = true := by
      rw [hiff]
      omega
    rw [hyes, hsum, Bool.toNat_true]
    omega

theorem value_addBlocks (hw : 0 < w) (carry : Bool) {xs ys : List (BitVec w)}
    (h : xs.length = ys.length) :
    value (addBlocks carry xs ys) = (value xs + value ys + carry.toNat) % 2 ^ (w * xs.length) := by
  induction xs generalizing carry ys with
  | nil => simp [addBlocks, value, Nat.mod_one]
  | cons x xs ih =>
    cases ys with
    | nil => cases h
    | cons y ys =>
      have hstep := carry_block hw x y carry rfl rfl
      simp only [addBlocks, value, ih _ (Nat.succ.inj h)]
      rw [List.length_cons, two_pow_succ, Nat.add_comm, ← Words.mul_add_mod (BitVec.isLt _)]
      congr 1
      simp only [Nat.mul_add]
      omega

theorem add_toNat (x y : Uint N B) : (x.add y).toNat = (x.toNat + y.toNat) % 2 ^ N := by
  rw [add, toNat_clearUnusedBits, toNat, value_addBlocks B.bits_pos _ (length_eq x y), x.length_blocks,
    Nat.mod_mod_of_dvd _ (two_pow_dvd N B)]
  rfl

/-- The borrow out of the difference of two blocks and a borrow. -/
theorem borrow_block (hw : 0 < w) (x y : BitVec w) (borrow : Bool) {temp : BitVec w}
    (ht : temp = x - flag borrow) :
    (temp - y).toNat + y.toNat + borrow.toNat =
      x.toNat + 2 ^ w * (y > temp || (borrow && x == 0) : Bool).toNat := by
  have hx := x.isLt
  have hy := y.isLt
  have hb := Bool.toNat_le borrow
  have hborrow : borrow = true ↔ borrow.toNat = 1 := by cases borrow <;> simp
  have hiff : (y > temp || (borrow && x == 0) : Bool) = true ↔
      temp.toNat < y.toNat ∨ borrow.toNat = 1 ∧ x.toNat = 0 := by
    simp only [Bool.or_eq_true, Bool.and_eq_true, decide_eq_true_eq, beq_iff_eq, gt_iff_lt,
      BitVec.lt_def,
      BitVec.toNat_eq, hborrow]
    rfl
  have hfirst := Words.toNat_sub_cases x (flag borrow)
  have hsecond := Words.toNat_sub_cases temp y
  rw [toNat_flag hw, ← ht] at hfirst
  by_cases hlt : temp.toNat < y.toNat ∨ borrow.toNat = 1 ∧ x.toNat = 0
  · rw [hiff.mpr hlt, Bool.toNat_true]
    omega
  · rw [← hiff, Bool.not_eq_true] at hlt
    rw [hlt, Bool.toNat_false]
    rw [← Bool.not_eq_true, hiff] at hlt
    omega

theorem value_subBlocks (hw : 0 < w) (borrow : Bool) {xs ys : List (BitVec w)}
    (h : xs.length = ys.length) :
    value (subBlocks borrow xs ys) + value ys + borrow.toNat ≡ value xs [MOD 2 ^ (w * xs.length)] := by
  induction xs generalizing borrow ys with
  | nil => simp [Nat.modEq_one]
  | cons x xs ih =>
    cases ys with
    | nil => cases h
    | cons y ys =>
      have hstep := borrow_block hw x y borrow rfl
      have hrest := ((ih (y > x - flag borrow || (borrow && x == 0)) (Nat.succ.inj h)).mul_left'
        (2 ^ w)).add_left x.toNat
      simp only [Nat.mul_add (2 ^ w)] at hrest
      simp only [List.length_cons, two_pow_succ, subBlocks, value]
      refine Eq.trans (congrArg (· % _) ?_) hrest
      omega

/-- What is added to a difference to get the minuend back. -/
theorem sub_toNat_of_modEq {n d v u : Nat} (h : d + u ≡ v [MOD n]) (hu : u ≤ n) :
    d % n = (v + (n - u)) % n := by
  have hsum := h.add_right (n - u)
  have hcancel : d + u + (n - u) = d + n := by omega
  rw [hcancel] at hsum
  exact (Nat.add_mod_right d n).symm.trans hsum

theorem sub_toNat (x : Uint N B) {y : Uint N B} (hy : y.Valid) :
    (x.sub y).toNat = (x.toNat + (2 ^ N - y.toNat)) % 2 ^ N := by
  have hsub := value_subBlocks B.bits_pos false (length_eq x y)
  rw [x.length_blocks] at hsub
  rw [sub, toNat_clearUnusedBits]
  exact sub_toNat_of_modEq (hsub.of_dvd (two_pow_dvd N B)) (Nat.le_of_lt (valid_iff.mp hy))

theorem neg_toNat (hx : x.Valid) : x.neg.toNat = (2 ^ N - x.toNat) % 2 ^ N := by
  rw [neg, sub_toNat _ hx, toNat_ofInt (by decide), Nat.zero_mod, Nat.zero_add]

theorem value_incrementBlocks (hw : 0 < w) (carry : BitVec w) (bs : List (BitVec w)) :
    value (incrementBlocks carry bs) ≡ value bs + carry.toNat [MOD 2 ^ (w * bs.length)] := by
  induction bs generalizing carry with
  | nil => simp [Nat.modEq_one]
  | cons b bs ih =>
    have hcases := Words.toNat_add_cases b carry
    have hb := b.isLt
    have hcarry : (flag (b + carry < carry) : BitVec w).toNat = (decide (b + carry < carry)).toNat :=
      toNat_flag hw _
    have hrest := ((ih (flag (b + carry < carry))).mul_left' (2 ^ w)).add_left (b + carry).toNat
    simp only [Nat.mul_add (2 ^ w)] at hrest
    simp only [List.length_cons, two_pow_succ, incrementBlocks, value]
    refine hrest.trans (congrArg (· % _) ?_)
    rw [hcarry]
    by_cases hlt : (b + carry).toNat < carry.toNat
    · simp only [BitVec.lt_def, hlt, decide_true, Bool.toNat_true]
      omega
    · simp only [BitVec.lt_def, hlt, decide_false, Bool.toNat_false]
      omega

theorem value_decrementBlocks (hw : 0 < w) (borrow : BitVec w) (bs : List (BitVec w)) :
    value (decrementBlocks borrow bs) + borrow.toNat ≡ value bs [MOD 2 ^ (w * bs.length)] := by
  induction bs generalizing borrow with
  | nil => simp [Nat.modEq_one]
  | cons b bs ih =>
    have hcases := Words.toNat_sub_cases b borrow
    have hborrow : (flag (borrow > b) : BitVec w).toNat = (decide (borrow > b)).toNat := toNat_flag hw _
    have hrest := ((ih (flag (borrow > b))).mul_left' (2 ^ w)).add_left b.toNat
    simp only [Nat.mul_add (2 ^ w)] at hrest
    simp only [List.length_cons, two_pow_succ, decrementBlocks, value]
    refine Eq.trans (congrArg (· % _) ?_) hrest
    rw [hborrow]
    by_cases hlt : b.toNat < borrow.toNat
    · simp only [gt_iff_lt, BitVec.lt_def, hlt, decide_true, Bool.toNat_true]
      omega
    · simp only [gt_iff_lt, BitVec.lt_def, hlt, decide_false, Bool.toNat_false]
      omega

theorem toNat_one (B : UnsignedType) : (1 : BitVec B.bits).toNat = 1 := by cases B <;> rfl

theorem increment_toNat (x : Uint N B) : x.increment.toNat = (x.toNat + 1) % 2 ^ N := by
  have hinc := value_incrementBlocks B.bits_pos 1 x.blocks
  rw [x.length_blocks, toNat_one] at hinc
  rw [increment, toNat_clearUnusedBits]
  exact hinc.of_dvd (two_pow_dvd N B)

theorem decrement_toNat (x : Uint N B) : x.decrement.toNat = (x.toNat + (2 ^ N - 1)) % 2 ^ N := by
  have hdec := value_decrementBlocks B.bits_pos 1 x.blocks
  rw [x.length_blocks, toNat_one] at hdec
  rw [decrement, toNat_clearUnusedBits]
  exact sub_toNat_of_modEq (hdec.of_dvd (two_pow_dvd N B)) (Nat.one_le_two_pow)

/-! ## Comparisons -/

theorem ofBlocks_block (x : Uint N B) : ofBlocks x.block = x := by
  refine toNat_inj ?_
  rw [toNat_ofBlocks fun i _ => toNat_block x i]
  exact Nat.mod_eq_of_lt x.toNat_lt_blocks

theorem eq_iff : x.eq y ↔ x.toNat = y.toNat := by
  constructor
  · intro h
    have hblocks : ∀ i ∈ List.range (numOfBlocks N B), x.block i = y.block i := fun i hi =>
      beq_iff_eq.mp (List.all_eq_true.mp h i hi)
    have hxy : x = y := by
      rw [← ofBlocks_block x, ← ofBlocks_block y]
      simp only [ofBlocks, List.map_congr_left hblocks]
    rw [hxy]
  · intro h
    rw [toNat_inj h]
    exact List.all_eq_true.mpr fun _ _ => beq_self_eq_true _

/-- The blocks looked at are those of the number's upper part. -/
theorem ltFrom_iff (i : Nat) :
    ltFrom x y i ↔ x.toNat % 2 ^ (B.bits * i) < y.toNat % 2 ^ (B.bits * i) := by
  induction i with
  | zero => simp [ltFrom, Nat.mod_one]
  | succ i ih =>
    have hx := Nat.mod_lt x.toNat (Nat.two_pow_pos (B.bits * i))
    have hy := Nat.mod_lt y.toNat (Nat.two_pow_pos (B.bits * i))
    rw [ltFrom, two_pow_succ, Nat.mul_comm, Nat.mod_mul, Nat.mod_mul, ← toNat_block, ← toNat_block]
    simp only [BitVec.lt_def, gt_iff_lt]
    split
    · next h =>
      have hmul := Nat.mul_le_mul_left (2 ^ (B.bits * i)) (Nat.succ_le_of_lt h)
      rw [Nat.mul_succ] at hmul
      exact iff_of_true rfl (by omega)
    · next hle =>
      split
      · next h =>
        have hmul := Nat.mul_le_mul_left (2 ^ (B.bits * i)) (Nat.succ_le_of_lt h)
        rw [Nat.mul_succ] at hmul
        exact iff_of_false (by simp) (by omega)
      · next hge =>
        have heq : (x.block i).toNat = (y.block i).toNat := by omega
        rw [ih, heq]
        omega

theorem lt_iff : x.lt y ↔ x.toNat < y.toNat := by
  rw [lt, ltFrom_iff, Nat.mod_eq_of_lt x.toNat_lt_blocks, Nat.mod_eq_of_lt y.toNat_lt_blocks]

/-! ## Shifts by a number -/

theorem rounds_spec (N : Nat) (B : UnsignedType) :
    min N 64 ≤ B.bits * rounds N B ∧ B.bits * rounds N B ≤ 64 ∧ rounds N B ≤ numOfBlocks N B := by
  cases B <;> simp only [rounds, numOfBlocks, UnsignedType.bits, UnsignedType.sizeof] <;> omega

/-- The first blocks, as a number. -/
theorem toNat_foldl_xor (x : Uint N B) {k : Nat} (hk : B.bits * k ≤ 64) :
    ((List.range k).foldl
      (fun (out : BitVec 64) i => out ^^^ (x.block i).setWidth 64 <<< (B.bits * i)) 0).toNat =
      x.toNat % 2 ^ (B.bits * k) := by
  induction k with
  | zero => simp [Nat.mod_one]
  | succ k ih =>
    rw [Nat.mul_succ] at hk
    have hlt := Nat.mod_lt x.toNat (Nat.two_pow_pos (B.bits * k))
    have hblock : (x.block k).toNat < 2 ^ 64 :=
      Nat.lt_of_lt_of_le (x.block k).isLt (Nat.pow_le_pow_right (by decide) (by omega))
    have hshift : 2 ^ (B.bits * k) * (x.block k).toNat < 2 ^ 64 := by
      refine Nat.lt_of_lt_of_le (Nat.mul_lt_mul_of_pos_left (x.block k).isLt (Nat.two_pow_pos _)) ?_
      rw [← Nat.pow_add]
      exact Nat.pow_le_pow_right (by decide) hk
    rw [List.range_succ, List.foldl_append, List.foldl_cons, List.foldl_nil, BitVec.toNat_xor,
      ih (by omega),
      BitVec.toNat_shiftLeft, Nat.shiftLeft_eq, BitVec.toNat_setWidth, Nat.mod_eq_of_lt hblock,
      Nat.mul_comm (x.block k).toNat,
      Nat.mod_eq_of_lt hshift, Words.two_pow_mul_xor hlt, toNat_block, two_pow_succ,
      Nat.mul_comm (2 ^ B.bits),
      Nat.mod_mul, Nat.add_comm]

theorem asUint64_toNat (hx : x.Valid) : x.asUint64.toNat = x.toNat % 2 ^ 64 := by
  obtain ⟨hmin, hmax, -⟩ := rounds_spec N B
  have hlt := valid_iff.mp hx
  rw [asUint64, toNat_foldl_xor x hmax]
  by_cases hN : N ≤ 64
  · have hin : x.toNat < 2 ^ (B.bits * rounds N B) :=
      Nat.lt_of_lt_of_le hlt (Nat.pow_le_pow_right (by decide) (by omega))
    rw [Nat.mod_eq_of_lt hin,
      Nat.mod_eq_of_lt (Nat.lt_of_lt_of_le hlt (Nat.pow_le_pow_right (by decide) hN))]
  · have hall : B.bits * rounds N B = 64 := by omega
    rw [hall]

theorem shiftLeftBy_returns (hx : x.Valid) (hy : y.Valid) (hN : N < 2 ^ 32) (h : y.toNat < N) :
    (x.shiftLeftBy y).Returns fun z => z.toNat = x.toNat * 2 ^ y.toNat % 2 ^ N := by
  have hshift : y.asUint64.toNat = y.toNat := by
    rw [asUint64_toNat hy, Nat.mod_eq_of_lt (by omega)]
  rw [shiftLeftBy, hshift]
  exact shiftLeft_returns hx h

theorem shiftRightBy_returns (hx : x.Valid) (hy : y.Valid) (hN : N < 2 ^ 32) (h : y.toNat < N) :
    (x.shiftRightBy y).Returns fun z => z.toNat = x.toNat / 2 ^ y.toNat := by
  have hshift : y.asUint64.toNat = y.toNat := by
    rw [asUint64_toNat hy, Nat.mod_eq_of_lt (by omega)]
  rw [shiftRightBy, hshift]
  exact shiftRight_returns hx h

/-! ## Products -/

theorem multHiLoDouble_value (u v : BitVec w) :
    2 ^ w * (multHiLoDouble u v).hi.toNat + (multHiLoDouble u v).lo.toNat = u.toNat * v.toNat := by
  have hsquare : 2 ^ (2 * w) = 2 ^ w * 2 ^ w := by rw [Nat.two_mul, Nat.pow_add]
  have hlt : u.toNat * v.toNat < 2 ^ w * 2 ^ w := Nat.mul_lt_mul'' u.isLt v.isLt
  have hwide : ∀ b : BitVec w, (b.setWidth (2 * w)).toNat = b.toNat := fun b => by
    rw [BitVec.toNat_setWidth]
    exact Nat.mod_eq_of_lt (Nat.lt_of_lt_of_le b.isLt (Nat.pow_le_pow_right (by decide) (by omega)))
  simp only [multHiLoDouble, BitVec.toNat_setWidth, BitVec.toNat_ushiftRight, Nat.shiftRight_eq_div_pow,
    BitVec.toNat_mul, hwide, hsquare, Nat.mod_eq_of_lt hlt]
  rw [Nat.mod_eq_of_lt (Nat.div_lt_of_lt_mul hlt), Nat.div_add_mod]

theorem multHiLo64_value (u v : BitVec 64) :
    2 ^ 64 * (multHiLo64 u v).hi.toNat + (multHiLo64 u v).lo.toNat = u.toNat * v.toNat := by
  have hu := u.isLt
  have hv := v.isLt
  have hlow : ∀ b : BitVec 64, b.toNat % 2 ^ 32 ≤ 2 ^ 32 - 1 := fun b => by omega
  have hhigh : ∀ b : BitVec 64, b.toNat / 2 ^ 32 ≤ 2 ^ 32 - 1 := fun b => by
    have hb := b.isLt
    omega
  have h00 := Nat.mul_le_mul (hlow u) (hlow v)
  have h01 := Nat.mul_le_mul (hlow u) (hhigh v)
  have h10 := Nat.mul_le_mul (hhigh u) (hlow v)
  have h11 := Nat.mul_le_mul (hhigh u) (hhigh v)
  have hprod : u.toNat * v.toNat = 2 ^ 64 * (u.toNat / 2 ^ 32 * (v.toNat / 2 ^ 32)) +
      2 ^ 32 * (u.toNat / 2 ^ 32 * (v.toNat % 2 ^ 32) + u.toNat % 2 ^ 32 * (v.toNat / 2 ^ 32)) +
      u.toNat % 2 ^ 32 * (v.toNat % 2 ^ 32) := by
    conv_lhs => rw [← Nat.div_add_mod u.toNat (2 ^ 32), ← Nat.div_add_mod v.toNat (2 ^ 32)]
    ring
  rw [hprod]
  simp only [multHiLo64, BitVec.toNat_add, BitVec.toNat_mul, BitVec.toNat_shiftLeft, Nat.shiftLeft_eq,
    Words.toNat_lower, Words.toNat_upper]
  omega

theorem multHiLo_value (u v : BitVec B.bits) :
    2 ^ B.bits * (multHiLo B u v).hi.toNat + (multHiLo B u v).lo.toNat = u.toNat * v.toNat := by
  cases B with
  | uint64 => exact multHiLo64_value u v
  | _ => exact multHiLoDouble_value u v

/-- A column, as far as it is added up. -/
theorem addColumn_returns (hn : 1 < numOfBlocks N B) (i j : Nat) (carry : Uint N B) :
    (addColumn x y i carry j).Returns fun z =>
      z.toNat ≡ carry.toNat +
        ∑ k ∈ Finset.range j, (x.block k).toNat * (y.block (i - k)).toNat [MOD 2 ^ N] := by
  have hw : B.bits ≤ N := by
    have hspec := (numOfBlocks_spec N B).2
    have hmul := Nat.mul_le_mul_left B.bits hn
    omega
  induction j with
  | zero =>
    rw [Finset.range_zero, Finset.sum_empty]
    rfl
  | succ j ih =>
    simp only [addColumn, returns_bind]
    refine ih.mono fun carry hcarry => ?_
    have hmult := multHiLo_value (x.block j) (y.block (i - j))
    refine (shiftBlocksLeft_returns _ (Nat.le_of_lt hn)).mono fun temp htemp => ?_
    rw [toNat_ofUnsigned, Nat.mul_one, Nat.mod_mul_mod] at htemp
    -- There is nothing in the lowest block yet.
    have hempty : temp.block 0 = 0#B.bits := by
      refine BitVec.eq_of_toNat_eq ?_
      rw [toNat_block, htemp, Nat.mul_zero, Nat.pow_zero, Nat.div_one,
        Nat.mod_mod_of_dvd _ (Nat.pow_dvd_pow 2 hw), Nat.mul_mod_left, BitVec.toNat_zero]
    have hset := temp.toNat_setBlock (Nat.lt_trans Nat.zero_lt_one hn)
      (temp.leastSignificantBlock ||| (multHiLo B (x.block j) (y.block (i - j))).lo)
    rw [leastSignificantBlock, hempty, BitVec.zero_or, BitVec.toNat_zero, Nat.mul_zero, Nat.mul_zero,
      Nat.pow_zero, Nat.one_mul, Nat.add_zero, htemp] at hset
    have hsum : (temp.setBlock 0 (multHiLo B (x.block j) (y.block (i - j))).lo).toNat ≡
        (x.block j).toNat * (y.block (i - j)).toNat [MOD 2 ^ N] := by
      rw [← hmult, Nat.mul_comm (2 ^ B.bits)]
      refine Eq.trans (congrArg (· % _) hset) ?_
      exact (Nat.mod_modEq _ _).add_right _
    rw [pure_eq, returns_next, leastSignificantBlock, hempty, BitVec.zero_or, add_toNat,
      Finset.sum_range_succ,
      ← Nat.add_assoc]
    exact (Nat.mod_modEq _ _).trans (hcarry.add hsum)

/-- The columns, as far as they are in the result, and what is carried on. -/
theorem mulColumns_returns (hn : numOfBlocks N B ≠ 1) {n : Nat} (h : n ≤ numOfBlocks N B) :
    (mulColumns x y n).Returns fun r => r.1.toNat < 2 ^ (B.bits * n) ∧
      r.1.toNat + 2 ^ (B.bits * n) * r.2.toNat ≡
        ∑ i ∈ Finset.range n, 2 ^ (B.bits * i) * column (fun j => (x.block j).toNat)
          (fun k => (y.block k).toNat) i [MOD 2 ^ N] := by
  induction n with
  | zero =>
    simp only [mulColumns, pure_eq, returns_next, toNat_ofInt (Nat.two_pow_pos 32), Nat.zero_mod]
    exact ⟨Nat.two_pow_pos _, by simp [Nat.ModEq]⟩
  | succ n ih =>
    simp only [mulColumns, returns_bind]
    refine (ih (Nat.le_of_succ_le h)).mono fun r hrest => ?_
    obtain ⟨result, carry⟩ := r
    obtain ⟨hlt, hrest⟩ := hrest
    dsimp only at hlt hrest
    refine (addColumn_returns (by omega) n (n + 1) carry).mono fun carry' hcarry => ?_
    refine (shiftBlocksRight_returns carry' (by omega)).mono fun carry'' hshift => ?_
    rw [Nat.mul_one] at hshift
    have hset := result.toNat_setBlock (i := n) h carry'.leastSignificantBlock
    rw [toNat_block, Nat.div_eq_of_lt hlt, Nat.zero_mod, Nat.mul_zero, Nat.add_zero,
      leastSignificantBlock,
      toNat_block, Nat.mul_zero, Nat.pow_zero, Nat.div_one] at hset
    have hdigit := Nat.mod_lt carry'.toNat (Nat.two_pow_pos B.bits)
    have hsplit := Nat.mod_add_div carry'.toNat (2 ^ B.bits)
    have hplace : (2 : Nat) ^ (B.bits * (n + 1)) = 2 ^ (B.bits * n) * 2 ^ B.bits := by
      rw [two_pow_succ, Nat.mul_comm]
    simp only [pure_eq, returns_next, leastSignificantBlock]
    refine ⟨?_, ?_⟩
    · have hmul := Nat.mul_le_mul_left (2 ^ (B.bits * n)) (Nat.succ_le_of_lt hdigit)
      rw [Nat.mul_succ] at hmul
      rw [hset, hplace]
      omega
    · have hvalue : result.toNat + 2 ^ (B.bits * n) * (carry'.toNat % 2 ^ B.bits) +
          2 ^ (B.bits * n) * 2 ^ B.bits * (carry'.toNat / 2 ^ B.bits) =
          result.toNat + 2 ^ (B.bits * n) * carry'.toNat := by
        conv_rhs => rw [← hsplit]
        ring
      rw [hset, hshift, hplace, hvalue, Finset.sum_range_succ]
      have hcolumn := (hcarry.mul_left (2 ^ (B.bits * n))).add_left result.toNat
      rw [Nat.mul_add, ← Nat.add_assoc] at hcolumn
      exact hcolumn.trans (hrest.add_right _)

theorem mul_returns (x y : Uint N B) :
    (x.mul y).Returns fun z => z.toNat = x.toNat * y.toNat % 2 ^ N := by
  unfold mul
  split
  · next h1 =>
    have hx := x.toNat_lt_blocks
    have hy := y.toNat_lt_blocks
    have hdvd := two_pow_dvd N B
    rw [h1, Nat.mul_one] at hx hy hdvd
    rw [pure_eq, returns_next, toNat_clearUnusedBits, toNat_ofUnsigned, BitVec.toNat_mul,
      leastSignificantBlock,
      leastSignificantBlock, toNat_block, toNat_block, Nat.mul_zero, Nat.pow_zero, Nat.div_one, Nat.div_one,
      Nat.mod_eq_of_lt hx, Nat.mod_eq_of_lt hy, Nat.mod_mod, Nat.mod_mod_of_dvd _ hdvd]
  · next hn =>
    simp only [returns_bind]
    refine (mulColumns_returns hn (Nat.le_refl _)).mono fun r hresult => ?_
    obtain ⟨result, carry⟩ := r
    have hcolumns := sum_columns x.blocks (fun k => (y.block k).toNat) (numOfBlocks N B)
    have hdigits := sum_digits y.blocks
    rw [y.length_blocks] at hdigits
    have hcarry : 2 ^ (B.bits * numOfBlocks N B) * carry.toNat ≡ 0 [MOD 2 ^ N] :=
      (Nat.modEq_zero_iff_dvd.mpr (Dvd.dvd.mul_right (two_pow_dvd N B) _))
    have hprod : result.toNat ≡ x.toNat * y.toNat [MOD 2 ^ N] := by
      refine (hcarry.symm.add_left result.toNat).trans (hresult.2.trans ?_)
      refine (hcolumns.of_dvd (two_pow_dvd N B)).trans ?_
      exact congrArg (fun v => x.toNat * v % 2 ^ N) hdigits
    rw [pure_eq, returns_next, toNat_clearUnusedBits]
    exact hprod

/-! ## Everything -/

/-- The number, with the unused bits at zero. -/
def Is (z : Uint N B) (v : Nat) : Prop := z.Valid ∧ z.toNat = v

theorem is_of_mod {z : Uint N B} {v : Nat} (h : z.toNat = v % 2 ^ N) : Is z (v % 2 ^ N) :=
  ⟨valid_of_toNat h, h⟩

theorem is_of_lt {z : Uint N B} {v : Nat} (h : z.toNat = v) (hv : v < 2 ^ N) : Is z v :=
  ⟨valid_iff.mpr (h ▸ hv), h⟩

structure Modular (x y : Uint N B) : Prop where
  add : Is (x.add y) ((x.toNat + y.toNat) % 2 ^ N)
  sub : Is (x.sub y) ((x.toNat + (2 ^ N - y.toNat)) % 2 ^ N)
  mul : (x.mul y).Returns fun z => Is z (x.toNat * y.toNat % 2 ^ N)
  neg : Is x.neg ((2 ^ N - x.toNat) % 2 ^ N)
  increment : Is x.increment ((x.toNat + 1) % 2 ^ N)
  decrement : Is x.decrement ((x.toNat + (2 ^ N - 1)) % 2 ^ N)
  not : Is x.not (2 ^ N - 1 - x.toNat)
  and : Is (x.and y) (x.toNat &&& y.toNat)
  xor : Is (x.xor y) (x.toNat ^^^ y.toNat)
  or : Is (x.or y) (x.toNat ||| y.toNat)
  shiftLeft : ∀ shift < N, (x.shiftLeft shift).Returns fun z => Is z (x.toNat * 2 ^ shift % 2 ^ N)
  shiftRight : ∀ shift < N, (x.shiftRight shift).Returns fun z => Is z (x.toNat / 2 ^ shift)
  /-- `N` is an `unsigned`. -/
  shiftLeftBy : N < 2 ^ 32 → y.toNat < N →
    (x.shiftLeftBy y).Returns fun z => Is z (x.toNat * 2 ^ y.toNat % 2 ^ N)
  shiftRightBy : N < 2 ^ 32 → y.toNat < N →
    (x.shiftRightBy y).Returns fun z => Is z (x.toNat / 2 ^ y.toNat)
  eq : x.eq y ↔ x.toNat = y.toNat
  lt : x.lt y ↔ x.toNat < y.toNat

/-- **Arithmetic modulo 2^N**, for every width and every type of blocks. -/
theorem modular (hx : x.Valid) (hy : y.Valid) : Modular x y := by
  have hxlt := valid_iff.mp hx
  have hylt := valid_iff.mp hy
  have hdiv : ∀ n, x.toNat / n < 2 ^ N := fun n => Nat.lt_of_le_of_lt (Nat.div_le_self ..) hxlt
  exact {
    add := is_of_mod (add_toNat x y)
    sub := is_of_mod (sub_toNat x hy)
    mul := (mul_returns x y).mono fun _ => is_of_mod
    neg := is_of_mod (neg_toNat hx)
    increment := is_of_mod (increment_toNat x)
    decrement := is_of_mod (decrement_toNat x)
    not := is_of_lt (not_toNat hx) (by omega)
    and := is_of_lt and_toNat (Nat.lt_of_le_of_lt Nat.and_le_left hxlt)
    xor := is_of_lt xor_toNat (Nat.xor_lt_two_pow hxlt hylt)
    or := is_of_lt or_toNat (Nat.or_lt_two_pow hxlt hylt)
    shiftLeft := fun _ h => (shiftLeft_returns hx h).mono fun _ => is_of_mod
    shiftRight := fun _ h => (shiftRight_returns hx h).mono fun _ hz => is_of_lt hz (hdiv _)
    shiftLeftBy := fun hN h => (shiftLeftBy_returns hx hy hN h).mono fun _ => is_of_mod
    shiftRightBy := fun hN h => (shiftRightBy_returns hx hy hN h).mono fun _ hz => is_of_lt hz (hdiv _)
    eq := eq_iff
    lt := lt_iff }

/-- Thirteen bits in two bytes. -/
theorem modular_thirteenBits : Modular (ofInt 8191 : Uint 13 .uint8) (ofInt 4660) :=
  modular (valid_iff.mpr (by decide)) (valid_iff.mpr (by decide))

end Uint
