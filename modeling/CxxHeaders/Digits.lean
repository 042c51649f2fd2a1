/-
Lists of machine words as numbers, the lowest word first. The words are the
digits of the number in base 2^w.

An operation that works word by word is right if every word it makes is the
digit of the right number (`value_map_range`). Products are added up by
columns, as in writing (`sum_columns`).
-/
import CxxHeaders.BitBlocks
import CxxHeaders.Bytes
import Mathlib.Algebra.BigOperators.Ring.Finset
import Mathlib.Data.Nat.ModEq
import Mathlib.Tactic.Ring

namespace Digits

variable {w : Nat}

def value : List (BitVec w) → Nat
  | [] => 0
  | b :: bs => b.toNat + 2 ^ w * value bs

variable {l m : List (BitVec w)}

theorem two_pow_succ (w k : Nat) : 2 ^ (w * (k + 1)) = 2 ^ w * 2 ^ (w * k) := by
  rw [Nat.mul_succ, Nat.add_comm, Nat.pow_add]

theorem value_lt (l : List (BitVec w)) : value l < 2 ^ (w * l.length) := by
  induction l with
  | nil => simp [value]
  | cons b bs ih =>
    have hb := b.isLt
    have hle := Nat.mul_le_mul_left (2 ^ w) (Nat.succ_le_of_lt ih)
    rw [List.length_cons, two_pow_succ, value]
    rw [Nat.mul_succ] at hle
    omega

theorem value_lt_of_length_le {k : Nat} (h : l.length ≤ k) : value l < 2 ^ (w * k) :=
  Nat.lt_of_lt_of_le (value_lt l) (Nat.pow_le_pow_right (by decide) (Nat.mul_le_mul_left w h))

theorem value_append (l m : List (BitVec w)) :
    value (l ++ m) = value l + 2 ^ (w * l.length) * value m := by
  induction l with
  | nil => simp [value]
  | cons b bs ih =>
    rw [List.cons_append, value, ih, value, List.length_cons, two_pow_succ, Nat.mul_add, Nat.mul_assoc,
      Nat.add_assoc]

theorem value_replicate (n : Nat) : value (List.replicate n 0#w) = 0 := by
  induction n with
  | zero => rfl
  | succ n ih => simp [List.replicate_succ, value, ih]

/-! ## Digits -/

theorem value_split (l : List (BitVec w)) (k : Nat) :
    value l = value (l.take k) + 2 ^ (w * k) * value (l.drop k) := by
  by_cases hk : k ≤ l.length
  · have happend := value_append (l.take k) (l.drop k)
    rwa [List.take_append_drop, List.length_take, Nat.min_eq_left hk] at happend
  · rw [List.take_of_length_le (by omega), List.drop_eq_nil_of_le (by omega), value, Nat.mul_zero,
      Nat.add_zero]

theorem value_take (l : List (BitVec w)) (k : Nat) : value (l.take k) = value l % 2 ^ (w * k) := by
  have hlt : value (l.take k) < 2 ^ (w * k) := value_lt_of_length_le (List.length_take_le k l)
  rw [value_split l k, Nat.add_mul_mod_self_left, Nat.mod_eq_of_lt hlt]

theorem value_drop (l : List (BitVec w)) (k : Nat) : value (l.drop k) = value l / 2 ^ (w * k) := by
  have hlt : value (l.take k) < 2 ^ (w * k) := value_lt_of_length_le (List.length_take_le k l)
  rw [value_split l k, Nat.add_mul_div_left _ _ (Nat.two_pow_pos _), Nat.div_eq_of_lt hlt, Nat.zero_add]

/-- The words are the digits. -/
theorem toNat_getD (l : List (BitVec w)) (i : Nat) :
    (l.getD i 0#w).toNat = value l / 2 ^ (w * i) % 2 ^ w := by
  rw [← value_drop]
  cases hl : l.drop i with
  | nil =>
    have hle := List.drop_eq_nil_iff.mp hl
    rw [List.getD_eq_default _ _ hle]
    simp [value]
  | cons b bs =>
    have hget : l.getD i 0#w = b := by
      rw [List.getD_eq_getElem?_getD, ← List.head?_drop, hl]
      rfl
    rw [hget, value, Nat.add_mul_mod_self_left, Nat.mod_eq_of_lt b.isLt]

/-- One word changed. -/
theorem value_set {i : Nat} (hi : i < l.length) (b : BitVec w) :
    value (l.set i b) + 2 ^ (w * i) * (l.getD i 0#w).toNat = value l + 2 ^ (w * i) * b.toNat := by
  induction l generalizing i with
  | nil => cases hi
  | cons c cs ih =>
    cases i with
    | zero =>
      simp only [List.set_cons_zero, value, List.getD_cons_zero, Nat.mul_zero, Nat.pow_zero, Nat.one_mul]
      omega
    | succ i =>
      have hmul := congrArg (2 ^ w * ·) (ih (Nat.lt_of_succ_lt_succ hi))
      simp only [Nat.mul_add (2 ^ w)] at hmul
      simp only [List.set_cons_succ, value, List.getD_cons_succ, two_pow_succ, Nat.mul_assoc]
      omega

theorem div_two_pow_succ (w j v : Nat) : v / 2 ^ (w * (j + 1)) = v / 2 ^ (w * j) / 2 ^ w := by
  rw [Nat.div_div_eq_div_mul, two_pow_succ, Nat.mul_comm]

/-- Of a number shifted by `k` words and `s` bits, the lowest `k` words are zero. -/
theorem shifted_low {i k : Nat} (hi : i < k) (v s : Nat) :
    v * 2 ^ (w * k + s) / 2 ^ (w * i) % 2 ^ w = 0 := by
  obtain ⟨j, rfl⟩ : ∃ j, k = i + (j + 1) := ⟨k - i - 1, by omega⟩
  have hsplit : v * 2 ^ (w * (i + (j + 1)) + s) =
      2 ^ (w * i) * (2 ^ w * (2 ^ (w * j) * (v * 2 ^ s))) := by
    rw [Nat.mul_add, Nat.pow_add, Nat.pow_add, two_pow_succ]
    ring
  rw [hsplit, Nat.mul_div_cancel_left _ (Nat.two_pow_pos _), Nat.mul_mod_right]

/-- The other words are those of the number shifted by `s` bits. -/
theorem shifted_high (i k v s : Nat) :
    v * 2 ^ (w * k + s) / 2 ^ (w * (i + k)) = v * 2 ^ s / 2 ^ (w * i) := by
  have hsplit : v * 2 ^ (w * k + s) = 2 ^ (w * k) * (v * 2 ^ s) := by
    rw [Nat.pow_add]
    ring
  rw [hsplit, Nat.mul_add, Nat.add_comm, Nat.pow_add, Nat.mul_div_mul_left _ _ (Nat.two_pow_pos _)]

theorem shifted_next {s k : Nat} (hs : s + k = w) (j v : Nat) :
    v * 2 ^ s / 2 ^ (w * (j + 1)) = v / 2 ^ (w * j) / 2 ^ k := by
  have hpow : 2 ^ s * 2 ^ k = 2 ^ w := by rw [← Nat.pow_add, hs]
  rw [two_pow_succ, ← hpow, Nat.mul_assoc, Nat.mul_comm v, Nat.mul_div_mul_left _ _ (Nat.two_pow_pos s),
    Nat.div_div_eq_div_mul, Nat.mul_comm]

/-- A number is made of its digits. -/
theorem value_map_range {f : Nat → BitVec w} {n v : Nat}
    (h : ∀ i < n, (f i).toNat = v / 2 ^ (w * i) % 2 ^ w) :
    value ((List.range n).map f) = v % 2 ^ (w * n) := by
  induction n with
  | zero => simp [value, Nat.mod_one]
  | succ n ih =>
    rw [List.range_succ, List.map_append, value_append, ih fun i hi => h i (Nat.lt_succ_of_lt hi),
      List.length_map, List.length_range, List.map_singleton, value, value, Nat.mul_zero, Nat.add_zero,
      h n (Nat.lt_succ_self n), two_pow_succ, Nat.mul_comm (2 ^ w), Nat.mod_mul]

/-- The digits of an integer that may be negative: it is cut off below `n` of them. -/
theorem toNat_ofInt_div {i n : Nat} (hi : i < n) (v : Int) :
    (BitVec.ofInt w (v / 2 ^ (w * i))).toNat = (v % 2 ^ (w * n)).toNat / 2 ^ (w * i) % 2 ^ w := by
  obtain ⟨k, rfl⟩ := Nat.exists_eq_add_of_lt hi
  have hpos : (0 : Int) < 2 ^ (w * i) := by positivity
  have hsplit : (2 : Int) ^ (w * (i + k + 1)) = 2 ^ (w * i) * (2 ^ w * 2 ^ (w * k)) := by
    rw [← pow_add, ← pow_add]
    congr 1
    ring
  have hcut : 0 ≤ v % 2 ^ (w * (i + k + 1)) := Int.emod_nonneg v (by positivity)
  generalize hm : v % 2 ^ (w * (i + k + 1)) = m at hcut
  have hv : v / 2 ^ (w * i) = m / 2 ^ (w * i) + 2 ^ w * (2 ^ (w * k) * (v / 2 ^ (w * (i + k + 1)))) := by
    have hmod := Int.emod_add_mul_ediv v (2 ^ (w * (i + k + 1)))
    rw [hm] at hmod
    conv_lhs => rw [← hmod, hsplit, Int.mul_assoc, Int.add_mul_ediv_left _ _ hpos.ne', Int.mul_assoc]
    rw [hsplit]
  obtain ⟨m, rfl⟩ := Int.eq_ofNat_of_zero_le hcut
  rw [BitVec.toNat_ofInt, hv, Int.natCast_pow, Nat.cast_ofNat, Int.add_mul_emod_self_left, Int.toNat_natCast]
  norm_cast

theorem value_inj (hlen : l.length = m.length) (h : value l = value m) : l = m := by
  induction l generalizing m with
  | nil => exact (List.length_eq_zero_iff.mp hlen.symm).symm
  | cons b bs ih =>
    cases m with
    | nil => cases hlen
    | cons c cs =>
      have hb := b.isLt
      have hc := c.isLt
      simp only [value] at h
      have hmod := congrArg (· % 2 ^ w) h
      have hdiv := congrArg (· / 2 ^ w) h
      simp only [Nat.add_mul_mod_self_left, Nat.mod_eq_of_lt hb, Nat.mod_eq_of_lt hc] at hmod
      simp only [Nat.add_mul_div_left _ _ (Nat.two_pow_pos w), Nat.div_eq_of_lt hb, Nat.div_eq_of_lt hc,
        Nat.zero_add] at hdiv
      rw [BitVec.eq_of_toNat_eq hmod, ih (Nat.succ.inj hlen) hdiv]

/-! ## Bits -/

theorem testBit_value (hw : 0 < w) (l : List (BitVec w)) (i : Nat) :
    (value l).testBit i = BitBlocks.bit l i := by
  have hi := Nat.div_add_mod i w
  have hr := Nat.mod_lt i hw
  rw [BitBlocks.bit, BitVec.getLsbD, toNat_getD, Nat.testBit_mod_two_pow, Nat.testBit_div_two_pow,
    Nat.add_comm, hi]
  simp [hr]

/-- The digits of `2 ^ (w * n) - 1 - v` are the others. -/
theorem complement {i n v : Nat} (hi : i < n) (hv : v < 2 ^ (w * n)) :
    (2 ^ (w * n) - 1 - v) / 2 ^ (w * i) % 2 ^ w = 2 ^ w - 1 - v / 2 ^ (w * i) % 2 ^ w := by
  refine Nat.eq_of_testBit_eq fun r => ?_
  have hdigit := Nat.mod_lt (v / 2 ^ (w * i)) (Nat.two_pow_pos w)
  have hle : w * i + w ≤ w * n := by
    rw [← Nat.mul_succ]
    exact Nat.mul_le_mul_left w hi
  rw [Nat.sub_sub, Nat.sub_sub, Nat.add_comm 1 v, Nat.add_comm 1, Nat.testBit_mod_two_pow,
    Nat.testBit_div_two_pow, Nat.testBit_two_pow_sub_succ hv, Nat.testBit_two_pow_sub_succ hdigit,
    Nat.testBit_mod_two_pow, Nat.testBit_div_two_pow]
  by_cases hr : r < w
  · have hlt : r + w * i < w * n := by omega
    simp [hr, hlt]
  · simp [hr]

/-! ## Bytes -/

theorem ofLittle_eq_value (bs : List UInt8) : Bytes.ofLittle bs = value (bs.map UInt8.toBitVec) := by
  induction bs with
  | nil => rfl
  | cons b bs ih =>
    rw [Bytes.ofLittle, ih]
    rfl

theorem ofLittle_append (bs cs : List UInt8) :
    Bytes.ofLittle (bs ++ cs) = Bytes.ofLittle bs + 2 ^ (8 * bs.length) * Bytes.ofLittle cs := by
  rw [ofLittle_eq_value, List.map_append, value_append, List.length_map, ofLittle_eq_value,
    ofLittle_eq_value]

theorem ofLittle_take (bs : List UInt8) (k : Nat) :
    Bytes.ofLittle (bs.take k) = Bytes.ofLittle bs % 2 ^ (8 * k) := by
  rw [ofLittle_eq_value, List.map_take, value_take, ofLittle_eq_value]

theorem ofLittle_drop (bs : List UInt8) (k : Nat) :
    Bytes.ofLittle (bs.drop k) = Bytes.ofLittle bs / 2 ^ (8 * k) := by
  rw [ofLittle_eq_value, List.map_drop, value_drop, ofLittle_eq_value]

/-! ## Columns -/

open Finset

/-- Column `i` of a product. -/
def column (x y : Nat → Nat) (i : Nat) : Nat := ∑ j ∈ range (i + 1), x j * y (i - j)

theorem column_cons (b : BitVec w) (bs : List (BitVec w)) (y : Nat → Nat) (i : Nat) :
    column (fun j => ((b :: bs).getD j 0#w).toNat) y i =
      (∑ j ∈ range i, (bs.getD j 0#w).toNat * y (i - (j + 1))) + b.toNat * y i :=
  sum_range_succ' _ i

/-- The columns of a product, each in its place, add up to it. -/
theorem sum_columns (l : List (BitVec w)) (y : Nat → Nat) (n : Nat) :
    ∑ i ∈ range n, 2 ^ (w * i) * column (fun j => (l.getD j 0#w).toNat) y i ≡
      value l * ∑ i ∈ range n, 2 ^ (w * i) * y i [MOD 2 ^ (w * n)] := by
  induction l generalizing n with
  | nil => simp [column, value, Nat.ModEq]
  | cons b bs ih =>
    cases n with
    | zero => simp [Nat.modEq_one]
    | succ n =>
      -- The first word is in every column, and the others make the columns one place further up.
      have hothers : ∑ i ∈ range (n + 1),
          2 ^ (w * i) * (∑ j ∈ range i, (bs.getD j 0#w).toNat * y (i - (j + 1))) =
          2 ^ w * ∑ i ∈ range n, 2 ^ (w * i) * column (fun j => (bs.getD j 0#w).toNat) y i := by
        rw [sum_range_succ', range_zero, sum_empty, Nat.mul_zero, Nat.add_zero, mul_sum]
        refine sum_congr rfl fun i _ => ?_
        simp only [two_pow_succ, column, Nat.mul_assoc, Nat.add_sub_add_right]
      have hfirst : ∑ i ∈ range (n + 1), 2 ^ (w * i) * (b.toNat * y i) =
          b.toNat * ∑ i ∈ range (n + 1), 2 ^ (w * i) * y i := by
        rw [mul_sum]
        exact sum_congr rfl fun i _ => Nat.mul_left_comm ..
      have hright : value (b :: bs) * ∑ i ∈ range (n + 1), 2 ^ (w * i) * y i =
          2 ^ w * (value bs * ∑ i ∈ range n, 2 ^ (w * i) * y i) +
          b.toNat * (∑ i ∈ range (n + 1), 2 ^ (w * i) * y i) +
          2 ^ w * 2 ^ (w * n) * (value bs * y n) := by
        rw [value, sum_range_succ]
        ring
      rw [hright, two_pow_succ]
      simp only [column_cons, Nat.mul_add (2 ^ (w * _)), sum_add_distrib]
      rw [hothers, hfirst]
      have hmod :=
        ((ih n).mul_left' (2 ^ w)).add_right (b.toNat * ∑ i ∈ range (n + 1), 2 ^ (w * i) * y i)
      exact hmod.trans (by simp [Nat.ModEq])

/-- The words as summands. -/
theorem sum_digits (l : List (BitVec w)) :
    ∑ i ∈ range l.length, 2 ^ (w * i) * (l.getD i 0#w).toNat = value l := by
  induction l with
  | nil => rfl
  | cons b bs ih =>
    rw [List.length_cons, sum_range_succ', value, ← ih, mul_sum, Nat.add_comm]
    simp [two_pow_succ, Nat.mul_assoc]

end Digits
