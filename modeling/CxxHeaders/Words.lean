/-
Shifts over the border of two machine words, as arithmetic: what is shifted out
of one word is put into the other with `|||`.
-/
import Mathlib.Algebra.Order.Group.Nat
import Mathlib.Tactic.Ring

namespace Words

variable {w s k : Nat}

/-- The lower part of a number that is put together from two. -/
theorem mul_add_mod {a b m n : Nat} (hb : b < m) : (m * a + b) % (m * n) = m * (a % n) + b := by
  rw [Nat.mod_mul, Nat.mul_add_mod, Nat.mod_eq_of_lt hb, Nat.mul_add_div (by omega), Nat.div_eq_of_lt hb,
    Nat.add_zero, Nat.add_comm]

theorem toNat_add_cases (a b : BitVec w) :
    (a.toNat + b.toNat < 2 ^ w ∧ (a + b).toNat = a.toNat + b.toNat) ∨
    (2 ^ w ≤ a.toNat + b.toNat ∧ (a + b).toNat + 2 ^ w = a.toNat + b.toNat) := by
  have ha := a.isLt
  have hb := b.isLt
  rw [BitVec.toNat_add]
  by_cases h : a.toNat + b.toNat < 2 ^ w
  · exact .inl ⟨h, Nat.mod_eq_of_lt h⟩
  · rw [Nat.mod_eq_sub_mod (by omega), Nat.mod_eq_of_lt (by omega)]
    omega

theorem toNat_sub_cases (a b : BitVec w) :
    (b.toNat ≤ a.toNat ∧ (a - b).toNat + b.toNat = a.toNat) ∨
    (a.toNat < b.toNat ∧ (a - b).toNat + b.toNat = a.toNat + 2 ^ w) := by
  have ha := a.isLt
  have hb := b.isLt
  rw [BitVec.toNat_sub]
  by_cases h : b.toNat ≤ a.toNat
  · rw [Nat.mod_eq_sub_mod (by omega), Nat.mod_eq_of_lt (by omega)]
    omega
  · rw [Nat.mod_eq_of_lt (by omega)]
    omega

/-- Two parts of a number are put together by any of `+`, `|||` and `^^^`. -/
theorem two_pow_mul_xor {a b : Nat} (ha : a < 2 ^ k) : a ^^^ 2 ^ k * b = 2 ^ k * b + a := by
  refine Nat.eq_of_testBit_eq fun i => ?_
  rw [Nat.testBit_xor, Nat.testBit_two_pow_mul, Nat.testBit_two_pow_mul_add _ ha]
  by_cases hi : i < k
  · simp [hi, Nat.not_le.mpr hi]
  · have hout : a.testBit i = false :=
      Nat.testBit_lt_two_pow (Nat.lt_of_lt_of_le ha (Nat.pow_le_pow_right (by decide) (by omega)))
    simp [hi, Nat.not_lt.mp hi, hout]

theorem two_pow_mul (hw : s + k = w) : 2 ^ s * 2 ^ k = 2 ^ w := by rw [← Nat.pow_add, hw]

/-- The upper word takes in the highest bits of the lower one. -/
theorem toNat_shiftLeft_or (hw : s + k = w) (h l : BitVec w) :
    (h <<< s ||| l >>> k).toNat = (h.toNat * 2 ^ s + l.toNat / 2 ^ k) % 2 ^ w := by
  have hin : l.toNat / 2 ^ k < 2 ^ s := by
    refine Nat.div_lt_of_lt_mul ?_
    rw [Nat.mul_comm, two_pow_mul hw]
    exact l.isLt
  have hup : h.toNat * 2 ^ s % 2 ^ w = 2 ^ s * (h.toNat % 2 ^ k) := by
    rw [← two_pow_mul hw, Nat.mul_comm h.toNat, Nat.mul_mod_mul_left]
  rw [BitVec.toNat_or, BitVec.toNat_shiftLeft, BitVec.toNat_ushiftRight, Nat.shiftLeft_eq,
    Nat.shiftRight_eq_div_pow, hup, ← Nat.two_pow_add_eq_or_of_lt hin, ← mul_add_mod hin, Nat.mul_comm,
    two_pow_mul hw]

/-- The lower word takes in the lowest bits of the upper one. -/
theorem toNat_shiftRight_or (hw : s + k = w) (h l : BitVec w) :
    (l >>> s ||| h <<< k).toNat = l.toNat / 2 ^ s + 2 ^ k * (h.toNat % 2 ^ s) := by
  have hin : l.toNat / 2 ^ s < 2 ^ k := by
    refine Nat.div_lt_of_lt_mul ?_
    rw [two_pow_mul hw]
    exact l.isLt
  have hup : h.toNat * 2 ^ k % 2 ^ w = 2 ^ k * (h.toNat % 2 ^ s) := by
    rw [← two_pow_mul hw, Nat.mul_comm (2 ^ s), Nat.mul_comm h.toNat, Nat.mul_mod_mul_left]
  rw [BitVec.toNat_or, BitVec.toNat_shiftLeft, BitVec.toNat_ushiftRight, Nat.shiftLeft_eq,
    Nat.shiftRight_eq_div_pow, hup, Nat.or_comm, ← Nat.two_pow_add_eq_or_of_lt hin, Nat.add_comm]

/-- A number in two words, shifted to the left. -/
theorem shiftLeft_two (hw : s + k = w) {h l : Nat} (n : Nat) :
    (2 ^ w * h + l) * 2 ^ s % (2 ^ w * n) =
      2 ^ w * ((h * 2 ^ s + l / 2 ^ k) % n) + l * 2 ^ s % 2 ^ w := by
  have hl : l * 2 ^ s = 2 ^ w * (l / 2 ^ k) + l * 2 ^ s % 2 ^ w := by
    have hdiv : l * 2 ^ s / 2 ^ w = l / 2 ^ k := by
      rw [← two_pow_mul hw, Nat.mul_comm, Nat.mul_div_mul_left _ _ (Nat.two_pow_pos s)]
    rw [← hdiv, Nat.div_add_mod]
  rw [← mul_add_mod (Nat.mod_lt _ (Nat.two_pow_pos w)), Nat.mul_add, Nat.add_assoc, ← hl]
  congr 1
  ring

/-- A number in two words, shifted to the right. -/
theorem shiftRight_two (hw : s + k = w) {h l : Nat} :
    (2 ^ w * h + l) / 2 ^ s = 2 ^ w * (h / 2 ^ s) + (l / 2 ^ s + 2 ^ k * (h % 2 ^ s)) := by
  have hsplit : 2 ^ k * h = 2 ^ w * (h / 2 ^ s) + 2 ^ k * (h % 2 ^ s) := by
    conv_lhs => rw [← Nat.div_add_mod h (2 ^ s)]
    rw [Nat.mul_add, ← Nat.mul_assoc, Nat.mul_comm (2 ^ k), two_pow_mul hw]
  have hdiv : (2 ^ w * h + l) / 2 ^ s = 2 ^ k * h + l / 2 ^ s := by
    rw [← two_pow_mul hw, Nat.mul_assoc, Nat.mul_add_div (Nat.two_pow_pos s)]
  omega

/-- A word of a number shifted to the right by less than a word. -/
theorem div_two_pow (hw : s + k = w) (n : Nat) :
    n / 2 ^ s = 2 ^ k * (n / 2 ^ w) + n % 2 ^ w / 2 ^ s := by
  have hn := Nat.div_add_mod n (2 ^ w)
  conv_lhs => rw [← hn, ← two_pow_mul hw]
  rw [Nat.mul_assoc, Nat.mul_add_div (Nat.two_pow_pos s), two_pow_mul hw]

/-- It comes from two words next to each other. -/
theorem shiftRight_word (hw : s + k = w) (n : Nat) :
    n % 2 ^ w / 2 ^ s + 2 ^ k * (n / 2 ^ w % 2 ^ w % 2 ^ s) = n / 2 ^ s % 2 ^ w := by
  have hin : n % 2 ^ w / 2 ^ s < 2 ^ k := by
    refine Nat.div_lt_of_lt_mul ?_
    rw [two_pow_mul hw]
    exact Nat.mod_lt _ (Nat.two_pow_pos w)
  have hmod : n / 2 ^ w % 2 ^ w % 2 ^ s = n / 2 ^ w % 2 ^ s :=
    Nat.mod_mod_of_dvd _ (Nat.pow_dvd_pow 2 (by omega))
  have hupper := mul_add_mod (a := n / 2 ^ w) (n := 2 ^ s) hin
  rw [Nat.mul_comm (2 ^ k) (2 ^ s), two_pow_mul hw] at hupper
  rw [hmod, div_two_pow hw n, hupper, Nat.add_comm]

theorem shiftLeft_word (hw : s + k = w) (n : Nat) :
    (n / 2 ^ w % 2 ^ w * 2 ^ s + n % 2 ^ w / 2 ^ k) % 2 ^ w = n / 2 ^ k % 2 ^ w := by
  have hw' : k + s = w := by omega
  rw [div_two_pow hw' n, Nat.mul_comm (2 ^ s), Nat.add_mod, Nat.mul_mod, Nat.mod_mod, ← Nat.mul_mod,
    ← Nat.add_mod]

/-! ## Halves -/

theorem toNat_lower (b : BitVec 64) : (b &&& 0xffffffff).toNat = b.toNat % 2 ^ 32 := by
  rw [BitVec.toNat_and, ← Nat.and_two_pow_sub_one_eq_mod]
  rfl

theorem toNat_upper (b : BitVec 64) : (b >>> 32).toNat = b.toNat / 2 ^ 32 := by
  rw [BitVec.toNat_ushiftRight, Nat.shiftRight_eq_div_pow]

/-- No product of halves is cut off. -/
theorem toNat_mul_halves {a b : BitVec 64} (ha : a.toNat < 2 ^ 32) (hb : b.toNat < 2 ^ 32) :
    (a * b).toNat = a.toNat * b.toNat := by
  have hlt := Nat.mul_lt_mul'' ha hb
  rw [BitVec.toNat_mul, Nat.mod_eq_of_lt (by omega)]

end Words
