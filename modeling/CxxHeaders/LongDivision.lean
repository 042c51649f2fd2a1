/-
Bit-wise long division of natural numbers: for every bit of the dividend, the
highest first, the remainder is doubled, takes the bit in, and gives up the
divisor if it can. `Partial` is what there is when `k` bits are left.
-/
import Mathlib.Algebra.Order.Group.Nat
import Mathlib.Tactic.Ring

namespace LongDivision

/-- `q` and `r` divide what is left of `x` without its lowest `k` bits. -/
structure Partial (x y k q r : Nat) : Prop where
  divides : ∃ c, q = c * 2 ^ k ∧ x / 2 ^ k = c * y + r
  lt : r < y

variable {x y k q r n : Nat}

theorem Partial.start (hy : 0 < y) (hx : x < 2 ^ n) : Partial x y n 0 0 :=
  ⟨⟨0, by simp, by simp [Nat.div_eq_of_lt hx]⟩, hy⟩

/-- The remainder has no more bits than it has taken in. -/
theorem Partial.lt_two_pow (h : Partial x y k q r) (hx : x < 2 ^ (n + k)) : r < 2 ^ n := by
  obtain ⟨⟨c, -, hdiv⟩, -⟩ := h
  have hlt : x / 2 ^ k < 2 ^ n := Nat.div_lt_of_lt_mul (by rwa [← Nat.pow_add, Nat.add_comm])
  omega

/-- The bit that is next to be taken in. -/
theorem div_two_pow (x k : Nat) : x / 2 ^ k = 2 * (x / 2 ^ (k + 1)) + (x.testBit k).toNat := by
  have hdiv : x / 2 ^ (k + 1) = x / 2 ^ k / 2 := by rw [Nat.pow_succ, Nat.div_div_eq_div_mul]
  have hbit : (x.testBit k).toNat = x / 2 ^ k % 2 := by
    rw [Nat.testBit_eq_decide_div_mod_eq]
    rcases Nat.mod_two_eq_zero_or_one (x / 2 ^ k) with h | h <;> simp [h]
  rw [hdiv, hbit]
  omega

/-- The divisor fits. -/
theorem Partial.subtract (h : Partial x y (k + 1) q r) (hle : y ≤ 2 * r + (x.testBit k).toNat) :
    Partial x y k (q + 2 ^ k) (2 * r + (x.testBit k).toNat - y) := by
  obtain ⟨⟨c, rfl, hdiv⟩, hlt⟩ := h
  have hbit := Bool.toNat_le (x.testBit k)
  refine ⟨⟨2 * c + 1, by ring, ?_⟩, by omega⟩
  rw [div_two_pow, hdiv, Nat.mul_add, Nat.add_mul, Nat.mul_assoc]
  omega

/-- It does not. -/
theorem Partial.skip (h : Partial x y (k + 1) q r) (hlt : 2 * r + (x.testBit k).toNat < y) :
    Partial x y k q (2 * r + (x.testBit k).toNat) := by
  obtain ⟨⟨c, rfl, hdiv⟩, -⟩ := h
  refine ⟨⟨2 * c, by ring, ?_⟩, hlt⟩
  rw [div_two_pow, hdiv, Nat.mul_add, Nat.mul_assoc, Nat.add_assoc]

/-- The bit of the quotient is not yet set. -/
theorem Partial.dvd (h : Partial x y k q r) : 2 ^ k ∣ q := by
  obtain ⟨⟨c, rfl, -⟩, -⟩ := h
  exact Nat.dvd_mul_left _ c

theorem Partial.done (h : Partial x y 0 q r) : q * y + r = x ∧ r < y := by
  obtain ⟨⟨c, rfl, hdiv⟩, hlt⟩ := h
  rw [Nat.pow_zero, Nat.div_one] at hdiv
  exact ⟨by rw [Nat.pow_zero, Nat.mul_one, hdiv], hlt⟩

end LongDivision
