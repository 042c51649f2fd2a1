/-
Which of the shifts that `uint_t` does itself are in range.

All are but two: long division doubles its remainder by a shift by 1, and a
`uint128_t` is taken in by a shift by 64, where a `uint_t` may have no more
bits than that.
-/
import CxxHeaders.UintConversionsAgree
import CxxHeaders.UintOutput

open Outcome

namespace Uint

variable {N : Nat} {B : UnsignedType} {x y : Uint N B}

theorem shiftLeft_failed (x : Uint N B) {shift : Nat} (h : N ≤ shift) : x.shiftLeft shift = .failed := by
  simp [shiftLeft, asserting, Nat.not_lt.mpr h]

theorem returns_ne_failed {σ : Type} {P : σ → Prop} {o : Outcome σ} (h : o.Returns P) : o ≠ .failed :=
  h.ok.not_failed

theorem divMod_ne_failed_iff (hN : 1 ≤ N) (hx : x.Valid) (hy : y.Valid) :
    divMod x y ≠ .failed ↔ 2 ≤ N ∨ y.toNat = 0 := by
  by_cases hzero : y.toNat = 0
  · rw [divMod_zero hzero]
    exact iff_of_true nofun (.inr hzero)
  · by_cases h2 : 2 ≤ N
    · exact iff_of_true (returns_ne_failed (divMod_returns h2 hx hy hzero)) (.inl h2)
    · refine iff_of_false (fun hne => hne ?_) (by omega)
      have h1 : N ≤ 1 := by omega
      obtain ⟨s, hs, hinv⟩ := (Division.start_returns (B := B) hN hx hzero).exists
      -- The bit is not zero before the first round.
      have hbit : s.bit.ne (ofInt 0) := by
        rw [Division.ne_zero_iff, Ne, hinv.bit_eq_zero_iff]
        omega
      have hround : s.round x y = .failed := by
        rw [Division.round, shiftLeft_failed _ h1]
        rfl
      simp only [divMod, if_neg (eq_zero_iff.not.mpr hzero), hs, next_bind, whileLoop, hbit, if_true, hround,
        failed_bind]

theorem ofUint128_ne_failed_iff (other : Uint128) :
    (ofUint128 other : Outcome (Uint N B)) ≠ .failed ↔ 64 < N := by
  by_cases hN : 64 < N
  · exact iff_of_true (returns_ne_failed (ofUint128_returns hN other)) hN
  · refine iff_of_false (fun hne => hne ?_) hN
    simp only [ofUint128, shiftLeft_failed _ (Nat.le_of_not_lt hN), failed_bind]

/-- **The shifts are in range exactly where there is more than one bit to
divide, and where there are more than 64 to take a `uint128_t` in.** No
assertion of output, of the demotions and of multiplication fails. -/
theorem shifts_in_range_iff (hN : 1 ≤ N) (hx : x.Valid) (hy : y.Valid) :
    (divMod x y ≠ .failed ↔ 2 ≤ N ∨ y.toNat = 0) ∧
      (∀ other : Uint128, (ofUint128 other : Outcome (Uint N B)) ≠ .failed ↔ 64 < N) ∧
      (∀ flags, output flags x ≠ .failed) ∧ (∀ dst, x.demote dst ≠ .failed) ∧ x.mul y ≠ .failed := by
  refine ⟨divMod_ne_failed_iff hN hx hy, ofUint128_ne_failed_iff, fun flags => ?_, fun dst => ?_, ?_⟩
  · rw [output_returns flags hx]
    exact nofun
  · exact returns_ne_failed (Integer.demote_returns x dst)
  · exact returns_ne_failed (mul_returns x y)

/-- One by one, in one bit; and any `uint128_t` in 64 bits. -/
theorem shifts_out_of_range :
    divMod (ofInt 1 : Uint 1 .uint8) (ofInt 1) = .failed ∧
      (ofUint128 ⟨0, 5⟩ : Outcome (Uint 64 .uint64)) = .failed :=
  ⟨by rfl, by rfl⟩

theorem shifts_in_range_thirteenBits :
    (divMod (ofInt 8191 : Uint 13 .uint8) (ofInt 10) ≠ .failed ↔ 2 ≤ 13 ∨ (ofInt 10 : Uint 13 .uint8).toNat = 0) :=
  (shifts_in_range_iff (by decide) (valid_iff.mpr (by decide)) (valid_iff.mpr (by decide))).1

end Uint
