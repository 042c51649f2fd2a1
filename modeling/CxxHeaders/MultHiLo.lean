/-
`multHiLo`: a product of two blocks, exactly, in two blocks. The version for 64
bits multiplies halves and adds up what comes out (`Schoolbook`), in an order in
which no sum needs more than 64 bits (`multHiLo_exact`).
-/
import CxxHeaders.UintArithmetic

namespace Uint

/-- What `multHiLo64` computes, in order. It uses `t` and `k` more than once. -/
structure Schoolbook where
  (u1 u0 v1 v0 : BitVec 64)
  (t00 w0 k00 : BitVec 64)
  (t10 w1 w2 : BitVec 64)
  (t01 k01 : BitVec 64)
  lo : BitVec 64
  hi : BitVec 64

def schoolbook (u v : BitVec 64) : Schoolbook :=
  let u1 := u >>> 32
  let u0 := u &&& 0xFFFFFFFF
  let v1 := v >>> 32
  let v0 := v &&& 0xFFFFFFFF
  let t00 := u0 * v0
  let w0 := t00 &&& 0xFFFFFFFF
  let k00 := t00 >>> 32
  let t10 := u1 * v0 + k00
  let w1 := t10 &&& 0xFFFFFFFF
  let w2 := t10 >>> 32
  let t01 := u0 * v1 + w1
  let k01 := t01 >>> 32
  { u1, u0, v1, v0, t00, w0, k00, t10, w1, w2, t01, k01, lo := (t01 <<< 32) + w0, hi := u1 * v1 + w2 + k01 }

theorem multHiLo64_eq (u v : BitVec 64) : multHiLo64 u v = ⟨(schoolbook u v).hi, (schoolbook u v).lo⟩ := rfl

/-- Every product and every sum is that of the numbers. -/
structure Schoolbook.Exact (s : Schoolbook) : Prop where
  t00 : s.t00.toNat = s.u0.toNat * s.v0.toNat
  t10 : s.t10.toNat = s.u1.toNat * s.v0.toNat + s.k00.toNat
  t01 : s.t01.toNat = s.u0.toNat * s.v1.toNat + s.w1.toNat
  lo : s.lo.toNat = (s.t01 <<< 32).toNat + s.w0.toNat
  /-- The sum on the way to `hi`. -/
  partly : (s.u1 * s.v1 + s.w2).toNat = s.u1.toNat * s.v1.toNat + s.w2.toNat
  hi : s.hi.toNat = s.u1.toNat * s.v1.toNat + s.w2.toNat + s.k01.toNat

theorem mul_half_le {a b : Nat} (ha : a < 2 ^ 32) (hb : b < 2 ^ 32) : a * b ≤ (2 ^ 32 - 1) * (2 ^ 32 - 1) :=
  Nat.mul_le_mul (Nat.le_sub_one_of_lt ha) (Nat.le_sub_one_of_lt hb)

/-- The greatest product of two halves leaves room for two more halves. -/
theorem schoolbook_exact (u v : BitVec 64) : (schoolbook u v).Exact := by
  have hlower : ∀ b : BitVec 64, b.toNat % 2 ^ 32 < 2 ^ 32 := fun b => Nat.mod_lt _ (by decide)
  have hupper : ∀ b : BitVec 64, b.toNat / 2 ^ 32 < 2 ^ 32 := fun b => Nat.div_lt_of_lt_mul b.isLt
  have h00 := mul_half_le (hlower u) (hlower v)
  have h10 := mul_half_le (hupper u) (hlower v)
  have h01 := mul_half_le (hlower u) (hupper v)
  have h11 := mul_half_le (hupper u) (hupper v)
  constructor <;> simp only [schoolbook, BitVec.toNat_add, BitVec.toNat_mul, BitVec.toNat_shiftLeft,
    Nat.shiftLeft_eq, Words.toNat_lower, Words.toNat_upper] <;> omega

/-- **`multHiLo` is exact, and no sum in its version for 64 bits overflows.** -/
theorem multHiLo_exact :
    (∀ (B : UnsignedType) (u v : BitVec B.bits),
      (multHiLo B u v).hi.toNat * 2 ^ B.bits + (multHiLo B u v).lo.toNat = u.toNat * v.toNat) ∧
    ∀ u v : BitVec UnsignedType.uint64.bits,
      multHiLo .uint64 u v = ⟨(schoolbook u v).hi, (schoolbook u v).lo⟩ ∧ (schoolbook u v).Exact := by
  refine ⟨fun B u v => ?_, fun u v => ⟨rfl, schoolbook_exact u v⟩⟩
  rw [Nat.mul_comm]
  exact multHiLo_value u v

end Uint
