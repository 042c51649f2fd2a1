/-
`uint_t.h`: the constructor of `uint_t` from an integer of any built-in type,
signed or not. Where the type is larger than a block, blocks are shifted out of
the value, and its sign gets into all of them; where it is not, the value goes
into the lowest block, and the others are 0.
-/
import CxxHeaders.UintFacts

open Digits

/-- A built-in integer type. -/
structure IntegralType where
  sizeof : Nat
  isSigned : Bool
  deriving DecidableEq

namespace IntegralType

variable (T : IntegralType)

def bits : Nat := 8 * T.sizeof

def value (val : BitVec T.bits) : Int := if T.isSigned then val.toInt else val.toNat

/-- `static_cast` to an unsigned type of `w` bits. -/
def staticCast (val : BitVec T.bits) (w : Nat) : BitVec w :=
  if T.isSigned then val.signExtend w else val.setWidth w

/-- `operator >>`. -/
def shiftRight (val : BitVec T.bits) (n : Nat) : BitVec T.bits :=
  if T.isSigned then val.sshiftRight n else val >>> n

variable {T} (val : BitVec T.bits)

theorem staticCast_eq (w : Nat) : T.staticCast val w = BitVec.ofInt w (T.value val) := by
  unfold staticCast value
  split
  · rfl
  · rw [BitVec.ofInt_natCast, BitVec.ofNat_toNat]

theorem value_shiftRight (n : Nat) : T.value (T.shiftRight val n) = T.value val / 2 ^ n := by
  unfold value shiftRight
  split
  · rw [BitVec.toInt_sshiftRight, Int.shiftRight_eq_div_pow, Int.natCast_pow]
    rfl
  · rw [BitVec.toNat_ushiftRight, Nat.shiftRight_eq_div_pow, Int.natCast_ediv, Int.natCast_pow]
    rfl

theorem value_bounds : -2 ^ T.bits ≤ T.value val ∧ T.value val < 2 ^ T.bits := by
  have hpow : (2 : Int) ^ (T.bits - 1) ≤ 2 ^ T.bits := pow_le_pow_right₀ (by decide) (Nat.sub_le ..)
  unfold value
  split
  · have hle := val.le_toInt
    have hlt := val.toInt_lt
    omega
  · have hlt : (val.toNat : Int) < 2 ^ T.bits := by exact_mod_cast val.isLt
    omega

end IntegralType

namespace Uint

variable {N w : Nat} {B C : UnsignedType} {T : IntegralType}

/-! ## The constructor -/

/-- The loop of `copy_bits_`, as in `fill`. -/
def fillIntegral (T : IntegralType) : Nat → BitVec T.bits → List (BitVec w) → List (BitVec w)
  | 0, _, blocks => blocks
  | i + 1, temp, blocks => fillIntegral T i (T.shiftRight temp w) (T.staticCast temp w :: blocks)

theorem fillIntegral_reverse (i : Nat) (temp : BitVec T.bits) (blocks : List (BitVec w)) :
    (fillIntegral T i temp blocks).reverse =
      blocks.reverse ++ (List.range i).map fun j => BitVec.ofInt w (T.value temp / 2 ^ (w * j)) := by
  induction i generalizing temp blocks with
  | zero => simp [fillIntegral]
  | succ i ih =>
    have hshift : ∀ j, T.value temp / 2 ^ w / 2 ^ (w * j) = T.value temp / 2 ^ (w * (j + 1)) := fun j => by
      rw [Int.ediv_ediv_of_nonneg (by positivity), ← pow_add, Nat.mul_succ, Nat.add_comm]
    rw [fillIntegral, ih, List.reverse_cons, List.append_assoc, List.range_succ_eq_map, List.map_cons,
      List.map_map]
    simp [IntegralType.staticCast_eq, IntegralType.value_shiftRight, hshift, Function.comp_def]

theorem length_fillIntegral (i : Nat) (temp : BitVec T.bits) (blocks : List (BitVec w)) :
    (fillIntegral T i temp blocks).length = i + blocks.length := by
  have hlen := congrArg List.length (fillIntegral_reverse i temp blocks)
  rw [List.length_reverse, List.length_append, List.length_reverse, List.length_map,
    List.length_range] at hlen
  rw [hlen, Nat.add_comm]

/-- `uint_t (const T& val)`. That a block has fewer bits than a larger type is
asserted, too. -/
def ofIntegral (T : IntegralType) (val : BitVec T.bits) : Uint N B :=
  if T.sizeof ≤ B.sizeof then (setBlock zero 0 (T.staticCast val B.bits)).clearUnusedBits
  else
    (⟨(fillIntegral T (numOfBlocks N B) val []).reverse, by
      rw [List.length_reverse, length_fillIntegral]; rfl⟩ : Uint N B).clearUnusedBits

/-! ## Its value -/

/-- How many bits of the number are written. -/
def width (N : Nat) (B : UnsignedType) (T : IntegralType) : Nat :=
  if T.sizeof ≤ B.sizeof then min B.bits N else N

/-- Cut off twice. -/
theorem emod_toNat_mod (v : Int) (k N : Nat) :
    (((v % 2 ^ k).toNat % 2 ^ N : Nat) : Int) = v % 2 ^ min k N := by
  have hnonneg : 0 ≤ v % 2 ^ k := Int.emod_nonneg v (by positivity)
  rw [Int.natCast_mod, Int.toNat_of_nonneg hnonneg, Int.natCast_pow, Nat.cast_ofNat]
  by_cases hk : N ≤ k
  · rw [Nat.min_eq_right hk, Int.emod_emod_of_dvd _ (pow_dvd_pow 2 hk)]
  · have hle : k ≤ N := by omega
    have hlt : v % 2 ^ k < 2 ^ k := Int.emod_lt_of_pos v (by positivity)
    have hpow : (2 : Int) ^ k ≤ 2 ^ N := pow_le_pow_right₀ (by decide) hle
    rw [Nat.min_eq_left hle, Int.emod_eq_of_lt hnonneg (Int.lt_of_lt_of_le hlt hpow)]

/-- What is written is the value, and the other bits are 0. -/
theorem toNat_ofIntegral (val : BitVec T.bits) :
    ((ofIntegral T val : Uint N B).toNat : Int) = T.value val % 2 ^ width N B T := by
  unfold ofIntegral width
  split
  · rw [toNat_setBlock_zero, IntegralType.staticCast_eq, BitVec.toNat_ofInt, Int.natCast_pow,
      Nat.cast_ofNat, emod_toNat_mod]
  · have hwords := value_map_range (w := B.bits) (n := numOfBlocks N B)
      fun i hi => toNat_ofInt_div (w := B.bits) hi (T.value val)
    have hpow : (T.value val % 2 ^ (B.bits * numOfBlocks N B)).toNat < 2 ^ (B.bits * numOfBlocks N B) := by
      rw [Int.toNat_lt (Int.emod_nonneg _ (by positivity)), Int.natCast_pow]
      exact Int.emod_lt_of_pos _ (by positivity)
    rw [Nat.mod_eq_of_lt hpow] at hwords
    rw [toNat_clearUnusedBits, toNat]
    simp only [fillIntegral_reverse, List.reverse_nil, List.nil_append]
    rw [hwords, emod_toNat_mod, Nat.min_eq_right (numOfBlocks_spec N B).1]

theorem width_le (N : Nat) (B : UnsignedType) (T : IntegralType) : width N B T ≤ N := by
  unfold width
  split
  · exact Nat.min_le_right ..
  · exact Nat.le_refl N

theorem ofIntegral_valid (val : BitVec T.bits) : (ofIntegral T val : Uint N B).Valid := by
  have hpow : (2 : Int) ^ width N B T ≤ 2 ^ N := pow_le_pow_right₀ (by decide) (width_le N B T)
  have hlt : T.value val % 2 ^ width N B T < 2 ^ width N B T := Int.emod_lt_of_pos _ (by positivity)
  rw [← toNat_ofIntegral] at hlt
  rw [valid_iff]
  exact_mod_cast Int.lt_of_lt_of_le hlt hpow

/-! ## Different blocks -/

/-- The sign of a `T` gets into all `N` bits. -/
def SignExtends (N : Nat) (B : UnsignedType) (T : IntegralType) : Prop :=
  B.sizeof < T.sizeof ∨ N ≤ B.bits

theorem width_of_signExtends (h : SignExtends N B T) : width N B T = N := by
  unfold width
  split
  · next hle =>
    rcases h with h | h
    · omega
    · exact Nat.min_eq_right h
  · rfl

theorem width_of_not_signExtends (h : ¬SignExtends N B T) :
    width N B T = B.bits ∧ T.bits ≤ B.bits ∧ B.bits < N := by
  unfold SignExtends at h
  have hle : T.sizeof ≤ B.sizeof := by omega
  refine ⟨?_, Nat.mul_le_mul_left 8 hle, by omega⟩
  rw [width, if_pos hle, Nat.min_eq_left (by omega)]

theorem bits_inj (h : B.bits = C.bits) : B = C := by
  cases B <;> cases C <;> first | rfl | exact absurd h (by decide)

/-- A value that is not negative is cut off at `N` bits, whatever the blocks. -/
theorem emod_width (val : BitVec T.bits) (h : 0 ≤ T.value val) :
    T.value val % 2 ^ width N B T = T.value val % 2 ^ N := by
  by_cases hs : SignExtends N B T
  · rw [width_of_signExtends hs]
  · obtain ⟨hwidth, hbits, hN⟩ := width_of_not_signExtends hs
    have hlt := (IntegralType.value_bounds val).2
    have hB : (2 : Int) ^ T.bits ≤ 2 ^ B.bits := pow_le_pow_right₀ (by decide) hbits
    have hle : (2 : Int) ^ B.bits ≤ 2 ^ N := pow_le_pow_right₀ (by decide) (Nat.le_of_lt hN)
    rw [hwidth, Int.emod_eq_of_lt h (by omega), Int.emod_eq_of_lt h (by omega)]

/-- A negative one is different for every number of bits. -/
theorem emod_inj {v : Int} {t j k : Nat} (hv : v < 0) (hle : -2 ^ t ≤ v) (hj : t ≤ j) (hk : t ≤ k)
    (h : v % 2 ^ j = v % 2 ^ k) : j = k := by
  have hmod : ∀ i, t ≤ i → v % 2 ^ i = v + 2 ^ i := by
    intro i hi
    have hpow : (2 : Int) ^ t ≤ 2 ^ i := pow_le_pow_right₀ (by decide) hi
    rw [← Int.add_emod_right, Int.emod_eq_of_lt (by omega) (by omega)]
  rw [hmod j hj, hmod k hk] at h
  have hpow : (2 : Int) ^ j = 2 ^ k := by omega
  exact Nat.pow_right_injective (Nat.le_refl 2) (by exact_mod_cast hpow)

theorem signExtends_of_eq (val : BitVec T.bits) (hneg : T.value val < 0) (hne : B ≠ C)
    (h : T.value val % 2 ^ width N B T = T.value val % 2 ^ width N C T) : SignExtends N B T := by
  by_contra hs
  obtain ⟨hwidth, hbits, hN⟩ := width_of_not_signExtends hs
  have hle := (IntegralType.value_bounds val).1
  rw [hwidth] at h
  by_cases hC : SignExtends N C T
  · rw [width_of_signExtends hC] at h
    have heq := emod_inj hneg hle hbits (by omega) h
    omega
  · obtain ⟨hwidth', hbits', -⟩ := width_of_not_signExtends hC
    rw [hwidth'] at h
    exact hne (bits_inj (emod_inj hneg hle hbits hbits' h))

/-- For the unsigned types this is the constructor that there is of them. -/
theorem ofIntegral_unsigned (T : UnsignedType) (val : BitVec T.bits) :
    (ofIntegral ⟨T.sizeof, false⟩ val : Uint N B) = ofUnsigned T val := by
  have hvalue : IntegralType.value (T := ⟨T.sizeof, false⟩) val = (val.toNat : Int) := rfl
  refine toNat_inj ?_
  have hwritten := toNat_ofIntegral (N := N) (B := B) (T := ⟨T.sizeof, false⟩) val
  have hcut := emod_width (N := N) (B := B) (T := ⟨T.sizeof, false⟩) val (Int.natCast_nonneg _)
  have h := hwritten.trans (hcut.trans (congrArg (· % 2 ^ N) hvalue))
  rw [toNat_ofUnsigned]
  exact_mod_cast h

/-- **Two block types give one number exactly if** the value is not negative, or
the block types are the same, or the sign of the value gets into all bits with
each of them. -/
theorem construct_agrees_iff (N : Nat) (B C : UnsignedType) (T : IntegralType) (val : BitVec T.bits) :
    (ofIntegral T val : Uint N B).toNat % 2 ^ N = (ofIntegral T val : Uint N C).toNat % 2 ^ N ↔
      0 ≤ T.value val ∨ B = C ∨ SignExtends N B T ∧ SignExtends N C T := by
  have hcut : ∀ D : UnsignedType, (((ofIntegral T val : Uint N D).toNat % 2 ^ N : Nat) : Int) =
      T.value val % 2 ^ width N D T := by
    intro D
    rw [(ofIntegral_valid val).mod_eq, toNat_ofIntegral]
  rw [← Nat.cast_inj (R := Int), hcut, hcut]
  constructor
  · intro h
    by_cases hneg : 0 ≤ T.value val
    · exact .inl hneg
    by_cases hne : B = C
    · exact .inr (.inl hne)
    have hlt := Int.not_le.mp hneg
    exact .inr (.inr ⟨signExtends_of_eq val hlt hne h, signExtends_of_eq val hlt (Ne.symm hne) h.symm⟩)
  · rintro (h | rfl | ⟨hB, hC⟩)
    · rw [emod_width val h, emod_width val h]
    · rfl
    · rw [width_of_signExtends hB, width_of_signExtends hC]

/-- In 64 bits, the `int` -1 is 2^64 - 1 with blocks of 8 bits, and 2^32 - 1 with
blocks of 32. -/
theorem construct_disagrees :
    ¬∀ (N : Nat) (B C : UnsignedType) (T : IntegralType) (val : BitVec T.bits),
      (ofIntegral T val : Uint N B).toNat % 2 ^ N = (ofIntegral T val : Uint N C).toNat % 2 ^ N := by
  intro h
  have hint := h 64 .uint8 .uint32 ⟨4, true⟩ (BitVec.ofInt 32 (-1))
  revert hint
  decide

end Uint
