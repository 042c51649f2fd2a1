/-
The numbers that `uint_t`s stand for. Whatever is in the blocks, clearing the
unused bits leaves the number modulo 2^N (`toNat_clearUnusedBits`), and what is
written block by block is known by its digits (`toNat_ofBlocks`).
-/
import CxxHeaders.Digits
import CxxHeaders.Uint
import CxxHeaders.Words

open Outcome Digits

namespace Uint

variable {N : Nat} {B : UnsignedType} {x y : Uint N B}

def toNat (x : Uint N B) : Nat := value x.blocks

/-- The invariant of the class: "unused bits are always set to zero". -/
def Valid (x : Uint N B) : Prop := ∀ i, N ≤ i → BitBlocks.bit x.blocks i = false

/-! ## Blocks -/

/-- There are just enough blocks. -/
theorem numOfBlocks_spec (N : Nat) (B : UnsignedType) :
    N ≤ B.bits * numOfBlocks N B ∧ B.bits * numOfBlocks N B < N + B.bits := by
  cases B <;> simp only [numOfBlocks, UnsignedType.bits, UnsignedType.sizeof] <;> omega

theorem two_pow_dvd (N : Nat) (B : UnsignedType) : 2 ^ N ∣ 2 ^ (B.bits * numOfBlocks N B) :=
  Nat.pow_dvd_pow 2 (numOfBlocks_spec N B).1

theorem toNat_lt_blocks (x : Uint N B) : x.toNat < 2 ^ (B.bits * numOfBlocks N B) :=
  x.length_blocks ▸ value_lt x.blocks

theorem valid_iff : x.Valid ↔ x.toNat < 2 ^ N := by
  constructor
  · intro h
    refine Nat.lt_pow_two_of_testBit _ fun i hi => ?_
    rw [toNat, testBit_value B.bits_pos]
    exact h i hi
  · intro h i hi
    rw [← testBit_value B.bits_pos]
    exact Nat.testBit_lt_two_pow (Nat.lt_of_lt_of_le h (Nat.pow_le_pow_right (by decide) hi))

theorem toNat_inj (h : x.toNat = y.toNat) : x = y := by
  obtain ⟨xs, hx⟩ := x
  obtain ⟨ys, hy⟩ := y
  have hblocks : xs = ys := value_inj (hx.trans hy.symm) h
  subst hblocks
  rfl

theorem toNat_block (x : Uint N B) (i : Nat) :
    (x.block i).toNat = x.toNat / 2 ^ (B.bits * i) % 2 ^ B.bits :=
  toNat_getD x.blocks i

theorem toNat_ofBlocks {f : Nat → BitVec B.bits} {v : Nat} (h : ∀ i < numOfBlocks N B,
    (f i).toNat = v / 2 ^ (B.bits * i) % 2 ^ B.bits) :
    (ofBlocks f : Uint N B).toNat = v % 2 ^ (B.bits * numOfBlocks N B) :=
  value_map_range h

theorem toNat_setBlock (x : Uint N B) {i : Nat} (hi : i < numOfBlocks N B) (b : BitVec B.bits) :
    (x.setBlock i b).toNat + 2 ^ (B.bits * i) * (x.block i).toNat =
      x.toNat + 2 ^ (B.bits * i) * b.toNat :=
  value_set (x.length_blocks ▸ hi) b

theorem toNat_zero : (zero : Uint N B).toNat = 0 := value_replicate _

/-! ## The last block -/

theorem toNat_lastBlockMask {r : Nat} (hr : B.bits * numOfBlocks N B - N + r = B.bits) :
    (lastBlockMask N B).toNat = 2 ^ r - 1 := by
  have hones : (~~~0 : BitVec B.bits).toNat = 2 ^ B.bits - 1 := by simp
  have hpow := Words.two_pow_mul hr
  have hr := Nat.two_pow_pos r
  rw [lastBlockMask, BitVec.toNat_ushiftRight, hones, Nat.shiftRight_eq_div_pow, ← hpow]
  refine Nat.div_eq_of_lt_le ?_ ?_
  · rw [Nat.sub_mul, Nat.mul_comm, Nat.one_mul]
    have hs := Nat.two_pow_pos (B.bits * numOfBlocks N B - N)
    omega
  · rw [Nat.sub_add_cancel hr, Nat.mul_comm]
    have hpos := Nat.mul_pos (Nat.two_pow_pos (B.bits * numOfBlocks N B - N)) hr
    rw [Nat.mul_comm] at hpos
    omega

theorem toNat_clearUnusedBits (x : Uint N B) : x.clearUnusedBits.toNat = x.toNat % 2 ^ N := by
  obtain ⟨hle, hlt⟩ := numOfBlocks_spec N B
  have hx := x.toNat_lt_blocks
  have hpos := B.bits_pos
  cases hn : numOfBlocks N B with
  | zero =>
    rw [hn, Nat.mul_zero] at hle hx
    have hempty : x.clearUnusedBits = x := by
      have hnil := List.length_eq_zero_iff.mp (x.length_blocks.trans hn)
      refine toNat_inj ?_
      simp [clearUnusedBits, setBlock, toNat, hnil]
    rw [hempty, Nat.mod_eq_of_lt (Nat.lt_of_lt_of_le hx (Nat.pow_le_pow_right (by decide) (by omega)))]
  | succ k =>
    rw [hn] at hle hlt hx
    rw [Nat.mul_succ] at hle hlt
    -- The last block holds `r` bits of the number.
    obtain ⟨r, rfl⟩ : ∃ r, N = B.bits * k + r := ⟨N - B.bits * k, by omega⟩
    have htop : (x.block k).toNat = x.toNat / 2 ^ (B.bits * k) := by
      rw [toNat_block, Nat.mod_eq_of_lt (Nat.div_lt_of_lt_mul (by rwa [← Nat.pow_add, ← Nat.mul_succ]))]
    have hmask := toNat_lastBlockMask (N := B.bits * k + r) (B := B) (r := r)
      (by rw [hn, Nat.mul_succ]; omega)
    have hcut : (x.block k &&& lastBlockMask (B.bits * k + r) B).toNat =
        x.toNat / 2 ^ (B.bits * k) % 2 ^ r := by
      rw [BitVec.toNat_and, hmask, Nat.and_two_pow_sub_one_eq_mod, htop]
    have hset := x.toNat_setBlock (i := k) (by omega) (x.block k &&& lastBlockMask (B.bits * k + r) B)
    have hsplit := Nat.mod_add_div x.toNat (2 ^ (B.bits * k))
    rw [htop, hcut] at hset
    rw [clearUnusedBits, mostSignificantBlock, hn, Nat.add_sub_cancel, Nat.pow_add, Nat.mod_mul]
    omega

theorem valid_of_toNat {v : Nat} (h : x.toNat = v % 2 ^ N) : x.Valid :=
  valid_iff.mpr (h ▸ Nat.mod_lt v (Nat.two_pow_pos N))

theorem Valid.mod_eq (h : x.Valid) : x.toNat % 2 ^ N = x.toNat := Nat.mod_eq_of_lt (valid_iff.mp h)

/-- What is written block by block, and cleared. -/
theorem toNat_ofBlocks_clear {f : Nat → BitVec B.bits} {v : Nat} (h : ∀ i < numOfBlocks N B,
    (f i).toNat = v / 2 ^ (B.bits * i) % 2 ^ B.bits) :
    (ofBlocks f : Uint N B).clearUnusedBits.toNat = v % 2 ^ N := by
  rw [toNat_clearUnusedBits, toNat_ofBlocks h, Nat.mod_mod_of_dvd _ (two_pow_dvd N B)]

/-! ## Constructors -/

theorem fill_reverse {w t : Nat} (i : Nat) (temp : BitVec t) (blocks : List (BitVec w)) :
    (fill i temp blocks).reverse =
      blocks.reverse ++ (List.range i).map fun j => (temp >>> (w * j)).setWidth w := by
  induction i generalizing temp blocks with
  | zero => simp [fill]
  | succ i ih =>
    have hshift : ∀ j, temp >>> w >>> (w * j) = temp >>> (w * (j + 1)) := fun j => by
      rw [← BitVec.shiftRight_add, Nat.mul_succ, Nat.add_comm]
    rw [fill, ih, List.reverse_cons, List.append_assoc, List.range_succ_eq_map, List.map_cons,
      List.map_map]
    simp [hshift, Function.comp_def]

/-- One block, with nothing above it. -/
theorem toNat_setBlock_zero (b : BitVec B.bits) :
    ((setBlock zero 0 b : Uint N B).clearUnusedBits).toNat = b.toNat % 2 ^ N := by
  rw [toNat_clearUnusedBits]
  cases hn : numOfBlocks N B with
  | zero =>
    have hN : N = 0 := by
      have hspec := (numOfBlocks_spec N B).1
      rw [hn] at hspec
      omega
    subst hN
    rw [Nat.pow_zero, Nat.mod_one, Nat.mod_one]
  | succ k =>
    have hset := (zero : Uint N B).toNat_setBlock (i := 0) (by omega) b
    rw [toNat_block, toNat_zero, Nat.zero_div, Nat.zero_mod, Nat.mul_zero, Nat.mul_zero, Nat.pow_zero,
      Nat.one_mul, Nat.zero_add, Nat.add_zero] at hset
    rw [hset]

theorem toNat_ofUnsigned (T : UnsignedType) (val : BitVec T.bits) :
    (ofUnsigned T val : Uint N B).toNat = val.toNat % 2 ^ N := by
  unfold ofUnsigned
  split
  · next hle =>
    have hbits : T.bits ≤ B.bits := Nat.mul_le_mul_left 8 hle
    have hval : val.toNat < 2 ^ B.bits :=
      Nat.lt_of_lt_of_le val.isLt (Nat.pow_le_pow_right (by decide) hbits)
    rw [toNat_setBlock_zero, BitVec.toNat_setWidth, Nat.mod_eq_of_lt hval]
  · have hwords :
        value ((List.range (numOfBlocks N B)).map fun j => (val >>> (B.bits * j)).setWidth B.bits) =
        val.toNat % 2 ^ (B.bits * numOfBlocks N B) := value_map_range fun i _ => by
      rw [BitVec.toNat_setWidth, BitVec.toNat_ushiftRight, Nat.shiftRight_eq_div_pow]
    rw [toNat_clearUnusedBits, toNat]
    simp only [fill_reverse, List.reverse_nil, List.nil_append]
    rw [hwords, Nat.mod_mod_of_dvd _ (two_pow_dvd N B)]

theorem toNat_ofInt {v : Nat} (hv : v < 2 ^ 32) : (ofInt v : Uint N B).toNat = v % 2 ^ N := by
  have hv : v < 2 ^ UnsignedType.uint32.bits := hv
  rw [ofInt, toNat_ofUnsigned, BitVec.toNat_ofNat, Nat.mod_eq_of_lt hv]

/-! ## Shifts -/

/-- There is nothing in the blocks from the last one on. -/
theorem toNat_div_eq_zero (x : Uint N B) {i : Nat} (hi : numOfBlocks N B ≤ i) :
    x.toNat / 2 ^ (B.bits * i) = 0 :=
  Nat.div_eq_of_lt (Nat.lt_of_lt_of_le x.toNat_lt_blocks
    (Nat.pow_le_pow_right (by decide) (Nat.mul_le_mul_left _ hi)))

theorem shiftBlocksRight_returns (x : Uint N B) {offset : Nat} (h : offset ≤ numOfBlocks N B) :
    (x.shiftBlocksRight offset).Returns fun z => z.toNat = x.toNat / 2 ^ (B.bits * offset) := by
  simp only [shiftBlocksRight, returns_bind, returns_asserting, pure_eq, returns_next]
  refine ⟨h, ?_⟩
  rw [toNat_ofBlocks (v := x.toNat / 2 ^ (B.bits * offset))]
  · exact Nat.mod_eq_of_lt (Nat.lt_of_le_of_lt (Nat.div_le_self ..) x.toNat_lt_blocks)
  · intro i hi
    rw [Nat.div_div_eq_div_mul, ← Nat.pow_add, ← Nat.mul_add, Nat.add_comm offset]
    split
    · exact toNat_block x (i + offset)
    · next hout =>
      rw [x.toNat_div_eq_zero (by omega)]
      rfl

theorem shiftBlocksLeft_returns (x : Uint N B) {offset : Nat} (h : offset ≤ numOfBlocks N B) :
    (x.shiftBlocksLeft offset).Returns fun z => z.toNat = x.toNat * 2 ^ (B.bits * offset) % 2 ^ N := by
  simp only [shiftBlocksLeft, returns_bind, returns_asserting, pure_eq, returns_next]
  refine ⟨h, toNat_ofBlocks_clear fun i hi => ?_⟩
  split
  · next hlt => exact (shifted_low hlt x.toNat 0).symm
  · next hge =>
    have hdigit := shifted_high (w := B.bits) (i - offset) offset x.toNat 0
    rw [Nat.sub_add_cancel (Nat.le_of_not_lt hge), Nat.add_zero, Nat.pow_zero, Nat.mul_one] at hdigit
    rw [hdigit, toNat_block]

theorem shiftLeft_returns (hx : x.Valid) {shift : Nat} (h : shift < N) :
    (x.shiftLeft shift).Returns fun z => z.toNat = x.toNat * 2 ^ shift % 2 ^ N := by
  have hshift := Nat.div_add_mod shift B.bits
  have hbits := Nat.mod_lt shift B.bits_pos
  have hblocks : shift / B.bits < numOfBlocks N B :=
    Nat.div_lt_of_lt_mul (Nat.lt_of_lt_of_le h (numOfBlocks_spec N B).1)
  simp only [shiftLeft, returns_bind, returns_asserting]
  refine ⟨h, ?_⟩
  split
  · next h0 =>
    subst h0
    rw [Nat.pow_zero, Nat.mul_one]
    exact hx.mod_eq.symm
  · next h0 =>
    split
    · next hzero =>
      rw [hzero, Nat.add_zero] at hshift
      have hreturns := x.shiftBlocksLeft_returns (Nat.le_of_lt hblocks)
      rwa [hshift] at hreturns
    · next hne =>
      simp only [returns_bind, returns_asserting, pure_eq, returns_next]
      refine ⟨⟨Nat.pos_of_ne_zero hne, hbits⟩, toNat_ofBlocks_clear fun i _ => ?_⟩
      have hw : shift % B.bits + (B.bits - shift % B.bits) = B.bits := by omega
      conv_rhs => rw [← hshift]
      split
      · next hlt => exact (shifted_low hlt ..).symm
      · next hge =>
        obtain ⟨j, rfl⟩ : ∃ j, i = j + shift / B.bits := ⟨i - shift / B.bits, by omega⟩
        rw [shifted_high]
        split
        · next heq =>
          have hj : j = 0 := by omega
          subst hj
          rw [BitVec.toNat_shiftLeft, Nat.shiftLeft_eq, toNat_block, Nat.mul_zero, Nat.pow_zero,
            Nat.div_one, Nat.div_one, Nat.mod_mul_mod]
        · next hnext =>
          obtain ⟨j, rfl⟩ : ∃ k, j = k + 1 := ⟨j - 1, by omega⟩
          rw [Nat.add_sub_cancel, Nat.add_sub_cancel, Words.toNat_shiftLeft_or hw, toNat_block,
            toNat_block, div_two_pow_succ, shifted_next hw, Words.shiftLeft_word hw]

theorem shiftRight_returns (hx : x.Valid) {shift : Nat} (h : shift < N) :
    (x.shiftRight shift).Returns fun z => z.toNat = x.toNat / 2 ^ shift := by
  have hshift := Nat.div_add_mod shift B.bits
  have hbits := Nat.mod_lt shift B.bits_pos
  have hblocks : shift / B.bits < numOfBlocks N B :=
    Nat.div_lt_of_lt_mul (Nat.lt_of_lt_of_le h (numOfBlocks_spec N B).1)
  simp only [shiftRight, returns_bind, returns_asserting]
  refine ⟨h, ?_⟩
  split
  · next h0 =>
    subst h0
    rw [Nat.pow_zero, Nat.div_one]
    rfl
  · next h0 =>
    split
    · next hzero =>
      rw [hzero, Nat.add_zero] at hshift
      have hreturns := x.shiftBlocksRight_returns (Nat.le_of_lt hblocks)
      rwa [hshift] at hreturns
    · next hne =>
      simp only [returns_bind, returns_asserting, pure_eq, returns_next]
      have hw : shift % B.bits + (B.bits - shift % B.bits) = B.bits := by omega
      have hlt : x.toNat / 2 ^ shift < 2 ^ N := Nat.lt_of_le_of_lt (Nat.div_le_self ..) (valid_iff.mp hx)
      refine ⟨⟨Nat.pos_of_ne_zero hne, hbits⟩, ?_⟩
      rw [← Nat.mod_eq_of_lt hlt]
      refine toNat_ofBlocks_clear fun i _ => ?_
      -- Block `i` comes from the blocks `i + shift / B.bits` and the next one.
      have hdigit : x.toNat / 2 ^ shift / 2 ^ (B.bits * i) =
          x.toNat / 2 ^ (B.bits * (i + shift / B.bits)) / 2 ^ (shift % B.bits) := by
        conv_lhs => rw [← hshift]
        rw [Nat.div_div_eq_div_mul, Nat.div_div_eq_div_mul, ← Nat.pow_add, ← Nat.pow_add, Nat.mul_add]
        congr 2
        omega
      rw [hdigit]
      split
      · next hkeep =>
        rw [Words.toNat_shiftRight_or hw, toNat_block, toNat_block, div_two_pow_succ,
          Words.shiftRight_word hw]
      · next hkeep =>
        split
        · next hlast =>
          have hi : i + shift / B.bits = numOfBlocks N B - 1 := by omega
          have htop : x.toNat / 2 ^ (B.bits * (numOfBlocks N B - 1)) < 2 ^ B.bits := by
            refine Nat.div_lt_of_lt_mul ?_
            rw [← Nat.pow_add, ← Nat.mul_succ, Nat.succ_eq_add_one, Nat.sub_add_cancel (by omega)]
            exact x.toNat_lt_blocks
          rw [hi, mostSignificantBlock, BitVec.toNat_ushiftRight, Nat.shiftRight_eq_div_pow, toNat_block,
            Nat.mod_eq_of_lt htop]
          exact (Nat.mod_eq_of_lt (Nat.lt_of_le_of_lt (Nat.div_le_self ..) htop)).symm
        · next hout =>
          rw [x.toNat_div_eq_zero (by omega), Nat.zero_div, Nat.zero_mod]
          rfl

end Uint
