/-
All conversions give one and the same number (`Integer.preserves`): the source's
value, cut off at the width of the target. Bytes that are copied are the digits
of the value (`toNat_memcpy`), and the loop over the blocks puts them together
again (`demoteBlocks_returns`).
-/
import CxxHeaders.Uint128Arithmetic
import CxxHeaders.UintArithmetic
import CxxHeaders.UintConversions

open Outcome Digits

namespace Uint

variable {N M : Nat} {B C : UnsignedType}

/-! ## Bytes -/

theorem two_pow_bits (B : UnsignedType) : 256 ^ B.sizeof = 2 ^ B.bits := (Nat.pow_mul 2 8 B.sizeof).symm

theorem ofLittle_bytes (x : Uint N B) : Bytes.ofLittle (x.bytes .little) = x.toNat := by
  suffices h : ∀ l : List (BitVec B.bits),
      Bytes.ofLittle (l.flatMap fun b => Bytes.little B.sizeof b.toNat) = value l from h x.blocks
  intro l
  induction l with
  | nil => rfl
  | cons b bs ih =>
    have hb : b.toNat < 256 ^ B.sizeof := two_pow_bits B ▸ b.isLt
    rw [List.flatMap_cons, ofLittle_append, Bytes.ofLittle_little hb, Bytes.length_little, ih]
    rfl

theorem length_bytes (x : Uint N B) : (x.bytes .little).length = numOfBlocks N B * B.sizeof := by
  rw [← x.length_blocks, bytes, List.length_flatMap]
  simp [Bytes.encode]

theorem toNat_ofBytes (bs : List UInt8) :
    (ofBytes .little bs : Uint N B).toNat = Bytes.ofLittle bs % 2 ^ (B.bits * numOfBlocks N B) := by
  refine toNat_ofBlocks fun i _ => ?_
  have hbits : 8 * (B.sizeof * i) = B.bits * i := (Nat.mul_assoc ..).symm
  have hdigit : Bytes.ofLittle ((bs.drop (B.sizeof * i)).take B.sizeof) =
      Bytes.ofLittle bs / 2 ^ (B.bits * i) % 2 ^ B.bits := by
    rw [ofLittle_take, ofLittle_drop, hbits]
    rfl
  have hlt := Nat.mod_lt (Bytes.ofLittle bs / 2 ^ (B.bits * i)) (Nat.two_pow_pos B.bits)
  rw [BitVec.toNat_ofNat, Bytes.decode, hdigit, Nat.mod_eq_of_lt hlt]

/-- The first bytes are the lowest ones. -/
theorem toNat_memcpy (other : Uint M C) {n : Nat} (hn : n ≤ numOfBlocks M C * C.sizeof) :
    (memcpy .little zero other n : Uint N B).toNat =
      other.toNat % 2 ^ (8 * n) % 2 ^ (B.bits * numOfBlocks N B) := by
  have hlen : ((other.bytes .little).take n).length = n := by
    rw [List.length_take, length_bytes]
    omega
  rw [memcpy, toNat_ofBytes, ofLittle_append, hlen, ofLittle_take, ofLittle_drop, ofLittle_bytes,
    ofLittle_bytes, toNat_zero, Nat.zero_div, Nat.mul_zero, Nat.add_zero]

theorem toNat_ofUint (other : Uint M C) :
    (ofUint .little other : Uint N B).toNat = other.toNat % 2 ^ N := by
  have hdest : 8 * (numOfBlocks N B * B.sizeof) = B.bits * numOfBlocks N B := by
    rw [Nat.mul_comm (numOfBlocks N B), ← Nat.mul_assoc]
    rfl
  have hsource : 8 * (numOfBlocks M C * C.sizeof) = C.bits * numOfBlocks M C := by
    rw [Nat.mul_comm (numOfBlocks M C), ← Nat.mul_assoc]
    rfl
  rw [ofUint, toNat_clearUnusedBits, toNat_memcpy _ (Nat.min_le_right ..),
    Nat.mod_mod_of_dvd _ (two_pow_dvd N B)]
  by_cases hle : numOfBlocks N B * B.sizeof ≤ numOfBlocks M C * C.sizeof
  · rw [Nat.min_eq_left hle, hdest, Nat.mod_mod_of_dvd _ (two_pow_dvd N B)]
  · rw [Nat.min_eq_right (by omega), hsource, Nat.mod_eq_of_lt other.toNat_lt_blocks]

/-! ## Halves -/

theorem toNat_ofUnsigned64 (val : BitVec 64) :
    (ofUnsigned .uint64 val : Uint N B).toNat = val.toNat % 2 ^ N :=
  toNat_ofUnsigned .uint64 val

theorem ofUint128_returns (hN : 64 < N) (other : Uint128) :
    (ofUint128 other : Outcome (Uint N B)).Returns fun z => z.toNat = other.toNat % 2 ^ N := by
  have hdest : ((ofInt 0 : Uint N B).add (ofUnsigned .uint64 other.upper)).toNat =
      other.upper.toNat % 2 ^ N := by
    rw [add_toNat, toNat_ofInt (Nat.two_pow_pos 32), toNat_ofUnsigned64, Nat.zero_mod, Nat.zero_add,
      Nat.mod_mod]
  simp only [ofUint128, returns_bind]
  refine (shiftLeft_returns (valid_of_toNat hdest) hN).mono fun dest hshift => ?_
  rw [pure_eq, returns_next, toNat_clearUnusedBits, add_toNat, toNat_ofUnsigned64, hshift, hdest,
    Nat.mod_mod, Nat.mod_mul_mod, ← Nat.add_mod, Nat.mul_comm]
  rfl

/-! ## Blocks -/

/-- The loop, for any target: `R out v` says that `out` stands for the number `v`. -/
theorem demoteBlocks_returns {T : Type} {shl : T → Nat → Outcome T} {add : T → BitVec B.bits → T}
    {R : T → Nat → Prop} (hshl : ∀ out v, R out v → (shl out B.bits).Returns (R · (v * 2 ^ B.bits)))
    (hadd : ∀ out v b, R out v → R (add out b) (v + b.toNat)) (x : Uint N B) (i : Nat) {out : T}
    {v : Nat}
    (h : R out v) : (demoteBlocks shl add x i out).Returns
      (R · (v * 2 ^ (B.bits * i) + x.toNat % 2 ^ (B.bits * i))) := by
  induction i generalizing out v with
  | zero => simpa [demoteBlocks, Nat.mod_one] using h
  | succ i ih =>
    have hvalue : (v * 2 ^ B.bits + (x.block i).toNat) * 2 ^ (B.bits * i) + x.toNat % 2 ^ (B.bits * i) =
        v * 2 ^ (B.bits * (i + 1)) + x.toNat % 2 ^ (B.bits * (i + 1)) := by
      rw [toNat_block, two_pow_succ, Nat.mul_comm (2 ^ B.bits) (2 ^ _), Nat.mod_mul]
      ring
    simp only [demoteBlocks, returns_bind]
    refine (hshl out v h).mono fun out' hout => ?_
    have hrest := ih (hadd out' _ (x.block i) hout)
    rwa [hvalue] at hrest

/-- Over all blocks, from 0. -/
theorem demoteBlocks_all {T : Type} {shl : T → Nat → Outcome T} {add : T → BitVec B.bits → T}
    {R : T → Nat → Prop} (hshl : ∀ out v, R out v → (shl out B.bits).Returns (R · (v * 2 ^ B.bits)))
    (hadd : ∀ out v b, R out v → R (add out b) (v + b.toNat)) (x : Uint N B) {out : T} (h : R out 0) :
    (demoteBlocks shl add x (numOfBlocks N B) out).Returns (R · x.toNat) := by
  have hloop := demoteBlocks_returns hshl hadd x (numOfBlocks N B) h
  rwa [Nat.zero_mul, Nat.zero_add, Nat.mod_eq_of_lt x.toNat_lt_blocks] at hloop

theorem toNat_leastSignificantBlock (x : Uint N B) :
    x.leastSignificantBlock.toNat = x.toNat % 2 ^ B.bits := by
  rw [leastSignificantBlock, toNat_block, Nat.mul_zero, Nat.pow_zero, Nat.div_one]

theorem demoteToUnsigned_returns (T : UnsignedType) (x : Uint N B) :
    (x.demoteToUnsigned T).Returns fun z => z.toNat = x.toNat % 2 ^ T.bits := by
  unfold demoteToUnsigned
  split
  · next hle =>
    rw [pure_eq, returns_next, BitVec.toNat_setWidth, toNat_leastSignificantBlock,
      Nat.mod_mod_of_dvd _ (Nat.pow_dvd_pow 2 hle)]
  · refine demoteBlocks_all (R := fun (z : BitVec T.bits) v => z.toNat = v % 2 ^ T.bits) ?_ ?_ x ?_
    · intro out v h
      rw [returns_next, BitVec.toNat_shiftLeft, Nat.shiftLeft_eq, h, Nat.mod_mul_mod]
    · intro out v b h
      rw [BitVec.toNat_add, BitVec.toNat_setWidth, h, ← Nat.add_mod]
    · rw [Nat.zero_mod]
      rfl

theorem demoteToUint128_returns (x : Uint N B) :
    x.demoteToUint128.Returns fun z => z.toNat = x.toNat % 2 ^ 128 := by
  refine demoteBlocks_all (R := fun (z : Uint128) v => z.toNat = v % 2 ^ 128) ?_ ?_ x ?_
  · intro out v h
    have hbits : B.bits < 128 := by cases B <;> decide
    refine (Uint128.shiftLeft_returns out hbits).mono fun z hz => ?_
    rw [hz, h, Nat.mod_mul_mod]
  · intro out v b h
    have hb : b.toNat < 2 ^ 64 :=
      Nat.lt_of_lt_of_le b.isLt (Nat.pow_le_pow_right (by decide) (by cases B <;> decide))
    rw [Uint128.add_toNat, Uint128.toNat_ofLower, BitVec.toNat_setWidth, Nat.mod_eq_of_lt hb, h,
      Nat.mod_add_mod]
  · rfl

theorem demoteToOtherUint_returns (M : Nat) (C : UnsignedType) (x : Uint N B) :
    (x.demoteToOtherUint M C).Returns fun z => z.toNat = x.toNat % 2 ^ M := by
  unfold demoteToOtherUint
  split
  · next hle =>
    rw [pure_eq, returns_next, toNat_ofUnsigned, toNat_leastSignificantBlock,
      Nat.mod_mod_of_dvd _ (Nat.pow_dvd_pow 2 hle)]
  · next hlt =>
    refine demoteBlocks_all (R := fun (z : Uint M C) v => z.toNat = v % 2 ^ M) ?_ ?_ x ?_
    · intro out v h
      refine (shiftLeft_returns (valid_of_toNat h) (Nat.lt_of_not_le hlt)).mono fun z hz => ?_
      rw [hz, h, Nat.mod_mul_mod]
    · intro out v b h
      rw [add_toNat, toNat_ofUnsigned, h, ← Nat.add_mod]
    · exact toNat_ofInt (Nat.two_pow_pos 32)

end Uint

/-! ## Everything -/

namespace Integer

def toNat : (t : Integer) → t.Value → Nat
  | .unsigned _, x => BitVec.toNat x
  | .uint128, x => Uint128.toNat x
  | .uint _ _, x => Uint.toNat x

/-- Unused bits are zero; only a `uint_t` has any. -/
def Valid : (t : Integer) → t.Value → Prop
  | .uint _ _, x => Uint.Valid x
  | _, _ => True

/-- A value for the number, with the unused bits at zero. -/
def Is (t : Integer) (v : Nat) (z : t.Value) : Prop := t.Valid z ∧ t.toNat z = v

theorem toNat_inj {t : Integer} {x y : t.Value} (h : t.toNat x = t.toNat y) : x = y := by
  cases t with
  | unsigned T => exact BitVec.eq_of_toNat_eq h
  | uint128 => exact Uint128.toNat_inj h
  | uint N B => exact Uint.toNat_inj h

theorem toNat_lt {t : Integer} {x : t.Value} (h : t.Valid x) : t.toNat x < 2 ^ t.sizeInBits := by
  cases t with
  | unsigned T => exact BitVec.isLt x
  | uint128 => exact Uint128.toNat_lt x
  | uint N B => exact Uint.valid_iff.mp h

theorem construct_returns (N : Nat) (B : UnsignedType) {src : Integer} {x : src.Value} (hx : src.Valid x)
    (hN : src = .uint128 → 64 < N) :
    (Uint.construct .little N B src x).Returns ((uint N B).Is (src.toNat x % 2 ^ N)) := by
  cases src with
  | unsigned T => exact Uint.is_of_mod (Uint.toNat_ofUnsigned T x)
  | uint128 => exact (Uint.ofUint128_returns (hN rfl) x).mono fun _ => Uint.is_of_mod
  | uint M C =>
    by_cases h : M = N ∧ C = B
    · obtain ⟨rfl, rfl⟩ := h
      rw [Uint.construct, dif_pos ⟨rfl, rfl⟩]
      exact Uint.is_of_mod (Uint.Valid.mod_eq hx).symm
    · rw [Uint.construct, dif_neg h]
      exact Uint.is_of_mod (Uint.toNat_ofUint x)

theorem demote_returns {N : Nat} {B : UnsignedType} (x : Uint N B) (dst : Integer) :
    (x.demote dst).Returns (dst.Is (x.toNat % 2 ^ dst.sizeInBits)) := by
  cases dst with
  | unsigned T => exact (x.demoteToUnsigned_returns T).mono fun _ hz => ⟨trivial, hz⟩
  | uint128 => exact x.demoteToUint128_returns.mono fun _ hz => ⟨trivial, hz⟩
  | uint M C => exact (x.demoteToOtherUint_returns M C).mono fun _ => Uint.is_of_mod

theorem lower_mod (x : Uint128) {w : Nat} (hw : w ≤ 64) : x.lower.toNat % 2 ^ w = Uint128.toNat x % 2 ^ w := by
  have hsplit : 2 ^ 64 = 2 ^ w * 2 ^ (64 - w) := by rw [← Nat.pow_add, Nat.add_sub_cancel' hw]
  rw [Uint128.toNat, hsplit, Nat.mul_assoc, Nat.mul_add_mod]

theorem demoteInteger_returns {dst src : Integer} (h : canDemote dst src) {x : src.Value}
    (hx : src.Valid x) :
    (demoteInteger .little dst src x).Returns (dst.Is (src.toNat x % 2 ^ dst.sizeInBits)) := by
  cases src with
  | unsigned U =>
    cases dst with
    | unsigned T => exact ⟨trivial, BitVec.toNat_setWidth T.bits x⟩
    | uint128 => cases h
    | uint N B => exact construct_returns N B hx fun h => by cases h
  | uint128 =>
    cases dst with
    | unsigned T =>
      have hbits : T.bits ≤ 64 := by cases T <;> decide
      exact ⟨trivial, (BitVec.toNat_setWidth T.bits (Uint128.lower x)).trans (lower_mod x hbits)⟩
    | uint128 | uint N B => cases h
  | uint N B => cases dst <;> exact demote_returns x _

/-- There and back: what comes back is the source again. -/
theorem eq_of_is (src : Integer) {x y : src.Value} (hx : src.Valid x)
    (h : src.Is (src.toNat x % 2 ^ src.sizeInBits) y) : y = x :=
  toNat_inj (h.2.trans (Nat.mod_eq_of_lt (toNat_lt hx)))

theorem Is.of_le (t src : Integer) {x : src.Value} (hx : src.Valid x)
    (hle : src.sizeInBits ≤ t.sizeInBits) {z : t.Value} (h : t.Is (src.toNat x % 2 ^ t.sizeInBits) z) :
    t.Valid z ∧ t.toNat z = src.toNat x := by
  have hlt := Nat.lt_of_lt_of_le (toNat_lt hx) (Nat.pow_le_pow_right (by decide) hle)
  exact ⟨h.1, h.2.trans (Nat.mod_eq_of_lt hlt)⟩

theorem canDemote_widened {src : Integer} {N : Nat} (B : UnsignedType) (h : src.sizeInBits < N) :
    canDemote src (uint N B) := by
  cases src <;> exact decide_eq_true h

/-- The members of `uint_t` demote to any width, and so widen as well. -/
structure ByMembers {N : Nat} {B : UnsignedType} (x : Uint N B) : Prop where
  demote : ∀ dst, (x.demote dst).Returns (dst.Is (x.toNat % 2 ^ dst.sizeInBits))
  widen : ∀ dst, N ≤ dst.sizeInBits → (dst = .uint128 → 64 < N) →
    (x.demote dst >>= Uint.construct .little N B dst).Returns (· = x)

theorem byMembers {N : Nat} {B : UnsignedType} {x : Uint N B} (hx : x.Valid) : ByMembers x where
  demote := demote_returns x
  widen dst hle hN := by
    refine returns_bind.mpr ((demote_returns x dst).mono fun z hz => ?_)
    obtain ⟨hvalid, hvalue⟩ := Is.of_le dst (uint N B) hx hle hz
    refine (construct_returns N B hvalid hN).mono fun y hy => ?_
    rw [hvalue] at hy
    exact eq_of_is (uint N B) hx hy

def Members : (src : Integer) → src.Value → Prop
  | .uint N B, x => @ByMembers N B x
  | _, _ => True

structure Preserved (src : Integer) (x : src.Value) : Prop where
  construct : ∀ N B, (src = .uint128 → 64 < N) →
    (Uint.construct .little N B src x).Returns ((uint N B).Is (src.toNat x % 2 ^ N))
  demote : ∀ dst, canDemote dst src →
    (demoteInteger .little dst src x).Returns (dst.Is (src.toNat x % 2 ^ dst.sizeInBits))
  widen : ∀ N B, src.sizeInBits < N →
    (Uint.construct .little N B src x >>= demoteInteger .little src (uint N B)).Returns (· = x)
  members : Members src x

/-- **Conversions preserve values**, whatever the widths and the blocks. -/
theorem preserves (src : Integer) (x : src.Value) (hx : src.Valid x) : Preserved src x where
  construct N B := construct_returns N B hx
  demote dst h := demoteInteger_returns h hx
  widen N B hN := by
    have hwide : src = .uint128 → 64 < N := fun h => by
      subst h
      exact Nat.lt_trans (by decide) hN
    refine returns_bind.mpr ((construct_returns N B hx hwide).mono fun z hz => ?_)
    obtain ⟨hvalid, hvalue⟩ := Is.of_le (uint N B) src hx (Nat.le_of_lt hN) hz
    refine (demoteInteger_returns (canDemote_widened B hN) hvalid).mono fun y hy => ?_
    rw [hvalue] at hy
    exact eq_of_is src hx hy
  members := by
    cases src with
    | uint N B => exact byMembers hx
    | _ => trivial

theorem preserves_thirteenBits : Preserved (uint 13 .uint8) (Uint.ofInt 8191) :=
  preserves (uint 13 .uint8) (Uint.ofInt 8191) (Uint.valid_iff.mpr (by decide))

end Integer
