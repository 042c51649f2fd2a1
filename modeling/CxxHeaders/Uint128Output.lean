/-
`uint128_t.h`: the output of a `uint128_t`, and what it has in common with that
of a `uint_t`: the text is the number's digits, and reads as the number again.

As for `uint_t`, the buffer is the characters in it, from the index on; a write
in front of it is a failure here. That the field has no width is assumed.
-/
import CxxHeaders.Uint128Arithmetic
import CxxHeaders.UintOutput

open Outcome

namespace Uint128

open Uint (Flags put text)

/-- The loop over the digits, the lowest first. -/
def digits (table : List Char) (base : BitVec 64) :
    Nat → Uint128 → Nat × List Char → Outcome (Except String (Nat × List Char))
  | 0, _, _ => .blocked
  | fuel + 1, x, buff =>
    if x.gt (ofLower 0) then do
      match ← divMod x (ofLower base) with
      | .error e => return .error e
      | .ok (x, r) => digits table base fuel x (← put table r.lower.toNat buff)
    else return .ok buff

/-- `buff_size`: enough for base 8, and more. -/
def buffSize : Nat := 64

/-- `operator << (std::ostream &, uint128_t)`: what it writes. -/
def output (flags : Flags) (x : Uint128) : Outcome (Except String (List Char)) := do
  let written := if x.eq (ofLower 0) then ['0'] else []
  if x.gt (ofLower 0) then
    let base := 10
    let table := Uint.lower
    let base := if flags.hex then 16 else base
    let base := if flags.oct then 8 else base
    let table := if flags.uppercase then Uint.upper else table
    match ← digits table base 129 x (buffSize, []) with
    | .error e => return .error e
    | .ok buff =>
      let buff ← if flags.showpos then put ['+'] 0 buff else pure buff
      return .ok (written ++ buff.2)
  else return .ok written

variable {x : Uint128}

theorem toNat_lower (x : Uint128) (hx : x.toNat < 2 ^ 64) : x.lower.toNat = x.toNat := by
  have hlower := x.lower.isLt
  unfold toNat at hx ⊢
  omega

/-- As many digits as there are, are put in front of what is there. -/
theorem digits_returns {table : List Char} (base : BitVec 64) (h1 : 1 < base.toNat)
    (h16 : base.toNat ≤ 16) (htable : table.length = 16) (fuel : Nat) {i : Nat} (cs : List Char)
    (hfuel : (Nat.digits base.toNat x.toNat).length < fuel)
    (hi : (Nat.digits base.toNat x.toNat).length ≤ i) :
    digits table base fuel x (i, cs) =
      .next (.ok (i - (Nat.digits base.toNat x.toNat).length, text table base.toNat x.toNat ++ cs)) := by
  induction fuel generalizing x i cs with
  | zero => omega
  | succ fuel ih =>
    unfold digits
    split
    · next hgt =>
      rw [gt, lt_iff, toNat_ofLower] at hgt
      have hbase : (ofLower base).toNat = base.toNat := toNat_ofLower base
      obtain ⟨d, hd, q, r, hok, hdiv, hlt⟩ := (divMod_returns x (ofLower base) (by omega)).exists
      subst hok
      rw [hbase] at hdiv hlt
      have hq : q.toNat = x.toNat / base.toNat := by
        rw [← hdiv, Nat.mul_comm, Nat.mul_add_div (by omega), Nat.div_eq_of_lt hlt, Nat.add_zero]
      have hr : r.toNat = x.toNat % base.toNat := by
        rw [← hdiv, Nat.mul_comm, Nat.mul_add_mod, Nat.mod_eq_of_lt hlt]
      rw [Nat.digits_def' h1 hgt, List.length_cons] at hfuel hi ⊢
      simp only [hd, next_bind]
      rw [toNat_lower r (by omega), hr, Uint.put_eq (by omega) (by omega), next_bind,
        ih _ (by rw [hq]; omega) (by rw [hq]; omega), hq, Uint.text_succ h1 hgt, List.append_assoc]
      congr 3
      omega
    · next hle =>
      rw [gt, lt_iff, toNat_ofLower] at hle
      have hzero : x.toNat = 0 := Nat.eq_zero_of_not_pos hle
      rw [hzero, text, Nat.digits_zero]
      rfl

/-- The base, as the code chooses it. -/
theorem toNat_base (flags : Flags) :
    (if flags.oct then 8 else if flags.hex then 16 else 10 : BitVec 64).toNat = flags.base := by
  unfold Flags.base
  split
  · rfl
  · split <;> rfl

theorem length_digits_le (flags : Flags) (x : Uint128) : (Nat.digits flags.base x.toNat).length ≤ 43 := by
  have hbase : 8 ≤ flags.base := by rcases flags.base_cases with h | h | h <;> omega
  rw [Nat.digits_length_le_iff (by omega)]
  exact Nat.lt_of_lt_of_le x.toNat_lt (Nat.le_trans (by decide) (Nat.pow_le_pow_left hbase 43))

/-- The sign, if it is asked for, and the digits. -/
theorem output_returns (flags : Flags) (x : Uint128) :
    output flags x = .next (.ok (if x.toNat = 0 then ['0']
      else (if flags.showpos then ['+'] else []) ++ text flags.table flags.base x.toNat)) := by
  have heq : x.eq (ofLower 0) ↔ x.toNat = 0 := by rw [eq_iff, toNat_ofLower]; rfl
  have hgt : x.gt (ofLower 0) ↔ x.toNat ≠ 0 := by
    rw [gt, lt_iff, toNat_ofLower]
    exact Nat.pos_iff_ne_zero
  unfold output
  by_cases hzero : x.toNat = 0
  · rw [if_pos (heq.mpr hzero), if_neg (hgt.not.mpr (not_not.mpr hzero)), if_pos hzero]
    rfl
  · have hlen := length_digits_le flags x
    have hbase : 8 ≤ flags.base ∧ flags.base ≤ 16 := by rcases flags.base_cases with h | h | h <;> omega
    have hcode := toNat_base flags
    have hdigits := digits_returns (x := x) _ (by rw [hcode]; omega) (by rw [hcode]; omega)
      flags.length_table 129 (i := buffSize) []
    rw [hcode, List.append_nil] at hdigits
    have hloop := hdigits (by omega) (Nat.le_trans hlen (by decide))
    have hroom : buffSize - (Nat.digits flags.base x.toNat).length ≠ 0 := by
      unfold buffSize
      omega
    unfold Flags.table at hloop
    rw [if_neg (heq.not.mpr hzero), if_pos (hgt.mpr hzero), if_neg hzero]
    simp only [hloop, next_bind]
    split
    · rw [Uint.put_eq (Nat.lt_succ_self 0) hroom, next_bind]
      rfl
    · rfl

end Uint128
