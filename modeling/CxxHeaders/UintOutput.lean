/-
The output of a `uint_t` is its digits (`output_returns`), and they fit into the
buffer: a base is at least eight, so a digit takes three bits or more.
-/
import CxxHeaders.UintDivides
import Mathlib.Data.Nat.Digits.Lemmas

open Outcome

namespace Uint

variable {N : Nat} {B : UnsignedType} {x : Uint N B}

/-- The base that the flags ask for. -/
def Flags.base (flags : Flags) : Nat := if flags.oct then 8 else if flags.hex then 16 else 10

def Flags.table (flags : Flags) : List Char := if flags.uppercase then upper else lower

/-- The digits of a number, the highest first. -/
def text (table : List Char) (b n : Nat) : List Char := ((Nat.digits b n).map (table.getD · '0')).reverse

theorem Flags.base_cases (flags : Flags) : flags.base = 8 ∨ flags.base = 16 ∨ flags.base = 10 := by
  unfold Flags.base
  split
  · exact .inl rfl
  · split
    · exact .inr (.inl rfl)
    · exact .inr (.inr rfl)

theorem Flags.length_table (flags : Flags) : flags.table.length = 16 := by
  unfold Flags.table
  split <;> rfl

theorem put_eq {table : List Char} {k i : Nat} (hk : k < table.length) (hi : i ≠ 0) (cs : List Char) :
    put table k (i, cs) = .next (i - 1, table.getD k '0' :: cs) := by
  obtain ⟨j, rfl⟩ := Nat.exists_eq_succ_of_ne_zero hi
  simp only [put, List.getElem?_eq_getElem hk, List.getD_eq_getElem _ _ hk]
  rfl

theorem text_succ {table : List Char} {b n : Nat} (hb : 1 < b) (hn : 0 < n) :
    text table b n = text table b (n / b) ++ [table.getD (n % b) '0'] := by
  rw [text, text, Nat.digits_def' hb hn, List.map_cons, List.reverse_cons]

theorem leastSignificantBlock_toNat_of_lt (x : Uint N B) (hx : x.toNat < 2 ^ 8) :
    x.leastSignificantBlock.toNat = x.toNat := by
  have hbits : 8 ≤ B.bits := by cases B <;> decide
  rw [leastSignificantBlock, toNat_block, Nat.mul_zero, Nat.pow_zero, Nat.div_one,
    Nat.mod_eq_of_lt (Nat.lt_of_lt_of_le hx (Nat.pow_le_pow_right (by decide) hbits))]

/-- As many digits as there are, are put in front of what is there. -/
theorem digits_returns (hN : 2 ≤ N) {table : List Char} (base : Uint N B) (hbase : base.Valid)
    (h1 : 1 < base.toNat) (h16 : base.toNat ≤ 16) (htable : table.length = 16) (fuel : Nat)
    {quot : Uint N B} (hquot : quot.Valid) {i : Nat} (cs : List Char)
    (hfuel : (Nat.digits base.toNat quot.toNat).length < fuel)
    (hi : (Nat.digits base.toNat quot.toNat).length ≤ i) :
    digits table base fuel quot (i, cs) =
      .next (.ok (i - (Nat.digits base.toNat quot.toNat).length, text table base.toNat quot.toNat ++ cs)) := by
  induction fuel generalizing quot i cs with
  | zero => omega
  | succ fuel ih =>
    unfold digits
    split
    · next hgt =>
      rw [gt_iff, toNat_ofInt_zero] at hgt
      obtain ⟨r, hr, temp, hok, hdiv, hlt⟩ := (divMod_returns hN hquot hbase (by omega)).exists
      subst hok
      have hq : temp.quot.toNat = quot.toNat / base.toNat := by
        rw [← hdiv, Nat.mul_comm, Nat.mul_add_div (by omega), Nat.div_eq_of_lt hlt, Nat.add_zero]
      have hm : temp.rem.toNat = quot.toNat % base.toNat := by
        rw [← hdiv, Nat.mul_comm, Nat.mul_add_mod, Nat.mod_eq_of_lt hlt]
      have hvalid : temp.quot.Valid := valid_iff.mpr
        (hq ▸ Nat.lt_of_le_of_lt (Nat.div_le_self ..) (valid_iff.mp hquot))
      have hdigit : temp.rem.leastSignificantBlock.toNat = quot.toNat % base.toNat := by
        rw [leastSignificantBlock_toNat_of_lt _ (by omega), hm]
      rw [Nat.digits_def' h1 hgt, List.length_cons] at hfuel hi ⊢
      have hne : i ≠ 0 := by omega
      simp only [asserting_true hne, next_bind, hr]
      rw [hdigit, put_eq (by omega) hne, next_bind, ih hvalid _ (by rw [hq]; omega) (by rw [hq]; omega), hq,
        text_succ h1 hgt, List.append_assoc]
      congr 3
      omega
    · next hle =>
      rw [gt_iff, toNat_ofInt_zero] at hle
      have hzero : quot.toNat = 0 := by omega
      rw [hzero, text, Nat.digits_zero]
      rfl

/-- The base, cut off. -/
def Flags.baseUint (flags : Flags) : Uint N B :=
  if flags.oct then ofInt 8 else if flags.hex then ofInt 16 else ofInt 10

theorem toNat_baseUint (flags : Flags) : (flags.baseUint : Uint N B).toNat = flags.base % 2 ^ N := by
  unfold Flags.baseUint Flags.base
  split
  · exact toNat_ofInt (by decide)
  · split
    · exact toNat_ofInt (by decide)
    · exact toNat_ofInt (by decide)

theorem length_digits_le (flags : Flags) (hx : x.Valid) :
    (Nat.digits flags.base x.toNat).length ≤ (N + 2) / 3 := by
  have hbase : 8 ≤ flags.base := by rcases flags.base_cases with h | h | h <;> omega
  have hpow : 2 ^ N ≤ 8 ^ ((N + 2) / 3) := by
    rw [show 8 = 2 ^ 3 from rfl, ← Nat.pow_mul]
    exact Nat.pow_le_pow_right (by decide) (by omega)
  rw [Nat.digits_length_le_iff (by omega)]
  exact Nat.lt_of_lt_of_le (valid_iff.mp hx) (hpow.trans (Nat.pow_le_pow_left hbase _))

/-- There is only one digit, where the code does not look for more. -/
theorem lt_base_of_few (flags : Flags) (hx : x.Valid)
    (hN : N < 4 + if (flags.baseUint : Uint N B).eq (ofInt 16) then 1 else 0) : x.toNat < flags.base := by
  have hlt := valid_iff.mp hx
  by_cases h3 : N ≤ 3
  · have hpow : 2 ^ N ≤ 2 ^ 3 := Nat.pow_le_pow_right (by decide) h3
    rcases flags.base_cases with h | h | h <;> omega
  · split at hN
    · next heq =>
      have h4 : N = 4 := by omega
      subst h4
      rw [eq_iff, toNat_baseUint, toNat_ofInt (by decide)] at heq
      rcases flags.base_cases with h | h | h <;> rw [h] at heq ⊢ <;> omega
    · omega

/-- Where it does, the base is not cut off. -/
theorem base_lt_of_many (flags : Flags)
    (hN : ¬N < 4 + if (flags.baseUint : Uint N B).eq (ofInt 16) then 1 else 0) : flags.base < 2 ^ N := by
  by_cases h4 : N = 4
  · subst h4
    split at hN
    · omega
    · next hne =>
      rw [eq_iff, toNat_baseUint, toNat_ofInt (by decide)] at hne
      rcases flags.base_cases with h | h | h <;> rw [h] at hne ⊢ <;> omega
  · have hpow : 2 ^ 5 ≤ 2 ^ N := Nat.pow_le_pow_right (by decide) (by split at hN <;> omega)
    rcases flags.base_cases with h | h | h <;> omega

theorem allDigits_eq (flags : Flags) (hx : x.Valid) (hne : x.toNat ≠ 0) :
    allDigits flags.table flags.baseUint x =
      .next (.ok (buffSize N - (Nat.digits flags.base x.toNat).length, text flags.table flags.base x.toNat)) := by
  have hlen := length_digits_le flags hx
  have hbase : 8 ≤ flags.base ∧ flags.base ≤ 16 := by rcases flags.base_cases with h | h | h <;> omega
  have htable := flags.length_table
  by_cases hfew : N < 4 + if (flags.baseUint : Uint N B).eq (ofInt 16) then 1 else 0
  · have hlt := lt_base_of_few flags hx hfew
    have hroom : buffSize N ≠ 0 := by
      unfold buffSize
      omega
    have hput := put_eq (show x.toNat < flags.table.length by omega) hroom []
    simp only [allDigits, if_pos hfew, leastSignificantBlock_toNat_of_lt x (by omega), hput, next_bind, text,
      Nat.digits_of_lt _ _ hne hlt]
    rfl
  · have hb := base_lt_of_many flags hfew
    have hcut : (flags.baseUint : Uint N B).toNat = flags.base := by
      rw [toNat_baseUint, Nat.mod_eq_of_lt hb]
    have hN : 2 ≤ N := by omega
    have hroom : (Nat.digits flags.base x.toNat).length ≤ buffSize N := by
      unfold buffSize
      omega
    have hdigits := digits_returns hN flags.baseUint (valid_iff.mpr (hcut.symm ▸ hb)) (by omega) (by omega)
      htable (N + 1) hx (i := buffSize N) []
    rw [hcut] at hdigits
    simp only [allDigits, if_neg hfew]
    rw [hdigits (by omega) hroom, List.append_nil]

/-- The sign, if it is asked for, and the digits. -/
theorem output_returns (flags : Flags) (hx : x.Valid) :
    output flags x = .next (.ok (if x.toNat = 0 then ['0']
      else (if flags.showpos then ['+'] else []) ++ text flags.table flags.base x.toNat)) := by
  unfold output
  by_cases hzero : x.toNat = 0
  · rw [if_pos (eq_zero_iff.mpr hzero), if_pos hzero]
    rfl
  · have hall := allDigits_eq flags hx hzero
    have hlen := length_digits_le flags hx
    have hroom : buffSize N - (Nat.digits flags.base x.toNat).length ≠ 0 := by
      unfold buffSize
      omega
    unfold Flags.table Flags.baseUint at hall
    rw [if_neg (eq_zero_iff.not.mpr hzero), if_neg hzero]
    simp only [hall, next_bind]
    split
    · simp only [asserting_true hroom, next_bind]
      rfl
    · rfl

end Uint
