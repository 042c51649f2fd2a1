/-
A row of bits in words of `w` bits: bit `i` of the row is bit `i % w` of word
`i / w`, the lowest bit of a word first. Changes of one bit, of every word,
and of two rows together, and when two rows agree on their first bits.
-/
import Mathlib.Algebra.Group.Nat.Defs
import Mathlib.Data.List.GetD

namespace BitBlocks

variable {w : Nat}

/-- How many words `n` bits need. -/
def count (w n : Nat) : Nat := n / w + if n % w ≠ 0 then 1 else 0

/-- The word with bit `i` of the row set, and no other. -/
def mask (w i : Nat) : BitVec w := 1#w <<< (i % w)

def bit (blocks : List (BitVec w)) (i : Nat) : Bool := (blocks.getD (i / w) 0#w).getLsbD (i % w)

/-! ## Counting words -/

/-- The words are the fewest that hold the bits. -/
theorem count_iff (hw : 0 < w) {n k : Nat} : k = count w n ↔ n ≤ k * w ∧ k * w < n + w := by
  have hn := Nat.div_add_mod n w
  have hr := Nat.mod_lt n hw
  have hc := Nat.mul_comm w (n / w)
  unfold count
  split
  · next hne =>
    constructor
    · intro hk
      subst hk
      rw [Nat.add_mul]
      omega
    · intro h
      have hlt : n / w < k := Nat.lt_of_mul_lt_mul_right (a := w) (by omega)
      have hle : k < n / w + 2 := by
        refine Nat.lt_of_mul_lt_mul_right (a := w) ?_
        rw [Nat.add_mul]
        omega
      omega
  · next heq =>
    replace heq : n % w = 0 := by simpa using heq
    constructor
    · intro hk
      subst hk
      rw [Nat.add_zero]
      omega
    · intro h
      have hle : n / w ≤ k := Nat.div_le_of_le_mul (by rw [Nat.mul_comm]; exact h.1)
      have hlt : k < n / w + 1 := by
        refine Nat.lt_of_mul_lt_mul_right (a := w) ?_
        rw [Nat.add_mul]
        omega
      omega

theorem count_zero (w : Nat) : count w 0 = 0 := by simp [count]

theorem le_count_mul (hw : 0 < w) (n : Nat) : n ≤ count w n * w := ((count_iff hw).mp rfl).1

/-- There is a word for every bit. -/
theorem div_lt_count (hw : 0 < w) {n i : Nat} (h : i < n) : i / w < count w n :=
  Nat.div_lt_of_lt_mul (by rw [Nat.mul_comm]; exact Nat.lt_of_lt_of_le h (le_count_mul hw n))

/-- One bit more. -/
theorem count_succ (hw : 0 < w) (n : Nat) :
    count w (n + 1) = count w n + if n % w = 0 then 1 else 0 := by
  have hn := Nat.div_add_mod n w
  have hr := Nat.mod_lt n hw
  have hc := Nat.mul_comm w (n / w)
  refine ((count_iff hw).mpr ?_).symm
  unfold count
  by_cases h : n % w = 0
  · simp only [h, ne_eq, not_true_eq_false, if_false, if_true, Nat.add_zero, Nat.add_mul]
    omega
  · simp only [h, ne_eq, not_false_eq_true, if_false, if_true, Nat.add_zero, Nat.add_mul]
    omega

/-- The last of the words of `n + 1` bits has bit `n`. -/
theorem count_add_one (hw : 0 < w) (n : Nat) : count w (n + 1) = n / w + 1 := by
  have hn := Nat.div_add_mod n w
  have hr := Nat.mod_lt n hw
  have hc := Nat.mul_comm w (n / w)
  refine ((count_iff hw).mpr ?_).symm
  rw [Nat.add_mul]
  omega

/-! ## Masks -/

theorem getLsbD_mask (hw : 0 < w) (i j : Nat) :
    (mask w i).getLsbD j = decide (j = i % w) := by
  have hi := Nat.mod_lt i hw
  simp only [mask, BitVec.getLsbD_shiftLeft, BitVec.getLsbD_one]
  by_cases h : j = i % w
  · simp [h, hw, hi]
  · by_cases hlt : j < i % w
    · simp [h, hlt]
    · have hne : j - i % w ≠ 0 := by omega
      simp [h, hne]

theorem toNat_mask (hw : 0 < w) (i : Nat) : (mask w i).toNat = 2 ^ (i % w) := by
  have hi := Nat.mod_lt i hw
  have hp : 2 ^ (i % w) < 2 ^ w := Nat.pow_lt_pow_right (by decide) hi
  have hone : 1 % 2 ^ w = 1 := Nat.mod_eq_of_lt (Nat.one_lt_two_pow (by omega))
  rw [mask, BitVec.toNat_shiftLeft, BitVec.toNat_ofNat, hone, Nat.shiftLeft_eq, Nat.one_mul,
    Nat.mod_eq_of_lt hp]

/-- The bits up to bit `i`, in its word. -/
theorem getLsbD_mask_upTo (hw : 0 < w) (i j : Nat) :
    (mask w i ||| (mask w i - 1#w)).getLsbD j = decide (j ≤ i % w) := by
  have hi := Nat.mod_lt i hw
  have hp : 2 ^ (i % w) < 2 ^ w := Nat.pow_lt_pow_right (by decide) hi
  have hpos : 0 < 2 ^ (i % w) := Nat.two_pow_pos _
  have hone : (1#w).toNat = 1 := by
    rw [BitVec.toNat_ofNat]
    exact Nat.mod_eq_of_lt (Nat.one_lt_two_pow (by omega))
  have hle : (1#w) ≤ mask w i := by
    rw [BitVec.le_def, hone, toNat_mask hw]
    omega
  have hlow : (mask w i - 1#w).getLsbD j = decide (j < i % w) := by
    rw [BitVec.getLsbD, BitVec.toNat_sub_of_le hle, hone, toNat_mask hw, Nat.testBit_two_pow_sub_one]
  rw [BitVec.getLsbD_or, getLsbD_mask hw, hlow]
  simp only [← Bool.decide_or]
  exact decide_eq_decide.mpr (by omega)

/-- The mask moves to the next bit, or out of the word. -/
theorem mask_succ (hw : 0 < w) (i : Nat) :
    (mask w i <<< 1 = 0#w ∧ (i + 1) / w = i / w + 1 ∧ mask w (i + 1) = 1#w) ∨
    (mask w i <<< 1 ≠ 0#w ∧ (i + 1) / w = i / w ∧ mask w i <<< 1 = mask w (i + 1)) := by
  have hi := Nat.mod_lt i hw
  have hn := Nat.div_add_mod i w
  have hshift : mask w i <<< 1 = 1#w <<< (i % w + 1) := by rw [mask, ← BitVec.shiftLeft_add]
  by_cases hlast : i % w + 1 = w
  · left
    have hnext : i + 1 = w * (i / w + 1) := by
      rw [Nat.mul_add, Nat.mul_one]
      omega
    refine ⟨?_, ?_, ?_⟩
    · rw [hshift, hlast]
      exact BitVec.shiftLeft_eq_zero (Nat.le_refl w)
    · rw [hnext, Nat.mul_div_cancel_left _ hw]
    · rw [mask, hnext, Nat.mul_mod_right, BitVec.shiftLeft_zero]
  · right
    have hlt : i % w + 1 < w := by omega
    have hnext : i + 1 = i % w + 1 + w * (i / w) := by omega
    have hmod : (i + 1) % w = i % w + 1 := by
      rw [hnext, Nat.add_mul_mod_self_left, Nat.mod_eq_of_lt hlt]
    have hmask : mask w i <<< 1 = mask w (i + 1) := by rw [hshift, mask, hmod]
    refine ⟨?_, ?_, hmask⟩
    · rw [hmask]
      intro hz
      have hnat := toNat_mask hw (i + 1)
      rw [hz, BitVec.toNat_zero] at hnat
      exact Nat.ne_of_lt (Nat.two_pow_pos _) hnat
    · rw [hnext, Nat.add_mul_div_left _ _ hw, Nat.div_eq_of_lt hlt, Nat.zero_add]

/-! ## The row -/

variable {blocks other : List (BitVec w)} {i : Nat}

theorem bit_of_lt (h : i / w < blocks.length) : bit blocks i = blocks[i / w].getLsbD (i % w) := by
  rw [bit, List.getD_eq_getElem _ _ h]

theorem bit_cons (hw : 0 < w) (b : BitVec w) (blocks : List (BitVec w)) (i : Nat) :
    bit (b :: blocks) i = if i < w then b.getLsbD i else bit blocks (i - w) := by
  split
  · next h => simp [bit, Nat.div_eq_of_lt h, Nat.mod_eq_of_lt h]
  · next h =>
    obtain ⟨j, rfl⟩ : ∃ j, i = j + w := ⟨i - w, by omega⟩
    rw [bit, bit, Nat.add_div_right _ hw, Nat.add_mod_right, Nat.add_sub_cancel, List.getD_cons_succ]

theorem bit_append_left (h : i / w < blocks.length) : bit (blocks ++ other) i = bit blocks i := by
  rw [bit, bit, List.getD_append _ _ _ _ h]

theorem bit_append_right (hw : 0 < w) (h : blocks.length * w ≤ i) :
    bit (blocks ++ other) i = bit other (i - blocks.length * w) := by
  obtain ⟨j, rfl⟩ := Nat.exists_eq_add_of_le h
  have hdiv : (blocks.length * w + j) / w = blocks.length + j / w := by
    rw [Nat.mul_comm, Nat.mul_add_div hw]
  rw [bit, bit, hdiv, Nat.mul_add_mod', Nat.add_sub_cancel_left,
    List.getD_append_right _ _ _ _ (Nat.le_add_right _ _), Nat.add_sub_cancel_left]

theorem bit_take {k : Nat} (h : i / w < k) : bit (blocks.take k) i = bit blocks i := by
  simp [bit, List.getD_eq_getElem?_getD, h]

/-- One bit changed. -/
theorem bit_modify (hw : 0 < w) {p : Nat} (hp : p / w < blocks.length) {f : BitVec w → BitVec w}
    {x : Bool → Bool} (hf : ∀ (b : BitVec w) j, j < w →
      (f b).getLsbD j = if j = p % w then x (b.getLsbD j) else b.getLsbD j) :
    bit (blocks.modify (p / w) f) i = if i = p then x (bit blocks i) else bit blocks i := by
  have hi := Nat.mod_lt i hw
  have hin := Nat.div_add_mod i w
  have hpn := Nat.div_add_mod p w
  by_cases hk : p / w = i / w
  · have hlt : i / w < blocks.length := hk ▸ hp
    have hiff : i = p ↔ i % w = p % w := by
      rw [hk] at hpn
      omega
    have hget : (blocks.modify (p / w) f).getD (i / w) 0#w = f blocks[i / w] := by
      rw [List.getD_eq_getElem?_getD, hk, List.getElem?_modify_eq, List.getElem?_eq_getElem hlt]
      rfl
    rw [bit, hget, hf _ _ hi, bit_of_lt hlt]
    simp only [hiff]
  · have hne : i ≠ p := fun he => hk (by rw [he])
    rw [if_neg hne, bit, bit, List.getD_eq_getElem?_getD, List.getElem?_modify_ne _ _ hk,
      List.getD_eq_getElem?_getD]

/-- There are no bits behind the last word. -/
theorem bit_of_le (h : blocks.length ≤ i / w) : bit blocks i = false := by
  rw [bit, List.getD_eq_default _ _ h, BitVec.getLsbD_zero]

/-- More bits of one word set. -/
theorem bit_modify_or {k : Nat} (hk : k < blocks.length) (c : BitVec w) :
    bit (blocks.modify k (· ||| c)) i = (bit blocks i || (decide (i / w = k) && c.getLsbD (i % w))) := by
  by_cases hik : i / w = k
  · subst hik
    have hget : (blocks.modify (i / w) (· ||| c)).getD (i / w) 0#w = blocks[i / w] ||| c := by
      rw [List.getD_eq_getElem?_getD, List.getElem?_modify_eq, List.getElem?_eq_getElem hk]
      rfl
    rw [bit, hget, BitVec.getLsbD_or, bit_of_lt hk, decide_eq_true rfl, Bool.true_and]
  · rw [bit, bit, List.getD_eq_getElem?_getD, List.getElem?_modify_ne _ _ (Ne.symm hik),
      List.getD_eq_getElem?_getD, decide_eq_false hik, Bool.false_and, Bool.or_false]

/-- Every word changed. -/
theorem bit_map (hw : 0 < w) (hi : i / w < blocks.length) {f : BitVec w → BitVec w} {x : Bool → Bool}
    (hf : ∀ (b : BitVec w) j, j < w → (f b).getLsbD j = x (b.getLsbD j)) :
    bit (blocks.map f) i = x (bit blocks i) := by
  have hlt : i / w < (blocks.map f).length := by rwa [List.length_map]
  rw [bit_of_lt hlt, bit_of_lt hi, List.getElem_map, hf _ _ (Nat.mod_lt i hw)]

/-- Two rows put together, word by word. -/
theorem bit_zipWith (hw : 0 < w) (hi : i / w < blocks.length) (ho : i / w < other.length)
    {f : BitVec w → BitVec w → BitVec w} {x : Bool → Bool → Bool}
    (hf : ∀ (b c : BitVec w) j, j < w → (f b c).getLsbD j = x (b.getLsbD j) (c.getLsbD j)) :
    bit (List.zipWith f blocks other) i = x (bit blocks i) (bit other i) := by
  have hlt : i / w < (List.zipWith f blocks other).length := by
    rw [List.length_zipWith]
    omega
  rw [bit_of_lt hlt, bit_of_lt hi, bit_of_lt ho, List.getElem_zipWith, hf _ _ _ (Nat.mod_lt i hw)]

theorem bit_replicate (hw : 0 < w) {n : Nat} (hi : i / w < n) (b : BitVec w) {x : Bool}
    (hb : ∀ j, j < w → b.getLsbD j = x) : bit (List.replicate n b) i = x := by
  rw [bit_of_lt (by rwa [List.length_replicate]), List.getElem_replicate, hb _ (Nat.mod_lt i hw)]

end BitBlocks
