/-
What `append` makes of two rows of bits.

The blocks of the other vector are ORed into what the last block holds behind
the end, and an empty vector has no block to begin with. So the bits of the
other vector follow those of this one only where what was left there does not
show (`append_concatenates_iff`).
-/
import CxxHeaders.BitVectorSized

open Outcome BitBlocks

namespace BitVector

variable {w : Nat} {v u : BitVector w}

/-- The row of the blocks, without its first `w - r` bits. -/
theorem bit_appendBlocks {r : Nat} (hr : r < w) (b : BitVec w) (bs : List (BitVec w)) (i : Nat) :
    bit (appendBlocks r b bs) i = bit (b :: bs) (i + (w - r)) := by
  have hw : 0 < w := Nat.lt_of_le_of_lt (Nat.zero_le r) hr
  induction bs generalizing b i with
  | nil =>
    rw [appendBlocks, bit_cons hw, bit_cons hw]
    by_cases hi : i < w
    · by_cases hir : i < r
      · simp [hi, show i + (w - r) < w by omega, Nat.add_comm]
      · have hout : ¬i + (w - r) < w := by omega
        rw [if_pos hi, if_neg hout, BitVec.getLsbD_ushiftRight, BitVec.getLsbD_of_ge _ _ (by omega)]
        simp [bit]
    · rw [if_neg hi, if_neg (by omega)]
      simp [bit]
  | cons c cs ih =>
    rw [appendBlocks, bit_cons hw, bit_cons hw b, bit_cons hw c]
    by_cases hi : i < w
    · rw [if_pos hi, BitVec.getLsbD_or, BitVec.getLsbD_ushiftRight, BitVec.getLsbD_shiftLeft]
      by_cases hir : i < r
      · simp [hir, show i + (w - r) < w by omega, Nat.add_comm]
      · have hout : ¬i + (w - r) < w := by omega
        have hoff : i + (w - r) - w = i - r := by omega
        rw [if_neg hout, hoff, if_pos (by omega), BitVec.getLsbD_of_ge b _ (by omega)]
        simp [hi, hir]
    · rw [if_neg hi, if_neg (by omega), ih, bit_cons hw]
      have hoff : i - w + (w - r) = i + (w - r) - w := by omega
      rw [hoff]

/-- The row that `append` leaves, where the two do not meet at a block's end. -/
theorem bit_append (hw : 0 < w) (h : v.Sized) (hr : v.numBits % w ≠ 0) (b : BitVec w)
    (bs : List (BitVec w)) (i : Nat) :
    bit (v.blocks.modify (v.blocks.length - 1) (· ||| b <<< (v.numBits % w)) ++
        appendBlocks (v.numBits % w) b bs) i =
      if i < v.numBits then bit v.blocks i
      else ((decide (v.numBits % w + (i - v.numBits) < w) && bit v.blocks i) ||
        bit (b :: bs) (i - v.numBits)) := by
  have hlen : v.blocks.length = v.numBits / w + 1 := by rw [h, count, if_pos hr]
  have hend := Nat.div_add_mod v.numBits w
  have hlt := Nat.mod_lt v.numBits hw
  have hcomm := Nat.mul_comm w (v.numBits / w)
  have hsucc : (v.numBits / w + 1) * w = v.numBits / w * w + w := Nat.succ_mul _ _
  rw [hlen, Nat.add_sub_cancel]
  by_cases hin : i < (v.numBits / w + 1) * w
  · have hdiv : i / w < v.numBits / w + 1 := (Nat.div_lt_iff_lt_mul hw).mpr hin
    rw [bit_append_left (by rwa [List.length_modify, hlen]), bit_modify_or (by omega)]
    have hi := Nat.div_add_mod i w
    split
    · next hold =>
      -- The other vector's blocks come in behind the bits of this one.
      have hnot : ¬(i / w = v.numBits / w ∧ v.numBits % w ≤ i % w) := by
        rintro ⟨hsame, hle⟩
        rw [hsame] at hi
        omega
      by_cases hsame : i / w = v.numBits / w
      · have hbefore : i % w < v.numBits % w := by omega
        simp [hbefore]
      · simp [hsame]
    · next hnew =>
      have hsame : i / w = v.numBits / w :=
        Nat.le_antisymm (by omega) (Nat.div_le_div_right (Nat.le_of_not_lt hnew))
      rw [hsame] at hi
      have hoff : i % w - v.numBits % w = i - v.numBits := by omega
      have hfits : v.numBits % w + (i - v.numBits) < w := by omega
      have hfirst : i - v.numBits < w := by omega
      have hbehind : ¬i % w < v.numBits % w := by omega
      rw [bit_cons hw, if_pos hfirst, BitVec.getLsbD_shiftLeft, hoff]
      simp [hsame, hfits, hbehind, Nat.mod_lt i hw]
  · have hnew : ¬i < v.numBits := by omega
    have hout : ¬v.numBits % w + (i - v.numBits) < w := by omega
    have hlen' : (v.blocks.modify (v.numBits / w) (· ||| b <<< (v.numBits % w))).length * w ≤ i := by
      rw [List.length_modify, hlen]
      omega
    have hoff : i - (v.numBits / w + 1) * w + (w - v.numBits % w) = i - v.numBits := by omega
    rw [bit_append_right hw hlen', List.length_modify, hlen, bit_appendBlocks hlt, hoff, if_neg hnew,
      decide_eq_false hout, Bool.false_and, Bool.false_or]

/-- Where what is left in the last block does not show: the other vector has
blocks, and each bit that is set behind the end is set in it too. -/
def AppendsTo (v u : BitVector w) : Prop :=
  v.numBits % w = 0 ∨ u.numBits ≠ 0 ∧ ∀ j < u.numBits, v.numBits % w + j < w →
    bit v.blocks (v.numBits + j) = true → bit u.blocks j = true

/-- The first bits are those of the one, and the others those of the other. -/
theorem bits_eq_append {d : BitVector w} (hn : d.numBits = v.numBits + u.numBits) :
    d.bits = v.bits ++ u.bits ↔ (∀ i < v.numBits, bit d.blocks i = bit v.blocks i) ∧
      ∀ j < u.numBits, bit d.blocks (v.numBits + j) = bit u.blocks j := by
  have hlen : ((List.range v.numBits).map (bit d.blocks)).length = v.bits.length := by simp
  simp only [← List.mem_range, ← List.map_inj_left]
  rw [bits, hn, List.range_add, List.map_append, List.map_map]
  constructor
  · exact fun heq => List.append_inj heq hlen
  · intro hboth
    exact congrArg₂ (· ++ ·) hboth.1 hboth.2

theorem append_concatenates (hw : 0 < w) (h : v.Sized) (hu : u.Sized) :
    (append v u).Returns (fun d => d.bits = v.bits ++ u.bits) ↔ AppendsTo v u := by
  by_cases hr : v.numBits % w = 0
  · have hend : v.blocks.length * w = v.numBits := by
      have hn := Nat.div_add_mod v.numBits w
      rw [h, count, if_neg (by simpa using hr), Nat.add_zero, Nat.mul_comm]
      omega
    unfold append AppendsTo
    simp only [hr, if_true, true_or, iff_true, pure_eq, returns_next]
    refine (bits_eq_append rfl).mpr ⟨fun i hi => bit_append_left (h.lt hw hi), fun j _ => ?_⟩
    show bit (v.blocks ++ u.blocks) _ = _
    rw [bit_append_right hw (by omega), hend, Nat.add_sub_cancel_left]
  · have hnil := hu.blocks_eq_nil_iff hw
    cases hb : u.blocks with
    | nil => simp [append_nil hw h hr hb, AppendsTo, hr, hnil.mp hb]
    | cons b bs =>
      have hz : u.numBits ≠ 0 := hnil.not.mp (hb ▸ List.cons_ne_nil b bs)
      rw [append_cons hw h hr hb, returns_next, AppendsTo, or_iff_right hr, and_iff_right hz, bits_eq_append rfl]
      simp only [bit_append hw h hr, hb]
      have hold : ∀ i < v.numBits, (if i < v.numBits then bit v.blocks i
          else ((decide (v.numBits % w + (i - v.numBits) < w) && bit v.blocks i) ||
            bit (b :: bs) (i - v.numBits))) = bit v.blocks i := fun i hi => if_pos hi
      refine ⟨fun hboth j hj hin hset => ?_, fun hset => ⟨hold, fun j hj => ?_⟩⟩
      · have hbit := hboth.2 j hj
        simpa [hin, hset] using hbit.symm
      · by_cases hin : v.numBits % w + j < w
        · cases hbit : bit v.blocks (v.numBits + j) with
          | false => simp
          | true => simp [hset j hj hin hbit]
        · simp [hin]

/-- **Appending is concatenation exactly where the leftovers do not show.** -/
theorem append_concatenates_iff (block : UnsignedType) {κ : Type} [DecidableEq κ]
    {c : κ → Option (BitVector block.bits)} (hc : AllSized c) {x y : κ} (hxy : x ≠ y)
    {v u : BitVector block.bits} (hx : c x = some v) (hy : c y = some u) :
    (next c (.append x y)).Returns (fun d => (d x).map bits = some (v.bits ++ u.bits) ∧ d y = some u) ↔
      AppendsTo v u := by
  rw [← append_concatenates block.bits_pos (hc x v hx) (hc y u hy)]
  simp only [next, requiring_true hxy, next_bind, onBoth, hy, on, hx, returns_bind, pure_eq, returns_next,
    Function.update_self, Function.update_of_ne hxy.symm, and_true, Option.map_some, Option.some.injEq]

/-- A bit that was filled with ones, and one that is not set. -/
def oneAndZero (x : Bool) : Option (BitVector UnsignedType.uint8.bits) := some (BitVector.new 1 x)

theorem oneAndZero_allSized : AllSized oneAndZero :=
  fun x _ hv => Option.some.inj hv ▸ (new_ok (by decide) 1 x).1

/-- The second bit is set after it, though the one that was appended is not;
and where an empty vector is appended, a block is read that it does not have. -/
theorem append_not_concatenation :
    AllSized oneAndZero ∧ (oneAndZero true).map bits = some [true] ∧
      (oneAndZero false).map bits = some [false] ∧
      (∃ d, next oneAndZero (.append true false) = .next d ∧ (d true).map bits = some [true, true] ∧
        (d true).map bits ≠ some ([true] ++ [false])) ∧
      next (Function.update oneAndZero false (some ⟨[], 0⟩)) (.append true false) = .failed :=
  ⟨oneAndZero_allSized, by decide, by decide, ⟨_, rfl, by decide, by decide⟩, rfl⟩

theorem append_concatenates_oneAndZero :
    (next oneAndZero (.append false true)).Returns fun d =>
      (d false).map bits = some ([false] ++ [true]) ∧ d true = some (BitVector.new 1 true) :=
  (append_concatenates_iff .uint8 oneAndZero_allSized Bool.false_ne_true rfl rfl).mpr
    (.inr ⟨by decide, by decide⟩)

end BitVector
