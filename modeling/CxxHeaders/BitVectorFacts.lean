/-
What the operations of a bit vector do to its bits.

`Sized`: a vector has as many blocks as its bits need. `bits` is the list that
can be seen from outside; what the last block holds behind the end is not in
it.
-/
import CxxHeaders.BitVector
import Mathlib.Data.List.TakeDrop

open Outcome BitBlocks

namespace BitVector

variable {w : Nat}

def Sized (v : BitVector w) : Prop := v.blocks.length = count w v.numBits

def bits (v : BitVector w) : List Bool := (List.range v.numBits).map (bit v.blocks)

variable {v u : BitVector w}

@[simp] theorem length_bits (v : BitVector w) : v.bits.length = v.numBits := by simp [bits]

theorem getElem_bits {i : Nat} (h : i < v.bits.length) : v.bits[i] = bit v.blocks i := by simp [bits]

theorem bits_eq {l : List Bool} (hlen : v.numBits = l.length)
    (h : ∀ i (hi : i < l.length), bit v.blocks i = l[i]) : v.bits = l := by
  refine List.ext_getElem (by rw [length_bits, hlen]) fun i hi hl => ?_
  rw [getElem_bits hi, h i hl]

theorem Sized.lt (hw : 0 < w) (h : v.Sized) {i : Nat} (hi : i < v.numBits) :
    i / w < v.blocks.length := by
  rw [h]
  exact div_lt_count hw hi

/-- The last block has the last bit. -/
theorem Sized.last (hw : 0 < w) (h : v.Sized) {n : Nat} (hn : v.numBits = n + 1) :
    v.blocks.length = n / w + 1 := by
  rw [h, hn, count_add_one hw]

theorem Sized.blocks_eq_nil_iff (hw : 0 < w) (h : v.Sized) : v.blocks = [] ↔ v.numBits = 0 := by
  rw [← List.length_eq_zero_iff, h]
  constructor
  · intro hz
    by_contra hne
    have hlt := div_lt_count hw (Nat.pos_of_ne_zero hne)
    rw [hz] at hlt
    cases hlt
  · intro hz
    rw [hz, count_zero]

/-! ## One bit -/

theorem block_eq {i : Nat} (h : i < v.blocks.length) : v.block i = .next v.blocks[i] := by
  rw [block, List.getElem?_eq_getElem h]

theorem and_mask_ne_zero (hw : 0 < w) (b : BitVec w) (i : Nat) :
    b &&& mask w i ≠ 0#w ↔ b.getLsbD (i % w) = true := by
  constructor
  · intro hne
    by_contra hb
    refine hne (BitVec.eq_of_getLsbD_eq fun j hj => ?_)
    rw [BitVec.getLsbD_and, getLsbD_mask hw, BitVec.getLsbD_zero]
    by_cases hij : j = i % w
    · simpa [hij] using hb
    · simp [hij]
  · intro hb hz
    have hbit : (b &&& mask w i).getLsbD (i % w) = true := by
      rw [BitVec.getLsbD_and, getLsbD_mask hw, hb]
      simp
    rw [hz, BitVec.getLsbD_zero] at hbit
    cases hbit

theorem get_eq (hw : 0 < w) (h : v.Sized) {i : Nat} (hi : i < v.numBits) :
    v.get i = .next (bit v.blocks i) := by
  have hlt := h.lt hw hi
  simp only [get, asserting_true hi, block_eq hlt, next_bind, pure_eq, and_mask_ne_zero hw]
  rw [bit_of_lt hlt, Bool.decide_eq_true]

theorem get?_eq (hw : 0 < w) (h : v.Sized) (i : Nat) : v.get? i = .next v.bits[i]? := by
  unfold get?
  split
  · next hle => rw [List.getElem?_eq_none (by rwa [length_bits])]
  · next hlt =>
    have hi : i < v.numBits := Nat.lt_of_not_le hlt
    rw [get_eq hw h hi, List.getElem?_eq_getElem (by rwa [length_bits]), getElem_bits]
    rfl

/-- What an assignment makes of the old bit. -/
def Assignment.value (old : Bool) : Assignment → Bool
  | .assign x => x
  | .or x => old || x
  | .and x => old && x
  | .xor x => old ^^ x
  | .minus x => old && !x
  | .flip => !old

theorem getLsbD_apply (hw : 0 < w) (op : Assignment) (p : Nat) (b : BitVec w) (j : Nat) (hj : j < w) :
    (op.apply b (mask w p)).getLsbD j = if j = p % w then op.value (b.getLsbD j) else b.getLsbD j := by
  have hset : (setBit b (mask w p)).getLsbD j = if j = p % w then true else b.getLsbD j := by
    rw [setBit, BitVec.getLsbD_or, getLsbD_mask hw]
    by_cases h : j = p % w <;> simp [h]
  have hreset : (resetBit b (mask w p)).getLsbD j = if j = p % w then false else b.getLsbD j := by
    rw [resetBit, BitVec.getLsbD_and, BitVec.getLsbD_not, getLsbD_mask hw]
    by_cases h : j = p % w
    · simp [h]
    · simp [h, hj]
  have hflip : (flipBit b (mask w p)).getLsbD j = if j = p % w then !b.getLsbD j else b.getLsbD j := by
    rw [flipBit, BitVec.getLsbD_xor, getLsbD_mask hw]
    by_cases h : j = p % w <;> simp [h]
  cases op with
  | assign x => cases x <;> simp [Assignment.apply, Assignment.value, assignBit, hset, hreset]
  | or x => cases x <;> simp [Assignment.apply, Assignment.value, hset]
  | and x => cases x <;> simp [Assignment.apply, Assignment.value, hreset]
  | xor x => cases x <;> simp [Assignment.apply, Assignment.value, hflip]
  | minus x => cases x <;> simp [Assignment.apply, Assignment.value, hreset]
  | flip => exact hflip

theorem modify_ok (hw : 0 < w) (h : v.Sized) {i : Nat} (hi : i < v.numBits) (op : Assignment) :
    (v.modify i op).Returns fun d => d.Sized ∧ d.bits = v.bits.modify i op.value := by
  have hlt := h.lt hw hi
  simp only [modify, asserting_true hi, block_eq hlt, next_bind, pure_eq, returns_next]
  refine ⟨by rw [Sized, List.length_modify, h], bits_eq (by simp) fun j hj => ?_⟩
  rw [bit_modify (x := fun old => op.value old) hw hlt (getLsbD_apply hw op i), List.getElem_modify,
    getElem_bits]
  simp only [eq_comm]

/-! ## All blocks -/

theorem mapBlocks {f : BitVec w → BitVec w} {x : Bool → Bool} (hw : 0 < w) (h : v.Sized)
    (hf : ∀ (b : BitVec w) j, j < w → (f b).getLsbD j = x (b.getLsbD j)) :
    Sized { v with blocks := v.blocks.map f } ∧
      bits { v with blocks := v.blocks.map f } = v.bits.map x := by
  refine ⟨by rw [Sized, List.length_map, h], bits_eq (by simp) fun i hi => ?_⟩
  have hin : i < v.numBits := by simpa using hi
  rw [List.getElem_map, getElem_bits]
  exact bit_map hw (h.lt hw hin) hf

theorem set_ok (hw : 0 < w) (h : v.Sized) : v.set.Sized ∧ v.set.bits = v.bits.map fun _ => true :=
  mapBlocks hw h fun _ j hj => by simp [hj]

theorem reset_ok (hw : 0 < w) (h : v.Sized) : v.reset.Sized ∧ v.reset.bits = v.bits.map fun _ => false :=
  mapBlocks hw h fun _ _ _ => BitVec.getLsbD_zero

theorem flip_ok (hw : 0 < w) (h : v.Sized) : v.flip.Sized ∧ v.flip.bits = v.bits.map (!·) :=
  mapBlocks hw h fun _ j hj => by simp [hj]

theorem combineBlocks_eq (op : BitVec w → BitVec w → BitVec w) :
    ∀ {bs cs : List (BitVec w)}, bs.length = cs.length →
      combineBlocks op bs cs = .next (List.zipWith op bs cs)
  | [], [], _ => rfl
  | b :: bs, c :: cs, h => by
    simp only [List.length_cons, Nat.add_right_cancel_iff] at h
    simp only [combineBlocks, combineBlocks_eq op h, next_bind, pure_eq, List.zipWith_cons_cons]

/-- The compound operators, bit by bit. -/
theorem combine_ok {op : BitVec w → BitVec w → BitVec w} {x : Bool → Bool → Bool} (hw : 0 < w)
    (hop : ∀ (b c : BitVec w) j, j < w → (op b c).getLsbD j = x (b.getLsbD j) (c.getLsbD j))
    (h : v.Sized) (hu : u.Sized) (hn : v.numBits = u.numBits) :
    (combine op v u).Returns fun d => d.Sized ∧ d.bits = List.zipWith x v.bits u.bits := by
  have hlen : v.blocks.length = u.blocks.length := by rw [h, hu, hn]
  simp only [combine, asserting_true hn, combineBlocks_eq op hlen, next_bind, pure_eq, returns_next]
  refine ⟨?_, bits_eq (by simp [hn]) fun i hi => ?_⟩
  · rw [Sized, List.length_zipWith, hlen, Nat.min_self, ← hlen, h]
  · rw [List.length_zipWith, length_bits, length_bits, hn, Nat.min_self] at hi
    rw [List.getElem_zipWith, getElem_bits, getElem_bits]
    exact bit_zipWith hw (h.lt hw (by rw [hn]; exact hi)) (hu.lt hw hi) hop

/-! ## Equality -/

/-- The loop of `equals_` compares the first `n` bits, where these end in the
last block. -/
theorem equalBlocks_eq (hw : 0 < w) (n : Nat) {bs cs : List (BitVec w)} (hlen : bs.length = cs.length)
    (hn : cs.length = n / w + 1) :
    equalBlocks (mask w n ||| (mask w n - 1#w)) bs cs =
      .next (decide (∀ i ≤ n, bit bs i = bit cs i)) := by
  induction cs generalizing bs n with
  | nil => cases hn
  | cons c cs ih =>
    obtain ⟨b, bs, rfl⟩ := List.exists_cons_of_length_eq_add_one hlen
    simp only [List.length_cons, Nat.add_right_cancel_iff] at hlen hn
    cases cs with
    | nil =>
      have hbs : bs = [] := List.eq_nil_of_length_eq_zero hlen
      have hlt : n < w := by
        by_contra hge
        have := Nat.div_pos (Nat.le_of_not_lt hge) hw
        simp only [List.length_nil] at hn
        omega
      subst hbs
      simp only [equalBlocks, pure_eq]
      congr 1
      refine decide_eq_decide.mpr ?_
      have hbit : ∀ i ≤ n, (bit [b] i = bit [c] i ↔ b.getLsbD i = c.getLsbD i) := by
        intro i hi
        rw [bit_cons hw, bit_cons hw, if_pos (by omega), if_pos (by omega)]
      constructor
      · intro hz i hi
        have hand := congrArg (fun x => x.getLsbD i) hz
        simp only [BitVec.getLsbD_and, BitVec.getLsbD_xor, getLsbD_mask_upTo hw, BitVec.getLsbD_zero,
          Nat.mod_eq_of_lt hlt, hi, decide_true, Bool.and_true] at hand
        rw [hbit i hi]
        simpa using hand
      · intro hall
        refine BitVec.eq_of_getLsbD_eq fun i _ => ?_
        rw [BitVec.getLsbD_and, BitVec.getLsbD_xor, getLsbD_mask_upTo hw, BitVec.getLsbD_zero,
          Nat.mod_eq_of_lt hlt]
        by_cases hi : i ≤ n
        · have heq := (hbit i hi).mp (hall i hi)
          simp [heq]
        · simp [hi]
    | cons d ds =>
      have hge : w ≤ n := by
        by_contra hlt
        rw [Nat.div_eq_of_lt (Nat.lt_of_not_le hlt)] at hn
        cases hn
      have hmask : mask w n = mask w (n - w) := by
        rw [mask, mask, ← Nat.mod_eq_sub_mod hge]
      have hdiv : (d :: ds).length = (n - w) / w + 1 := by
        rw [hn, Nat.div_eq_sub_div hw hge]
      have hrest := ih (n - w) hlen hdiv
      simp only [equalBlocks]
      split
      · next hne =>
        refine congrArg Outcome.next (decide_eq_false ?_).symm
        intro hall
        refine hne (BitVec.eq_of_getLsbD_eq fun i hi => ?_)
        have hi' := hall i (by omega)
        rwa [bit_cons hw, bit_cons hw, if_pos hi, if_pos hi] at hi'
      · next heq =>
        have heq : b = c := by simpa using heq
        rw [hmask, hrest]
        refine congrArg Outcome.next (decide_eq_decide.mpr ?_)
        constructor
        · intro hall i hi
          rw [bit_cons hw, bit_cons hw, heq]
          split
          · rfl
          · exact hall (i - w) (by omega)
        · intro hall i hi
          have hi' := hall (i + w) (by omega)
          rwa [bit_cons hw, bit_cons hw, if_neg (by omega), if_neg (by omega), Nat.add_sub_cancel] at hi'

theorem equals_eq (hw : 0 < w) (h : v.Sized) (hu : u.Sized) :
    v.equals u = .next (decide (v.bits = u.bits)) := by
  unfold equals
  split
  · next hne =>
    have hlist : v.bits ≠ u.bits := fun he => hne (by rw [← length_bits, he, length_bits])
    rw [decide_eq_false hlist]
    rfl
  · next heq =>
    replace heq : v.numBits = u.numBits := by simpa using heq
    split
    · next hz =>
      have hlist : v.bits = u.bits := by simp [bits, ← heq, hz]
      rw [decide_eq_true hlist]
      rfl
    · next hne =>
      obtain ⟨n, hn⟩ := Nat.exists_eq_succ_of_ne_zero hne
      have hun : u.numBits = n + 1 := by rw [← heq, hn]
      have hlen : v.blocks.length = u.blocks.length := by rw [h, hu, heq]
      have hpred : v.numBits - 1 = n := by omega
      simp only [hpred]
      rw [equalBlocks_eq hw n hlen (hu.last hw hun)]
      refine congrArg Outcome.next (decide_eq_decide.mpr ?_)
      constructor
      · intro hall
        refine bits_eq (by simp [heq]) fun i hi => ?_
        rw [getElem_bits]
        exact hall i (by rw [length_bits] at hi; omega)
      · intro he i hi
        have hv : i < v.bits.length := by rw [length_bits]; omega
        have hu' : i < u.bits.length := he ▸ hv
        have hget : v.bits[i] = u.bits[i] := by simp only [he]
        rwa [getElem_bits, getElem_bits] at hget

/-! ## Construction and size -/

theorem new_ok (hw : 0 < w) (n : Nat) (val : Bool) :
    (new n val : BitVector w).Sized ∧ (new n val : BitVector w).bits = List.replicate n val := by
  refine ⟨List.length_replicate, bits_eq (by simp [new]) fun i hi => ?_⟩
  rw [List.length_replicate] at hi
  rw [List.getElem_replicate]
  refine bit_replicate hw (div_lt_count hw hi) _ fun j hj => ?_
  cases val with
  | true => simp [hj]
  | false => simp

theorem resize_sized (v : BitVector w) (n : Nat) : (v.resize n).Sized := List.takeD_length _ _ _

theorem clear_sized (v : BitVector w) : v.clear.Sized := (count_zero w).symm

theorem pushBack_ok (hw : 0 < w) (h : v.Sized) (x : Bool) :
    (v.pushBack x).Returns fun d => d.Sized ∧ d.bits = v.bits ++ [x] := by
  obtain ⟨bs, hbs⟩ : ∃ bs, (if v.numBits % w = 0 then v.blocks ++ [0#w] else v.blocks) = bs := ⟨_, rfl⟩
  have hlen : bs.length = v.numBits / w + 1 := by
    rw [← count_add_one hw, count_succ hw, ← hbs, ← h]
    split
    · exact List.length_append
    · rfl
  have hold : ∀ i < v.numBits, bit bs i = bit v.blocks i := by
    intro i hi
    rw [← hbs]
    split
    · exact bit_append_left (h.lt hw hi)
    · rfl
  have hne : bs ≠ [] := by
    rintro rfl
    cases hlen
  simp only [pushBack, hbs, asserting_true hne, next_bind, pure_eq, returns_next]
  have hlast : bs.length - 1 = v.numBits / w := by rw [hlen, Nat.add_sub_cancel]
  have hlt : v.numBits / w < bs.length := by
    rw [hlen]
    exact Nat.lt_succ_self _
  refine ⟨?_, bits_eq (by simp) fun i hi => ?_⟩
  · rw [Sized, List.length_modify, hlen, count_add_one hw]
  · rw [hlast]
    refine (bit_modify (x := fun _ => x) hw hlt (getLsbD_apply hw (.assign x) v.numBits)).trans ?_
    replace hi : i < v.numBits + 1 := by simpa using hi
    split
    · next he =>
      subst he
      rw [List.getElem_append_right (by simp)]
      simp
    · next hne' =>
      have hin : i < v.numBits := by omega
      rw [hold i hin, List.getElem_append_left (by rwa [length_bits]), getElem_bits]

theorem popBack_ok (hw : 0 < w) (h : v.Sized) (hne : v.numBits ≠ 0) :
    v.popBack.Returns fun d => d.Sized ∧ d.bits = v.bits.dropLast := by
  obtain ⟨n, hn⟩ := Nat.exists_eq_succ_of_ne_zero hne
  have hpred : v.numBits - 1 = n := by omega
  have hlen := h.last hw hn
  have hblocks : v.blocks ≠ [] := (h.blocks_eq_nil_iff hw).not.mpr hne
  simp only [popBack, asserting_true hne, hpred, next_bind, pure_eq]
  split
  · next hr =>
    refine ⟨by rw [Sized, hlen, count, if_pos hr], bits_eq (by simp [hn]) fun i hi => ?_⟩
    rw [List.getElem_dropLast, getElem_bits]
  · next hr =>
    replace hr : n % w = 0 := by simpa using hr
    simp only [asserting_true hblocks, next_bind, returns_next]
    have hsized : v.blocks.dropLast.length = n / w := by
      rw [List.length_dropLast, hlen, Nat.add_sub_cancel]
    refine ⟨by rw [Sized, hsized, count, if_neg (by simp [hr]), Nat.add_zero],
      bits_eq (by simp [hn]) fun i hi => ?_⟩
    rw [List.getElem_dropLast, getElem_bits]
    have hin : i < n := by
      simp only [List.length_dropLast, length_bits] at hi
      omega
    have hdiv : i / w < v.blocks.length - 1 := by
      rw [hlen, Nat.add_sub_cancel]
      refine Nat.div_lt_of_lt_mul ?_
      have hmod := Nat.div_add_mod n w
      omega
    show bit v.blocks.dropLast i = bit v.blocks i
    rw [List.dropLast_eq_take, bit_take hdiv]

/-! ## Assignment -/

theorem assign_ok (h : v.Sized) (hu : u.Sized) (hn : v.numBits = u.numBits) :
    (v.assign u).Returns fun d => d.Sized ∧ d.bits = u.bits := by
  have hlen : v.blocks.length = u.blocks.length := by rw [h, hu, hn]
  have hdrop : v.blocks.drop u.blocks.length = [] := List.drop_eq_nil_of_le (Nat.le_of_eq hlen)
  simp only [assign, asserting_true hn, asserting_true (Nat.le_of_eq hlen.symm), hdrop, List.append_nil,
    next_bind, pure_eq, returns_next]
  exact ⟨by rw [Sized, hn, ← hu], by simp [bits, hn]⟩

theorem assignFill_ok (hw : 0 < w) (v : BitVector w) (n : Nat) (val : Bool) :
    (v.assignFill n val).Sized ∧ (v.assignFill n val).bits = List.replicate n val := by
  have hr := v.resize_sized n
  have hlen : (v.resize n).bits.length = n := length_bits _
  cases val with
  | true =>
    obtain ⟨hs, hb⟩ := set_ok hw hr
    exact ⟨hs, hb.trans (by rw [List.map_const', hlen])⟩
  | false =>
    obtain ⟨hs, hb⟩ := reset_ok hw hr
    exact ⟨hs, hb.trans (by rw [List.map_const', hlen])⟩

/-- The loop of `assign_` at bit `p` puts the rest of the range in, from there
on. -/
theorem assignBits_ok (hw : 0 < w) {xs : List Bool} {blocks : List (BitVec w)} {p : Nat}
    (hp : p + xs.length ≤ blocks.length * w) :
    (assignBits xs blocks (p / w) (mask w p)).Returns fun bs => bs.length = blocks.length ∧
      ∀ i, bit bs i = (bit blocks i || (decide (p ≤ i) && xs.getD (i - p) false)) := by
  induction xs generalizing blocks p with
  | nil => exact ⟨rfl, fun i => by simp⟩
  | cons x xs ih =>
    rw [List.length_cons] at hp
    have hlt : p / w < blocks.length := Nat.div_lt_of_lt_mul (by rw [Nat.mul_comm]; omega)
    obtain ⟨bs, hbs⟩ : ∃ bs, (if x then blocks.modify (p / w) (· ||| mask w p) else blocks) = bs :=
      ⟨_, rfl⟩
    have hlen : bs.length = blocks.length := by
      rw [← hbs]
      cases x with
      | true => exact List.length_modify ..
      | false => rfl
    have hbit : ∀ i, bit bs i = (bit blocks i || (decide (i = p) && x)) := by
      intro i
      rw [← hbs]
      cases x with
      | true =>
        refine (bit_modify (x := fun _ => true) hw hlt fun b j hj => ?_).trans ?_
        · exact getLsbD_apply hw (.assign true) p b j hj
        · by_cases hip : i = p <;> simp [hip]
      | false => simp
    have hrest : (assignBits xs bs ((p + 1) / w) (mask w (p + 1))).Returns fun ds =>
        ds.length = blocks.length ∧
        ∀ i, bit ds i = (bit blocks i || (decide (p ≤ i) && (x :: xs).getD (i - p) false)) := by
      have hfit : p + 1 + xs.length ≤ bs.length * w := by
        rw [hlen]
        omega
      refine (ih hfit).mono fun ds hds => ?_
      obtain ⟨hl, hd⟩ := hds
      refine ⟨hl.trans hlen, fun i => ?_⟩
      rw [hd, hbit, Bool.or_assoc]
      congr 1
      rcases Nat.lt_trichotomy i p with hi | hi | hi
      · simp [Nat.ne_of_lt hi, Nat.not_le.mpr hi, show ¬p + 1 ≤ i by omega]
      · simp [hi]
      · obtain ⟨k, rfl⟩ : ∃ k, i = p + 1 + k := ⟨i - (p + 1), by omega⟩
        have hsub : p + 1 + k - p = k + 1 := by omega
        rw [hsub, Nat.add_sub_cancel_left, List.getD_cons_succ]
        simp [show p ≤ p + 1 + k by omega, show p + 1 + k ≠ p by omega]
    have hassert : x = true → p / w < blocks.length := fun _ => hlt
    simp only [assignBits, asserting_true hassert, hbs, next_bind]
    rcases mask_succ hw p with ⟨hz, hdiv, hmask⟩ | ⟨hz, hdiv, hmask⟩
    · rw [if_pos hz, ← hdiv, ← hmask]
      exact hrest
    · rw [if_neg hz, ← hdiv, hmask]
      exact hrest

/-- A range of the right length replaces the bits; an empty one does nothing. -/
theorem assignRange_ok (hw : 0 < w) (h : v.Sized) {range : List Bool}
    (hn : range ≠ [] → v.numBits = range.length) : (v.assignRange range).Returns fun d =>
      d.Sized ∧ d.bits = if range = [] then v.bits else range := by
  unfold assignRange
  split
  · next he => exact ⟨h, rfl⟩
  · next hne =>
    obtain ⟨hs, -⟩ := reset_ok hw h
    have hlen : v.reset.blocks.length = count w v.numBits := hs
    have hfit : 0 + range.length ≤ v.reset.blocks.length * w := by
      rw [hlen, Nat.zero_add, ← hn hne]
      exact le_count_mul hw _
    have hloop := assignBits_ok hw hfit
    have hstart : mask w 0 = 1#w := by rw [mask, Nat.zero_mod, BitVec.shiftLeft_zero]
    rw [Nat.zero_div, hstart] at hloop
    simp only [asserting_true (hn hne), next_bind, returns_bind]
    refine hloop.mono fun bs hbs => ?_
    obtain ⟨hl, hb⟩ := hbs
    refine ⟨hl.trans hlen, bits_eq (hn hne) fun i hi => ?_⟩
    have hin : i < v.numBits := by rw [hn hne]; exact hi
    have hzero : bit v.reset.blocks i = false :=
      bit_map (x := fun _ => false) hw (h.lt hw hin) fun _ _ _ => BitVec.getLsbD_zero
    rw [hb, hzero]
    simp [hi]

/-- The second walk has to find nothing, or as much as the first one; nothing is
taken for the end, and leaves the zeros. -/
theorem ofInputRange_returns (hw : 0 < w) {range : InputRange}
    (hn : range.again ≠ [] → range.elems.length = range.again.length) :
    (ofInputRange range : Outcome (BitVector w)).Returns fun d => d.Sized ∧
      d.bits = if range.again = [] then List.replicate range.elems.length false else range.again := by
  obtain ⟨hs, hbits⟩ := new_ok hw range.elems.length false
  have hzeros := assignRange_ok hw hs hn
  rw [hbits] at hzeros
  exact hzeros

theorem ofInputRange_failed {range : InputRange} (hne : range.again ≠ [])
    (hn : range.elems.length ≠ range.again.length) : (ofInputRange range : Outcome (BitVector w)) = .failed := by
  simp [ofInputRange, assignRange, hne, asserting, hn]

/-- Where the second walk does as well as the first one. -/
def InputRange.Walkable (range : InputRange) : Prop :=
  range.again = range.elems ∨ range.again = [] ∧ ∀ b ∈ range.elems, b = false

theorem ofInputRange_ok (hw : 0 < w) {range : InputRange} (h : range.Walkable) :
    (ofInputRange range : Outcome (BitVector w)).Returns fun d => d.Sized ∧ d.bits = range.elems := by
  rcases h with hagain | ⟨hagain, hfalse⟩
  · refine (ofInputRange_returns hw fun _ => by rw [hagain]).mono fun d hd => ⟨hd.1, hd.2.trans ?_⟩
    split
    · next hnil => rw [← hagain, hnil, List.length_nil, List.replicate_zero]
    · exact hagain
  · refine (ofInputRange_returns hw fun hne => absurd hagain hne).mono fun d hd => ⟨hd.1, hd.2.trans ?_⟩
    rw [if_pos hagain]
    exact (List.eq_replicate_iff.mpr ⟨rfl, hfalse⟩).symm

theorem InputRange.walkable_of_bits (hw : 0 < w) {range : InputRange} {v : BitVector w}
    (h : ofInputRange range = .next v) (hbits : v.Sized → v.bits = range.elems) : range.Walkable := by
  by_cases hne : range.again = []
  · have hv := (ofInputRange_returns hw fun hn => absurd hne hn).ok.of_next h
    rw [if_pos hne, hbits hv.1] at hv
    exact .inr ⟨hne, (List.eq_replicate_iff.mp hv.2).2⟩
  · by_cases hn : range.elems.length = range.again.length
    · have hv := (ofInputRange_returns hw fun _ => hn).ok.of_next h
      rw [if_neg hne, hbits hv.1] at hv
      exact .inl hv.2.symm
    · rw [ofInputRange_failed hne hn] at h
      cases h

end BitVector
