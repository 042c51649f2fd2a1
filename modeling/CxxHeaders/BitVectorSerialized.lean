/-
Bit vectors on their way through a message.

The words of the message are a row of bits as well: `serialize` copies the row
of the blocks into it (`writeWords_spec`), and `deserialize` ORs it into its own
blocks (`bit_readWords`), whatever the widths of the two kinds of blocks. So
the bits that arrive are those that were sent (`roundTrip`).
-/
import CxxHeaders.BitVectorSized

open Outcome BitBlocks

namespace BitVector

variable {w : Nat} {blocks : List (BitVec w)}

/-! ## Writing -/

/-- From block `i` on, the row goes into the word from bit `b` on. -/
theorem getLsbD_writeBlocks (hw : 0 < w) (k : Nat) {b i : Nat} (hb : b + k * w = 64) (hi : i ≤ blocks.length)
    (word : BitVec 64) {p : Nat} (hp : p < 64) :
    (writeBlocks blocks k b word i).1.getLsbD p =
      (word.getLsbD p || (decide (b ≤ p) && bit blocks (i * w + (p - b)))) := by
  induction k generalizing b i word with
  | zero =>
    have hbp : ¬b ≤ p := by omega
    rw [writeBlocks, decide_eq_false hbp, Bool.false_and, Bool.or_false]
  | succ k ih =>
    rw [Nat.succ_mul] at hb
    unfold writeBlocks
    split
    · next he =>
      have hout : bit blocks (i * w + (p - b)) = false :=
        bit_of_le (by rw [← he]; exact (Nat.le_div_iff_mul_le hw).mpr (Nat.le_add_right _ _))
      rw [hout, Bool.and_false, Bool.or_false]
    · next hne =>
      have hlt : i < blocks.length := by omega
      rw [ih (by omega) hlt, BitVec.getLsbD_or, BitVec.getLsbD_shiftLeft, BitVec.getLsbD_setWidth,
        List.getD_eq_getElem _ _ hlt, Bool.or_assoc]
      congr 1
      -- The bit is in front of this block, in it, or behind it.
      by_cases hbp : b ≤ p
      · by_cases hin : p - b < w
        · have hdiv : (i * w + (p - b)) / w = i := by
            rw [Nat.add_comm, Nat.add_mul_div_right _ _ hw, Nat.div_eq_of_lt hin, Nat.zero_add]
          have hmod : (i * w + (p - b)) % w = p - b := by
            rw [Nat.add_comm, Nat.add_mul_mod_self_right, Nat.mod_eq_of_lt hin]
          have hbehind : ¬b + w ≤ p := by omega
          rw [bit_of_lt (i := i * w + (p - b)) (by rwa [hdiv])]
          simp only [hdiv, hmod]
          simp [hp, hbp, hbehind, show p - b < 64 by omega]
        · have hnext : (i + 1) * w + (p - (b + w)) = i * w + (p - b) := by
            rw [Nat.succ_mul]
            omega
          have hbehind : b + w ≤ p := by omega
          rw [hnext, BitVec.getLsbD_of_ge _ _ (Nat.le_of_not_lt hin)]
          simp [hbp, hbehind]
      · have hbehind : ¬b + w ≤ p := by omega
        simp [hbp, hbehind]

theorem writeBlocks_snd (k b : Nat) (word : BitVec 64) {i : Nat} (hi : i ≤ blocks.length) :
    (writeBlocks blocks k b word i).2 = min (i + k) blocks.length := by
  induction k generalizing b i word with
  | zero => exact (Nat.min_eq_left hi).symm
  | succ k ih =>
    unfold writeBlocks
    split
    · next he => exact he.trans (Nat.min_eq_right (by omega)).symm
    · next hne =>
      rw [ih _ _ (by omega)]
      congr 1
      omega

theorem writeWords_spec (hw : 0 < w) (hdvd : w ∣ 64) (k : Nat) {i : Nat} (hi : i ≤ blocks.length) :
    (writeWords blocks k i).1.length = k ∧
      (writeWords blocks k i).2 = min (i + k * (64 / w)) blocks.length ∧
      ∀ p < 64 * k, bit (writeWords blocks k i).1 p = bit blocks (i * w + p) := by
  induction k generalizing i with
  | zero => exact ⟨rfl, (by rw [Nat.zero_mul, Nat.add_zero, Nat.min_eq_left hi]; rfl), fun p hp => by omega⟩
  | succ k ih =>
    have hround : 64 / w * w = 64 := Nat.div_mul_cancel hdvd
    have hend := writeBlocks_snd (64 / w) 0 0 hi
    have hle : (writeBlocks blocks (64 / w) 0 0 i).2 ≤ blocks.length := hend ▸ Nat.min_le_right _ _
    obtain ⟨hlen, hsnd, hbits⟩ := ih hle
    refine ⟨congrArg (· + 1) hlen, hsnd.trans ?_, fun p hp => ?_⟩
    · rw [hend, Nat.succ_mul]
      omega
    · show bit (_ :: _) p = _
      rw [bit_cons (by decide)]
      split
      · next hlt =>
        rw [getLsbD_writeBlocks hw _ (by rw [hround, Nat.zero_add]) hi _ hlt]
        simp
      · next hge =>
        rw [hbits _ (by omega), hend]
        by_cases hfull : i + 64 / w ≤ blocks.length
        · rw [Nat.min_eq_left hfull, Nat.add_mul, hround]
          congr 1
          omega
        · -- There are no blocks left.
          have hmul := Nat.mul_le_mul_right w (Nat.le_of_not_le hfull)
          rw [Nat.add_mul, hround] at hmul
          rw [Nat.min_eq_right (Nat.le_of_not_le hfull),
            bit_of_le ((Nat.le_div_iff_mul_le hw).mpr (Nat.le_add_right _ _)),
            bit_of_le ((Nat.le_div_iff_mul_le hw).mpr (by omega))]

/-! ## Reading -/

theorem bit_readBlocks (hw : 0 < w) (word : BitVec 64) (k : Nat) {b i : Nat} (hb : b + k * w = 64)
    (hi : i ≤ blocks.length) {q : Nat} (hq : q / w < blocks.length) :
    bit (readBlocks word k b blocks i).1 q =
      (bit blocks q || (decide (i * w ≤ q) && word.getLsbD (b + (q - i * w)))) := by
  induction k generalizing b blocks i with
  | zero =>
    rw [readBlocks, BitVec.getLsbD_of_ge _ _ (by omega), Bool.and_false, Bool.or_false]
  | succ k ih =>
    rw [Nat.succ_mul] at hb
    unfold readBlocks
    split
    · next he =>
      have hout : ¬i * w ≤ q := fun hle => by
        have hdiv := (Nat.le_div_iff_mul_le hw).mpr hle
        omega
      rw [decide_eq_false hout, Bool.false_and, Bool.or_false]
    · next hne =>
      have hlt : i < blocks.length := by omega
      have hlen : (blocks.modify i (· ||| (word >>> b).setWidth w)).length = blocks.length :=
        List.length_modify _ _ _
      rw [ih (by omega) (by omega) (by rwa [hlen]), bit_modify_or hlt, Bool.or_assoc]
      congr 1
      have hdivmod := Nat.div_add_mod q w
      have hmod := Nat.mod_lt q hw
      have hcomm := Nat.mul_comm w (q / w)
      -- The bit is in front of this block, in it, or behind it.
      rcases Nat.lt_trichotomy (q / w) i with hqi | hqi | hqi
      · have hmul := Nat.mul_le_mul_right w (Nat.succ_le_of_lt hqi)
        rw [Nat.succ_mul] at hmul
        have hnow : ¬i * w ≤ q := by omega
        have hnext : ¬(i + 1) * w ≤ q := by
          rw [Nat.succ_mul]
          omega
        simp [hnow, hnext, Nat.ne_of_lt hqi]
      · have hnow : i * w ≤ q := by rw [← hqi]; omega
        have hnext : ¬(i + 1) * w ≤ q := by
          rw [Nat.succ_mul, ← hqi]
          omega
        have hoff : q - i * w = q % w := by rw [← hqi]; omega
        simp [hnow, hnext, hqi, hoff, hmod]
      · have hmul := Nat.mul_le_mul_right w (Nat.succ_le_of_lt hqi)
        rw [Nat.succ_mul] at hmul
        have hnow : i * w ≤ q := by omega
        have hnext : (i + 1) * w ≤ q := by
          rw [Nat.succ_mul]
          omega
        have hoff : b + w + (q - (i + 1) * w) = b + (q - i * w) := by
          rw [Nat.succ_mul] at hnext ⊢
          omega
        rw [hoff]
        simp [hnow, hnext, (Nat.ne_of_lt hqi).symm]

/-- As many words as are asked for are read, and no more. -/
theorem readWords_read (words rest : List (BitVec 64)) (blocks : List (BitVec w)) (i : Nat) :
    (readWords words.length (words ++ rest) blocks i).1.2.2 = true ∧
      (readWords words.length (words ++ rest) blocks i).2 = rest := by
  induction words generalizing blocks i with
  | nil => exact ⟨rfl, rfl⟩
  | cons word words ih => exact ih ..

theorem bit_readWords (hw : 0 < w) (hdvd : w ∣ 64) (words rest : List (BitVec 64)) {i : Nat}
    (hi : i ≤ blocks.length) {q : Nat} (hq : q / w < blocks.length) :
    bit (readWords words.length (words ++ rest) blocks i).1.1 q =
      (bit blocks q || (decide (i * w ≤ q) && bit words (q - i * w))) := by
  induction words generalizing blocks i with
  | nil => simp [readWords, bit]
  | cons word words ih =>
    have hround : 64 / w * w = 64 := Nat.div_mul_cancel hdvd
    obtain ⟨hlen, hend⟩ := readBlocks_length word (64 / w) 0 hi
    show bit (readWords words.length (words ++ rest) _ _).1.1 q = _
    rw [ih (by rw [hlen, hend]; exact Nat.min_le_right _ _) (by rwa [hlen]),
      bit_readBlocks hw word _ (by rw [hround, Nat.zero_add]) hi hq, Bool.or_assoc, Nat.zero_add, hend,
      bit_cons (by decide)]
    congr 1
    by_cases hnow : i * w ≤ q
    · by_cases hin : q - i * w < 64
      · -- It is in the first word, so not in the ones behind it.
        have hnext : ¬min (i + 64 / w) blocks.length * w ≤ q := by
          intro hle
          have hdiv := (Nat.le_div_iff_mul_le hw).mpr hle
          have hround' : i + 64 / w ≤ q / w := by
            rcases Nat.le_total (i + 64 / w) blocks.length with hfull | hfull
            · rwa [Nat.min_eq_left hfull] at hdiv
            · rw [Nat.min_eq_right hfull] at hdiv
              omega
          have hmul := Nat.mul_le_mul_right w hround'
          have hback := Nat.div_mul_le_self q w
          rw [Nat.add_mul, hround] at hmul
          omega
        simp [hnow, hnext, hin]
      · have hdiv : i + 64 / w ≤ q / w := (Nat.le_div_iff_mul_le hw).mpr (by
          rw [Nat.add_mul, hround]
          omega)
        rw [Nat.min_eq_left (by omega), Nat.add_mul, hround, BitVec.getLsbD_of_ge _ _ (Nat.le_of_not_lt hin)]
        have hnext : i * w + 64 ≤ q := by omega
        simp [hnow, hnext, hin, Nat.sub_add_eq]
    · have hnext : ¬min (i + 64 / w) blocks.length * w ≤ q := by
        intro hle
        have hdiv := (Nat.le_div_iff_mul_le hw).mpr hle
        have hmul := Nat.mul_le_mul_right w ((Nat.le_min.mpr ⟨Nat.le_add_right i _, hi⟩).trans hdiv)
        have hback := Nat.div_mul_le_self q w
        omega
      simp [hnow, hnext]

/-! ## There and back -/

/-- The words for a vector: how many bits it has, and its row of bits. -/
structure Carries (words : List (BitVec 64)) (bits : List Bool) : Prop where
  length : words.length = 1 + count 64 bits.length
  head : words.head?.map BitVec.toNat = some bits.length
  row : ∀ i (hi : i < bits.length), bit words.tail i = bits[i]

theorem serialize_returns {v : BitVector w} (hw : 0 < w) (hdvd : w ∣ 64) (h : v.Sized)
    (hn : v.numBits < 2 ^ 64) : v.serialize.Returns fun words => Carries words v.bits := by
  obtain ⟨hlen, hend, hbits⟩ := writeWords_spec hw hdvd (count 64 v.numBits) (Nat.zero_le v.blocks.length)
  have hall : v.blocks.length ≤ count 64 v.numBits * (64 / w) := by
    rw [h]
    exact count_le_words hw hdvd v.numBits
  rw [Nat.zero_add, Nat.min_eq_right hall] at hend
  simp only [serialize, asserting_true hend, next_bind, pure_eq, returns_next]
  refine ⟨?_, ?_, fun i hi => ?_⟩
  · rw [List.length_cons, hlen, length_bits, Nat.add_comm]
  · simpa using hn
  · have hi' : i < v.numBits := by rwa [length_bits] at hi
    have hrow := hbits i (by
      have hwords := le_count_mul (w := 64) (by decide) v.numBits
      omega)
    rw [Nat.zero_mul, Nat.zero_add] at hrow
    rw [getElem_bits, ← hrow]
    rfl

/-- What the words carry is read, and no word more. -/
theorem Carries.deserialize {u : BitVector w} {words : List (BitVec 64)} {bits : List Bool}
    (hc : Carries words bits) (hw : 0 < w) (hdvd : w ∣ 64) (hu : u.Sized) (hn : u.numBits = bits.length)
    (rest : List (BitVec 64)) :
    (u.deserializeFrom (words ++ rest)).Returns fun d =>
      d.1.2 = true ∧ d.2 = rest ∧ d.1.1.Sized ∧ d.1.1.bits = bits := by
  cases words with
  | nil => cases hc.head
  | cons numBits words =>
    have hhead : numBits.toNat = u.numBits := by
      rw [hn]
      exact Option.some.inj hc.head
    have hlen : words.length = count 64 u.numBits := by
      have hlen := hc.length
      rw [List.length_cons, Nat.add_comm] at hlen
      rw [hn]
      exact Nat.add_left_cancel hlen
    obtain ⟨hreset, hzero⟩ := reset_ok hw hu
    have hblocks : u.reset.blocks.length = count w u.numBits := hreset
    obtain ⟨hread, hrest⟩ := readWords_read words rest u.reset.blocks 0
    have hrow := fun q (hq : q / w < u.reset.blocks.length) =>
      bit_readWords hw hdvd words rest (Nat.zero_le u.reset.blocks.length) hq
    obtain ⟨hkept, hend⟩ := readWords_length words.length (words ++ rest) (Nat.zero_le u.reset.blocks.length)
    simp only [deserializeFrom, ← hlen, List.cons_append, hhead]
    obtain ⟨⟨⟨blocks, i, read⟩, left⟩, hfrom⟩ :
        ∃ d, readWords words.length (words ++ rest) u.reset.blocks 0 = d := ⟨_, rfl⟩
    rw [hfrom] at hread hrest hrow hkept hend ⊢
    dsimp only at hread hrest hrow hkept hend
    subst hread hrest
    have hblocks : blocks.length = count w u.numBits := hkept.trans hreset
    have hall : i = blocks.length := by
      rw [hend rfl, hkept, Nat.zero_add, hlen]
      refine Nat.min_eq_right ?_
      rw [← hkept, hblocks]
      exact count_le_words hw hdvd u.numBits
    simp only [ne_eq, not_true_eq_false, if_false, asserting_true hall, next_bind, pure_eq, returns_next]
    refine ⟨trivial, trivial, hblocks, bits_eq hn fun q hq => ?_⟩
    have hq' : q < u.numBits := hn ▸ hq
    have hin : q / w < u.reset.blocks.length := by
      rw [← hkept, hblocks]
      exact div_lt_count hw hq'
    have hempty : bit u.reset.blocks q = false :=
      bit_map (x := fun _ => false) hw (by rwa [reset, List.length_map] at hin) fun _ _ _ => BitVec.getLsbD_zero
    rw [hrow q hin, hempty, Nat.zero_mul]
    simp only [Nat.zero_le, decide_true, Bool.true_and, Bool.false_or, Nat.sub_zero]
    exact hc.row q hq

/-- **A bit vector comes back from its words**, whatever the two widths of
blocks: it is written to one word for its number of bits, a `std::size_t`, and
one for each 64 of them; these are all read again, none behind them is, and no
assertion fails. -/
theorem roundTrip (block : UnsignedType) (v : BitVector block.bits) (h : v.Sized) (hn : v.numBits < 2 ^ 64) :
    v.serialize.Returns fun words => words.length = 1 + count 64 v.numBits ∧
      (∀ u : BitVector block.bits, u.Sized → u.numBits = v.numBits → ∀ rest,
        (u.deserializeFrom (words ++ rest)).Returns fun d =>
          d.1.2 = true ∧ d.1.1.equals v = .next true ∧ d.2 = rest) ∧
      ∀ (other : UnsignedType) (u : BitVector other.bits), u.Sized → u.numBits = v.numBits → ∀ rest,
        (u.deserializeFrom (words ++ rest)).Returns fun d =>
          d.1.2 = true ∧ d.1.1.bits = v.bits ∧ d.2 = rest := by
  refine (serialize_returns block.bits_pos (bits_dvd block) h hn).mono fun words hc => ?_
  have hread : ∀ (other : UnsignedType) (u : BitVector other.bits), u.Sized → u.numBits = v.numBits → ∀ rest,
      (u.deserializeFrom (words ++ rest)).Returns fun d =>
        d.1.2 = true ∧ d.2 = rest ∧ d.1.1.Sized ∧ d.1.1.bits = v.bits := fun other u hu hsize rest =>
    hc.deserialize other.bits_pos (bits_dvd other) hu (by rw [hsize, length_bits]) rest
  refine ⟨by rw [hc.length, length_bits], fun u hu hsize rest => ?_, fun other u hu hsize rest => ?_⟩
  · refine (hread block u hu hsize rest).mono fun d hd => ?_
    obtain ⟨htrue, hrest, hsized, hbits⟩ := hd
    refine ⟨htrue, ?_, hrest⟩
    rw [equals_eq block.bits_pos hsized h, hbits, decide_eq_true rfl]
  · refine (hread other u hu hsize rest).mono fun d hd => ?_
    obtain ⟨htrue, hrest, -, hbits⟩ := hd
    exact ⟨htrue, hbits, hrest⟩

/-- Seventy bits in bytes, of which the last two are in a word of their own. -/
theorem roundTrip_seventy :
    (BitVector.new 70 true : BitVector UnsignedType.uint8.bits).serialize.Returns fun words =>
      words.length = 3 :=
  (roundTrip .uint8 (BitVector.new 70 true) (new_ok (by decide) 70 true).1 (by decide)).mono fun _ h => h.1

end BitVector
