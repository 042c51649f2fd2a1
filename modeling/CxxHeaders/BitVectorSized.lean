/-
When a bit vector has as many blocks as its bits need.

Of all the operations two can break this. `append` takes a block for every
block of the other vector, also where the bits left over would have fitted
into the last block that is there, and reads a block of an empty vector;
`clear_and_release` forgets the number of bits. `Fits` is what it takes for
them to go well.
-/
import CxxHeaders.BitVectorRefines

open Outcome BitBlocks

namespace BitVector

variable {w : Nat} {v u : BitVector w}

/-! ## Appending -/

theorem length_appendBlocks (r : Nat) (b : BitVec w) (bs : List (BitVec w)) :
    (appendBlocks r b bs).length = bs.length + 1 := by
  induction bs generalizing b with
  | nil => rfl
  | cons c cs ih => rw [appendBlocks, List.length_cons, ih, List.length_cons]

/-- How many bits of the last block are used. -/
def lastBits (w n : Nat) : Nat := (n - 1) % w + 1

theorem count_mul_add_lastBits (hw : 0 < w) {n : Nat} (hn : n ≠ 0) :
    count w n * w + lastBits w n = n + w := by
  obtain ⟨k, rfl⟩ := Nat.exists_eq_succ_of_ne_zero hn
  have hk := Nat.div_add_mod k w
  have hc := Nat.mul_comm w (k / w)
  have hcount : count w (k + 1) = k / w + 1 := count_add_one hw k
  rw [lastBits, hcount, Nat.add_mul, Nat.succ_sub_one]
  omega

/-- The blocks of two vectors are as many as the bits of both need, unless
these leave a whole block free. -/
theorem count_add_iff (hw : 0 < w) {n m : Nat} (hr : n % w ≠ 0) (hm : m ≠ 0) :
    count w n + count w m = count w (n + m) ↔ w < n % w + lastBits w m := by
  have hn := Nat.div_add_mod n w
  have hc := Nat.mul_comm w (n / w)
  have hcn : count w n * w = n - n % w + w := by
    rw [count, if_pos hr, Nat.add_mul]
    omega
  have hle := Nat.mod_le n w
  have hlt := Nat.mod_lt n hw
  have hcm := count_mul_add_lastBits hw hm
  have hs : lastBits w m ≤ w := Nat.mod_lt _ hw
  rw [count_iff hw, Nat.add_mul, hcn]
  omega

theorem count_add_of_mod_eq_zero (hw : 0 < w) {n : Nat} (hr : n % w = 0) (m : Nat) :
    count w n + count w m = count w (n + m) := by
  have hn := Nat.div_add_mod n w
  have hc := Nat.mul_comm w (n / w)
  have hm := (count_iff hw (n := m)).mp rfl
  have hcn : count w n * w = n := by
    rw [count, if_neg (by simp [hr]), Nat.add_zero]
    omega
  rw [count_iff hw, Nat.add_mul, hcn]
  omega

/-- What a vector must be like for another one to be appended to it. -/
def AppendFits (v u : BitVector w) : Prop :=
  v.numBits % w = 0 ∨ u.numBits ≠ 0 ∧ w < v.numBits % w + lastBits w u.numBits

/-- With leftovers the first block of the other vector is needed. -/
theorem append_nil (hw : 0 < w) (h : v.Sized) (hr : v.numBits % w ≠ 0) (hb : u.blocks = []) :
    append v u = .failed := by
  have hne : v.numBits ≠ 0 := fun hz => hr (by rw [hz, Nat.zero_mod])
  have hblocks : v.blocks ≠ [] := (h.blocks_eq_nil_iff hw).not.mpr hne
  unfold append
  simp only [hr, if_false, asserting_true hne, asserting_true hblocks, next_bind, hb]

theorem append_cons (hw : 0 < w) (h : v.Sized) (hr : v.numBits % w ≠ 0) {b : BitVec w} {bs : List (BitVec w)}
    (hb : u.blocks = b :: bs) :
    append v u = .next ⟨v.blocks.modify (v.blocks.length - 1) (· ||| b <<< (v.numBits % w)) ++
      appendBlocks (v.numBits % w) b bs, v.numBits + u.numBits⟩ := by
  have hne : v.numBits ≠ 0 := fun hz => hr (by rw [hz, Nat.zero_mod])
  have hblocks : v.blocks ≠ [] := (h.blocks_eq_nil_iff hw).not.mpr hne
  unfold append
  simp only [hr, if_false, asserting_true hne, asserting_true hblocks, next_bind, hb, pure_eq]

theorem append_iff (hw : 0 < w) (h : v.Sized) (hu : u.Sized) :
    (append v u).Ok Sized ↔ AppendFits v u := by
  by_cases hr : v.numBits % w = 0
  · unfold append AppendFits
    simp only [hr, if_true, pure_eq, ok_next, true_or, iff_true]
    show (v.blocks ++ u.blocks).length = count w (v.numBits + u.numBits)
    rw [List.length_append, h, hu, count_add_of_mod_eq_zero hw hr]
  · have hlen : u.blocks.length = count w u.numBits := hu
    have hnil := hu.blocks_eq_nil_iff hw
    cases hb : u.blocks with
    | nil => simp [append_nil hw h hr hb, AppendFits, hr, hnil.mp hb]
    | cons b bs =>
      have hz : u.numBits ≠ 0 := hnil.not.mp (hb ▸ List.cons_ne_nil b bs)
      rw [hb, List.length_cons] at hlen
      rw [append_cons hw h hr hb, ok_next, AppendFits, or_iff_right hr, and_iff_right hz,
        ← count_add_iff hw hr hz]
      show (_ ++ _ : List (BitVec w)).length = count w (v.numBits + u.numBits) ↔ _
      rw [List.length_append, List.length_modify, length_appendBlocks, h, hlen]

/-! ## Reading -/

theorem readBlocks_length (word : BitVec 64) (k b : Nat) {blocks : List (BitVec w)} {i : Nat}
    (hi : i ≤ blocks.length) : (readBlocks word k b blocks i).1.length = blocks.length ∧
      (readBlocks word k b blocks i).2 = min (i + k) blocks.length := by
  induction k generalizing b blocks i with
  | zero => exact ⟨rfl, (Nat.min_eq_left hi).symm⟩
  | succ k ih =>
    unfold readBlocks
    split
    · next he => exact ⟨rfl, by rw [Nat.min_eq_right (by omega)]; exact he⟩
    · next hne =>
      have hlt : i + 1 ≤ (blocks.modify i (· ||| (word >>> b).setWidth w)).length := by
        rw [List.length_modify]
        omega
      obtain ⟨hl, hb⟩ := ih (b + w) hlt
      rw [List.length_modify] at hl hb
      refine ⟨hl, hb.trans ?_⟩
      congr 1
      omega

theorem readWords_length (k : Nat) (msg : List (BitVec 64)) {blocks : List (BitVec w)} {i : Nat}
    (hi : i ≤ blocks.length) : (readWords k msg blocks i).1.1.length = blocks.length ∧
      ((readWords k msg blocks i).1.2.2 = true →
        (readWords k msg blocks i).1.2.1 = min (i + k * (64 / w)) blocks.length) := by
  induction k generalizing msg blocks i with
  | zero =>
    refine ⟨rfl, fun _ => ?_⟩
    rw [Nat.zero_mul, Nat.add_zero, Nat.min_eq_left hi]
    rfl
  | succ k ih =>
    cases msg with
    | nil => exact ⟨rfl, nofun⟩
    | cons word msg =>
      obtain ⟨hl, hb⟩ := readBlocks_length word (64 / w) 0 hi
      have hle : (readBlocks word (64 / w) 0 blocks i).2 ≤
          (readBlocks word (64 / w) 0 blocks i).1.length := by
        rw [hl, hb]
        exact Nat.min_le_right _ _
      obtain ⟨hl', hb'⟩ := ih msg hle
      refine ⟨hl'.trans hl, fun hread => (hb' hread).trans ?_⟩
      rw [hl, hb, Nat.add_mul, Nat.one_mul]
      omega

/-- The words of a message have enough blocks. -/
theorem count_le_words (hw : 0 < w) (hdvd : w ∣ 64) (n : Nat) : count w n ≤ count 64 n * (64 / w) := by
  have hwords := le_count_mul (w := 64) (by decide) n
  have hblocks := ((count_iff hw (n := n)).mp rfl).2
  have hmul : count 64 n * (64 / w) * w = count 64 n * 64 :=
    by rw [Nat.mul_assoc, Nat.div_mul_cancel hdvd]
  refine Nat.le_of_lt_succ (Nat.lt_of_mul_lt_mul_right (a := w) ?_)
  rw [Nat.succ_mul, hmul]
  omega

theorem deserialize_ok (hw : 0 < w) (hdvd : w ∣ 64) (h : v.Sized) (msg : List (BitVec 64)) :
    (v.deserialize msg).Returns fun d => d.1.Sized := by
  rw [deserialize, returns_bind]
  unfold deserializeFrom
  cases msg with
  | nil => exact h
  | cons numBits msg =>
    have hreset : v.reset.blocks.length = count w v.numBits := (reset_ok hw h).1
    obtain ⟨hl, hb⟩ := readWords_length (count 64 v.numBits) msg (Nat.zero_le v.reset.blocks.length)
    simp only
    split
    · exact h
    · split
      · exact hl.trans hreset
      · next hread =>
        have hend := hb (by simpa using hread)
        have hle := count_le_words hw hdvd v.numBits
        rw [hreset, Nat.zero_add, Nat.min_eq_right hle, ← hreset, ← hl] at hend
        simp only [asserting_true hend, next_bind]
        exact hl.trans hreset

/-! ## Every run -/

variable {κ : Type} [DecidableEq κ] {c : κ → Option (BitVector w)} {x y : κ}

/-- Where the operations keep the blocks and the bits together. -/
def Fits (c : κ → Option (BitVector w)) : Act κ → Prop
  | .append x y => ∀ v u, x ≠ y → c x = some v → c y = some u → AppendFits v u
  | .clearAndRelease x => ∀ v, c x = some v → v.numBits = 0
  | _ => True

theorem on_allSized (h : AllSized c) {f : BitVector w → Outcome (BitVector w)} :
    (on c x f).Ok AllSized ↔ ∀ v, c x = some v → (f v).Ok Sized := by
  unfold on
  cases hx : c x with
  | none => simp
  | some v =>
    simp only [ok_bind, Option.some.injEq, forall_eq']
    constructor
    · intro hf
      refine hf.mono fun d hd => ?_
      exact hd x d (Function.update_self ..)
    · exact fun hf => hf.mono fun d hd => h.update hd

/-- Also where an empty range leaves the bits as they are. -/
theorem assignRange_allSized (hw : 0 < w) (h : AllSized c) (range : List Bool) :
    (next c (.assignRange x range)).Ok AllSized := by
  refine (on_allSized h).mpr fun v hv => ?_
  simp only [ok_bind, ok_requiring]
  exact fun hn => (assignRange_ok hw (h x v hv) hn).ok.mono fun d hd => hd.1

theorem next_allSized_iff (hw : 0 < w) (hdvd : w ∣ 64) (h : AllSized c) (a : Act κ) :
    Fits c a ↔ (next c a).Ok AllSized := by
  by_cases ha : a.isOfLists = true
  · have hfits : Fits c a := by
      cases a with
      | append | clearAndRelease => cases ha
      | _ => trivial
    refine iff_of_true hfits ?_
    by_cases hr : a.Assigns c
    · refine (next_refines hw h a ha hr).ok.mono fun d hd => ?_
      obtain ⟨t, -, hd, -⟩ := hd
      exact hd
    · cases a with
      | assignRange x range => exact assignRange_allSized hw h range
      | _ => exact absurd trivial hr
  · cases a with
    | resize x n => exact iff_of_true trivial ((on_allSized h).mpr fun v _ => v.resize_sized n)
    | clearAndRelease x =>
      refine (forall_congr' fun v => imp_congr_right fun _ => ?_).trans (on_allSized h).symm
      show v.numBits = 0 ↔ 0 = count w v.numBits
      rw [count_iff hw]
      omega
    | append x y =>
      simp only [Fits, next, onBoth, ok_bind, ok_requiring]
      cases hy : c y with
      | none => simp
      | some u =>
        simp only [on_allSized h, Option.some.injEq]
        constructor
        · intro hf hxy v hv
          exact (append_iff hw (h x v hv) (h y u hy)).mpr (hf v u hxy hv rfl)
        · intro hf v u' hxy hv hu
          subst hu
          exact (append_iff hw (h x v hv) (h y u hy)).mp (hf hxy v hv)
    | deserialize x msg =>
      refine iff_of_true trivial ((on_allSized h).mpr fun v hv => ?_)
      rw [ok_bind]
      exact (deserialize_ok hw hdvd (h x v hv) msg).ok
    | _ => exact absurd rfl ha

theorem bits_dvd (block : UnsignedType) : block.bits ∣ 64 := by cases block <;> decide

/-- **The blocks are as many as the bits need**, and none is missing when it
is asked for, along exactly those runs that append and release only where it
`Fits`. -/
theorem sized_iff_fits (block : UnsignedType) (as : List (Act κ)) :
    Runs.Along next (fun _ _ d => AllSized d) (fun _ => (none : Option (BitVector block.bits))) as ↔
      Runs.Meets next Fits (fun _ => (none : Option (BitVector block.bits))) as :=
  Runs.along_iff_meets (I := AllSized) (D := fun _ _ => True)
    (fun _ a h _ => next_allSized_iff block.bits_pos (bits_dvd block) h a) (fun _ _ _ _ _ _ h => h)
    nofun (Runs.meets_true as)

/-- Two bits are appended to three bits of a block of eight, and so is an
empty vector; and a vector of three bits is released. -/
theorem not_sized :
    (∃ d v, Runs.run next (fun _ => (none : Option (BitVector 8)))
        [.new false 3 false, .new true 2 false, .append false true] = .next d ∧
      d false = some v ∧ v.numBits = 5 ∧ v.blocks.length = 2 ∧ ¬v.Sized) ∧
    Runs.run next (fun _ => (none : Option (BitVector 8)))
      [.new false 3 false, .new true 0 false, .append false true] = .failed ∧
    ∃ d v, Runs.run next (fun _ => (none : Option (BitVector 8)))
        [.new false 3 false, .clearAndRelease false] = .next d ∧
      d false = some v ∧ v.numBits = 3 ∧ v.blocks.length = 0 ∧ ¬v.Sized := by
  refine ⟨⟨_, ⟨[0#8, 0#8], 5⟩, rfl, by decide +kernel, rfl, rfl, ?_⟩, rfl,
    ⟨_, ⟨[], 3⟩, rfl, by decide +kernel, rfl, rfl, ?_⟩⟩
  · unfold Sized
    decide
  · unfold Sized
    decide

end BitVector
