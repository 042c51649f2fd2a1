/-
Trimming takes away the longest prefix, or suffix, of the characters to be taken
away (`trims`). The inner loop of `trimmed` has no bound: the character at which
the outer loop stops ends it.
-/
import CxxHeaders.StringViewSearch
import Mathlib.Data.List.DropRight

open Outcome IndexLoop

variable {CharT : Type} {p : CharT → Bool} {l : List CharT} {i : Nat}

/-! ## Lists -/

theorem rdropWhile_cons (a : CharT) :
    (a :: l).rdropWhile p = if (l.rdropWhile p).isEmpty ∧ p a then [] else a :: l.rdropWhile p := by
  rw [List.rdropWhile, List.rdropWhile, List.reverse_cons, List.dropWhile_append, List.isEmpty_reverse]
  cases l.reverse.dropWhile p with
  | nil => cases hp : p a <;> simp [hp]
  | cons b l => simp

theorem rdropWhile_dropWhile : (l.dropWhile p).rdropWhile p = (l.rdropWhile p).dropWhile p := by
  induction l with
  | nil => rfl
  | cons a l ih =>
    cases hp : p a with
    | true =>
      rw [List.dropWhile_cons_of_pos hp, rdropWhile_cons, ih]
      split
      · next h => rw [List.isEmpty_iff.mp h.1]
      · rw [List.dropWhile_cons_of_pos hp]
    | false =>
      have hp : ¬p a = true := by simp [hp]
      have hcons : (a :: l).rdropWhile p = a :: l.rdropWhile p := by
        rw [rdropWhile_cons, if_neg fun h => hp h.2]
      rw [List.dropWhile_cons_of_neg hp, hcons, List.dropWhile_cons_of_neg hp]

/-- Up to the first element that does not pass the test. -/
theorem drop_eq_dropWhile (hi : l[i]?.any (!p ·)) (hleast : ∀ j, l[j]?.any (!p ·) → i ≤ j) :
    l.drop i = l.dropWhile p := by
  obtain ⟨c, hc, hpc⟩ := (Option.any_eq_true _ _).mp hi
  obtain ⟨hlt, rfl⟩ := List.getElem?_eq_some_iff.mp hc
  have hbefore : ∀ a ∈ l.take i, p a := by
    intro a ha
    obtain ⟨j, hj, rfl⟩ := List.mem_take_iff_getElem.mp ha
    by_contra hpa
    have hle := hleast j (by rw [List.getElem?_eq_getElem (by omega)]; simpa using hpa)
    omega
  have hstop : (l.drop i).dropWhile p = l.drop i := by
    rw [List.drop_eq_getElem_cons hlt, List.dropWhile_cons_of_neg (by simpa using hpc)]
  conv_rhs => rw [← List.take_append_drop i l, List.dropWhile_append_of_pos hbefore, hstop]

/-- Through the last element that does not pass the test. -/
theorem take_eq_rdropWhile (hi : l[i]?.any (!p ·)) (hgreatest : ∀ j, l[j]?.any (!p ·) → j ≤ i) :
    l.take (i + 1) = l.rdropWhile p := by
  obtain ⟨c, hc, hpc⟩ := (Option.any_eq_true _ _).mp hi
  obtain ⟨hlt, rfl⟩ := List.getElem?_eq_some_iff.mp hc
  have hbehind : ∀ a ∈ (l.drop (i + 1)).reverse, p a := by
    intro a ha
    obtain ⟨j, hj, rfl⟩ := List.mem_drop_iff_getElem.mp (List.mem_reverse.mp ha)
    by_contra hpa
    have hle := hgreatest (i + 1 + j) (by rw [List.getElem?_eq_getElem (by omega)]; simpa using hpa)
    omega
  have hstop : (l.take (i + 1)).rdropWhile p = l.take (i + 1) := by
    rw [← List.take_append_getElem hlt, List.rdropWhile_concat_neg p _ _ (by simpa using hpc)]
  calc l.take (i + 1) = (l.take (i + 1)).rdropWhile p := hstop.symm
    _ = (l.take (i + 1) ++ l.drop (i + 1)).rdropWhile p := by
      rw [List.rdropWhile, List.rdropWhile, List.reverse_append, List.dropWhile_append_of_pos hbehind]
    _ = l.rdropWhile p := by rw [List.take_append_drop]

/-- Both ends at once. -/
theorem take_drop_eq {k : Nat} (hi : l[i]?.any (!p ·)) (hleast : ∀ j, l[j]?.any (!p ·) → i ≤ j)
    (hk : l[k]?.any (!p ·)) (hgreatest : ∀ j, l[j]?.any (!p ·) → j ≤ k) :
    (l.drop i).take (k + 1 - i) = (l.rdropWhile p).dropWhile p := by
  have hle := hleast k hk
  have htake : ∀ j, j ≤ k → (l.take (k + 1))[j]? = l[j]? := fun j hj =>
    List.getElem?_take_of_lt (Nat.lt_succ_of_le hj)
  rw [← List.drop_take, ← take_eq_rdropWhile hk hgreatest]
  refine drop_eq_dropWhile (by rwa [htake i hle]) fun j hj => ?_
  by_cases hjk : j ≤ k
  · exact hleast j (by rwa [htake j hjk] at hj)
  · omega

namespace BasicStringView

variable {v : BasicStringView CharT}

/-! ## What is left -/

/-- Without the longest prefix of such characters. -/
def dropLeft (p : CharT → Bool) (v : BasicStringView CharT) : BasicStringView CharT :=
  ⟨v.chars.dropWhile p, Nat.lt_of_le_of_lt (List.length_dropWhile_le p v.chars) v.length_lt⟩

/-- Without the longest suffix of such characters. -/
def dropRight (p : CharT → Bool) (v : BasicStringView CharT) : BasicStringView CharT :=
  ⟨v.chars.rdropWhile p, Nat.lt_of_le_of_lt (List.rdropWhile_prefix p v.chars).length_le v.length_lt⟩

theorem eq_of_chars {v w : BasicStringView CharT} (h : v.chars = w.chars) : v = w := by
  cases v
  cases w
  cases h
  rfl

theorem dropLeft_dropLeft : (v.dropLeft p).dropLeft p = v.dropLeft p :=
  eq_of_chars (List.dropWhile_idempotent p v.chars)

theorem dropRight_dropRight : (v.dropRight p).dropRight p = v.dropRight p :=
  eq_of_chars (List.rdropWhile_idempotent p v.chars)

theorem dropRight_dropLeft : (v.dropLeft p).dropRight p = (v.dropRight p).dropLeft p :=
  eq_of_chars rdropWhile_dropWhile

/-- Nothing is left. -/
theorem dropLeft_eq_empty (h : ∀ j, ¬v.holds (!p ·) j) : v.dropLeft p = empty := by
  refine eq_of_chars (List.dropWhile_eq_nil_iff.mpr fun c hc => ?_)
  obtain ⟨j, hj⟩ := List.mem_iff_getElem?.mp hc
  by_contra hpc
  exact h j (by simpa [holds, hj] using hpc)

theorem dropRight_eq_empty (h : ∀ j, ¬v.holds (!p ·) j) : v.dropRight p = empty := by
  refine eq_of_chars (List.rdropWhile_eq_nil_iff.mpr fun c hc => ?_)
  obtain ⟨j, hj⟩ := List.mem_iff_getElem?.mp hc
  by_contra hpc
  exact h j (by simpa [holds, hj] using hpc)

/-! ## The three trims -/

variable {test : SizeType → Outcome Bool}

theorem part_eq {i n : SizeType} {w : BasicStringView CharT} (h : i.toNat + n.toNat ≤ v.chars.length)
    (hw : (v.chars.drop i.toNat).take n.toNat = w.chars) : v.part i n = .next w := by
  rw [part, asserting_true h, next_bind, pure_eq]
  exact congrArg _ (eq_of_chars hw)

theorem leftTrimmedTo_eq (h : v.Tests test (!p ·)) : v.leftTrimmedTo test = .next (v.dropLeft p) := by
  obtain ⟨found, hloop, hleast⟩ := (below_least h 0).exists
  rw [leftTrimmedTo, hloop, next_bind]
  cases found with
  | none => rw [dropLeft_eq_empty fun j hj => hleast j ⟨Nat.zero_le j, hj⟩, pure_eq]
  | some i =>
    obtain ⟨⟨-, hi⟩, hleast⟩ := hleast
    have hlt := lt_of_holds hi
    have hsub : (v.size - i).toNat = v.chars.length - i.toNat :=
      toNat_size_sub (BitVec.le_of_lt (lt_size.mpr hlt))
    refine part_eq (by omega) ?_
    rw [hsub, ← List.length_drop, List.take_length]
    exact drop_eq_dropWhile hi fun j hj => hleast j ⟨Nat.zero_le j, hj⟩

theorem toNat_add_one_of_lt {i : SizeType} (h : i.toNat < v.chars.length) : (i + 1).toNat = i.toNat + 1 :=
  toNat_add_one (Nat.lt_of_le_of_lt h v.length_lt)

theorem rightTrimmedTo_eq (h : v.Tests test (!p ·)) :
    v.rightTrimmedTo test = .next (v.dropRight p) := by
  obtain ⟨found, hloop, hgreatest⟩ := (under_greatest h (Nat.le_of_eq v.toNat_size)).exists
  have hin : ∀ j, v.holds (!p ·) j → j < v.size.toNat := fun j hj => v.toNat_size ▸ lt_of_holds hj
  rw [rightTrimmedTo, hloop, next_bind]
  cases found with
  | none => rw [dropRight_eq_empty fun j hj => hgreatest j ⟨hin j hj, hj⟩, pure_eq]
  | some i =>
    obtain ⟨⟨-, hi⟩, hgreatest⟩ := hgreatest
    have hlt := lt_of_holds hi
    have hsucc := toNat_add_one_of_lt hlt
    refine part_eq (by rw [hsucc]; exact Nat.le_trans (Nat.le_of_eq (Nat.zero_add _)) hlt) ?_
    rw [hsucc]
    exact take_eq_rdropWhile hi fun j hj => hgreatest j ⟨hin j hj, hj⟩

/-- The inner loop does not pass the character at which the outer one stops. -/
theorem endless_greatest (h : v.Tests test (!p ·)) {i : Nat} (hi : v.holds (!p ·) i) :
    (endless test v.fuel (v.size - 1)).Returns fun k =>
      v.holds (!p ·) k.toNat ∧ ∀ j, v.holds (!p ·) j → j ≤ k.toNat := by
  have hlt := lt_of_holds hi
  have hne : v.size ≠ 0 := fun hz => by
    rw [← toNat_size, hz] at hlt
    cases hlt
  have hpred := toNat_sub_one hne
  rw [toNat_size] at hpred
  have htest : ∀ j, j ≤ v.size - 1 → test j = .next (v.holds (!p ·) j.toNat) := by
    intro j hj
    rw [BitVec.le_def, hpred] at hj
    exact h j (lt_size.mpr (by omega))
  refine (endless_returns v.fuel htest ⟨i, by rw [hpred]; omega, hi⟩ (by rw [hpred, fuel]; omega)).mono fun k hk => ?_
  refine ⟨hk.1.2, fun j hj => hk.2 j ⟨?_, hj⟩⟩
  have hjlt := lt_of_holds hj
  rw [hpred]
  omega

theorem trimmedTo_eq (h : v.Tests test (!p ·)) :
    v.trimmedTo test = .next ((v.dropRight p).dropLeft p) := by
  obtain ⟨found, hloop, hleast⟩ := (below_least h 0).exists
  rw [trimmedTo, hloop, next_bind]
  cases found with
  | none =>
    rw [dropRight_eq_empty fun j hj => hleast j ⟨Nat.zero_le j, hj⟩, pure_eq]
    rfl
  | some i =>
    obtain ⟨⟨-, hi⟩, hleast⟩ := hleast
    have hleast : ∀ j, v.holds (!p ·) j → i.toNat ≤ j := fun j hj => hleast j ⟨Nat.zero_le j, hj⟩
    obtain ⟨k, hinner, hk, hgreatest⟩ := (endless_greatest h hi).exists
    have hik := hleast _ hk
    have hlt := lt_of_holds hk
    have hsucc := toNat_add_one_of_lt hlt
    have hsub : (k + 1 - i).toNat = k.toNat + 1 - i.toNat := by
      rw [BitVec.toNat_sub_of_le (by rw [BitVec.le_def, hsucc]; omega), hsucc]
    dsimp only
    rw [hinner, next_bind]
    refine part_eq (by omega) ?_
    rw [hsub]
    exact take_drop_eq hi hleast hk hgreatest

/-! ## The laws -/

/-- What is expected of the three trims that take away the characters that pass
the test. -/
structure Trims (p : CharT → Bool)
    (left right both : BasicStringView CharT → Outcome (BasicStringView CharT)) : Prop where
  left_eq : ∀ v, left v = .next (v.dropLeft p)
  right_eq : ∀ v, right v = .next (v.dropRight p)
  left_of_right : ∀ v, both v = right v >>= left
  right_of_left : ∀ v, both v = left v >>= right
  left_twice : ∀ v, (left v >>= left) = left v
  right_twice : ∀ v, (right v >>= right) = right v
  both_twice : ∀ v, (both v >>= both) = both v

variable {left right both : BasicStringView CharT → Outcome (BasicStringView CharT)}

theorem trims_of_eq (hleft : ∀ v, left v = .next (v.dropLeft p)) (hright : ∀ v, right v = .next (v.dropRight p))
    (hboth : ∀ v, both v = .next ((v.dropRight p).dropLeft p)) : Trims p left right both where
  left_eq := hleft
  right_eq := hright
  left_of_right v := by rw [hboth, hright, next_bind, hleft]
  right_of_left v := by rw [hboth, hleft, next_bind, hright, dropRight_dropLeft]
  left_twice v := by rw [hleft, next_bind, hleft, dropLeft_dropLeft]
  right_twice v := by rw [hright, next_bind, hright, dropRight_dropRight]
  both_twice v := by
    rw [hboth, next_bind, hboth, ← dropRight_dropLeft (v := v), dropRight_dropRight, dropRight_dropLeft,
      dropLeft_dropLeft]

theorem trims_to {test : BasicStringView CharT → SizeType → Outcome Bool} (h : ∀ v, Tests v (test v) p) :
    Trims p (fun v => v.leftTrimmedTo (negated (test v))) (fun v => v.rightTrimmedTo (negated (test v)))
      fun v => v.trimmedTo (negated (test v)) :=
  trims_of_eq (fun v => leftTrimmedTo_eq (h v).negated) (fun v => rightTrimmedTo_eq (h v).negated)
    fun v => trimmedTo_eq (h v).negated

variable [BEq CharT]

theorem trims_of_set {cs : List CharT} {count : SizeType} (hcount : count.toNat ≤ cs.length) :
    Trims (fun c => (cs.take count.toNat).any (· == c)) (leftTrimmed · cs count) (rightTrimmed · cs count)
      (trimmed · cs count) :=
  trims_to fun _ => isIn_tests hcount

/-- A set of one character, which is handed to `eq` on the other side. -/
theorem isIn_singleton (hsymm : ∀ a b : CharT, (a == b) = (b == a)) (c : CharT) :
    v.isIn [c] 1 = v.eq c := by
  funext i
  rw [isIn, eq]
  cases v.get i with
  | next d =>
    have hone : (1 : SizeType).toNat ≤ [c].length := Nat.le_refl 1
    rw [next_bind, next_bind, Traits.find, asserting_true hone, hsymm d c]
    cases hcd : c == d <;> simp [hcd]
  | _ => rfl

/-- **The trims keep their laws**, for a character and for a set, which may be
empty, a view or a C string. -/
theorem trims :
    (∀ c : CharT, Trims (· == c) (leftTrimmedChar · c) (rightTrimmedChar · c) (trimmedChar · c)) ∧
    (∀ (cs : List CharT) (count : SizeType), count.toNat ≤ cs.length →
      Trims (fun c => (cs.take count.toNat).any (· == c)) (leftTrimmed · cs count) (rightTrimmed · cs count)
        (trimmed · cs count)) ∧
    (∀ cs : BasicStringView CharT,
      Trims (fun c => cs.chars.any (· == c)) (leftTrimmedView · cs) (rightTrimmedView · cs)
        (trimmedView · cs)) ∧
    (∀ [Zero CharT] (cs : Traits.CString CharT),
      Trims (fun c => cs.chars.any (· == c)) (leftTrimmedCStr · cs.memory) (rightTrimmedCStr · cs.memory)
        (trimmedCStr · cs.memory)) ∧
    ((∀ a b : CharT, (a == b) = (b == a)) → ∀ (v : BasicStringView CharT) (c : CharT),
      v.leftTrimmedChar c = v.leftTrimmed [c] 1 ∧ v.rightTrimmedChar c = v.rightTrimmed [c] 1 ∧
        v.trimmedChar c = v.trimmed [c] 1) := by
  refine ⟨fun c => trims_to fun _ => eq_tests c, fun cs count => trims_of_set, fun cs => ?_, fun cs => ?_,
    fun hsymm v c => ?_⟩
  · have hset := trims_of_set (Nat.le_of_eq cs.toNat_size)
    rw [cs.toNat_size, List.take_length] at hset
    exact hset
  · obtain ⟨n, hn, hend⟩ := Traits.length_memory cs
    have hlt := cs.end_lt
    have hset := trims_of_set (show n.toNat ≤ cs.memory.length by omega)
    simp only [leftTrimmedCStr, rightTrimmedCStr, trimmedCStr, hn, next_bind]
    rw [hend] at hset
    exact hset
  · simp only [leftTrimmed, rightTrimmed, trimmed, isIn_singleton hsymm]
    exact ⟨rfl, rfl, rfl⟩

/-- The NUL of `char`. -/
instance : Zero Char := ⟨Char.ofNat 0⟩

/-- A space and a hyphen, and what is in memory behind them. -/
def blanks : Traits.CString Char := ⟨[' ', '-', 0, 'a'], ⟨0, by decide, rfl⟩, by decide⟩

/-- The view that is trimmed has a character between the blanks. -/
theorem trims_blanks : ∃ v, trimmedCStr (⟨[' ', 'a', '-', '-'], by decide⟩ : BasicStringView Char) blanks.memory =
    .next v ∧ v.chars = ['a'] ∧
    Trims (fun c => blanks.chars.any (· == c)) (leftTrimmedCStr · blanks.memory) (rightTrimmedCStr · blanks.memory)
      (trimmedCStr · blanks.memory) :=
  ⟨_, rfl, rfl, trims.2.2.2.1 blanks⟩

end BasicStringView
