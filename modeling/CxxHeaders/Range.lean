/-
`Range.h`: are the elements of two ranges equal? There is one `rangeEqual` for
each case of which of the two can be measured, and they answer alike.

`*aIt == *bIt`, converted to `bool`, is `eq`.
-/
import CxxHeaders.IndexLoops
import CxxHeaders.IntegralComparisons
import CxxHeaders.Iterators
import Mathlib.Data.List.Forall2

open Outcome IndexLoop

variable {α β : Type}

/-- What `measureRange` returns, and how many bits its type has. -/
structure Measure where
  size : Integral
  bits : Nat

/-- A range, which is measured in constant time, or cannot be. -/
structure Range (α : Type) where
  elems : List α
  measure : Option Measure
  measured : ∀ m ∈ measure, m.size.value = elems.length ∧ elems.length < 2 ^ m.bits

namespace Range

open Iterator

variable (eq : α → β → Bool)

/-! ## The overloads -/

/-- The loop, if neither is measured. -/
def whileEqual : Nat → List α → List β → Outcome Bool
  | 0, _, _ => .blocked
  | fuel + 1, aIt, bIt =>
    if aIt.isEmpty then return bIt.isEmpty
    else if bIt.isEmpty then return false
    else do
      if eq (← deref aIt) (← deref bIt) then whileEqual fuel (← increment aIt) (← increment bIt) else return false

def rangeEqualUnmeasured (a : List α) (b : List β) : Outcome Bool := whileEqual eq (a.length + 1) a b

/-- `static_cast<USIZE>(s)`. -/
def uSize (m : Measure) : BitVec m.bits := BitVec.ofInt m.bits m.size.value

/-- The loop, if one is measured: `sIt` is in this one, and `it` in the other. -/
def forEqual {w : Nat} : Nat → List α → List β → BitVec w → Outcome Bool
  | 0, _, _, _ => .blocked
  | fuel + 1, sIt, it, uSize => do
    if eq (← deref sIt) (← deref it) then
      let it ← increment it
      let uSize := uSize - 1
      if it.isEmpty then return decide (uSize ≤ 0)
      else if uSize ≤ 0 then return false
      else forEqual fuel (← increment sIt) it uSize
    else return false

/-- `s` measures the one in which `sIt` begins. -/
def rangeEqualOne (sIt : List α) (s : Measure) (it : List β) : Outcome Bool :=
  if it.isEmpty then return s.size.isZero
  else if s.size.isPositive then forEqual eq (it.length + 1) sIt it (uSize s)
  else return false

def rangeEqualFirst (a : List α) (s : Measure) (b : List β) : Outcome Bool := rangeEqualOne eq a s b

def rangeEqualSecond (a : List α) (b : List β) (s : Measure) : Outcome Bool :=
  rangeEqualOne (fun y x => eq x y) b s a

/-- The loop, if both are measured. -/
def doEqual {w : Nat} : Nat → List α → List β → BitVec w → Outcome Bool
  | 0, _, _, _ => .blocked
  | fuel + 1, aIt, bIt, uSize => do
    if eq (← deref aIt) (← deref bIt) then
      let aIt ← increment aIt
      let bIt ← increment bIt
      let uSize := uSize - 1
      if uSize > 0 then doEqual fuel aIt bIt uSize else return true
    else return false

def rangeEqualBoth (a : List α) (s : Measure) (b : List β) (t : Measure) : Outcome Bool :=
  if Integral.notEqual s.size t.size then return false
  else if s.size.isNonPositive then return s.size.isZero
  else doEqual eq (a.length + 1) a b (uSize s)

/-- `rangeEqual`: the overload that is selected. -/
def rangeEqual (a : Range α) (b : Range β) : Outcome Bool :=
  match a.measure, b.measure with
  | none, none => rangeEqualUnmeasured eq a.elems b.elems
  | some s, none => rangeEqualFirst eq a.elems s b.elems
  | none, some t => rangeEqualSecond eq a.elems b.elems t
  | some s, some t => rangeEqualBoth eq a.elems s b.elems t

/-! ## Equal elements -/

/-- As many, and equal one by one. -/
def SameElements (a : List α) (b : List β) : Prop := List.Forall₂ (fun x y => eq x y = true) a b

variable {eq} {a : List α} {b : List β}

theorem sameElements_cons {x : α} {y : β} :
    SameElements eq (x :: a) (y :: b) ↔ eq x y = true ∧ SameElements eq a b := List.forall₂_cons

theorem sameElements_cons_of_eq {x : α} {y : β} (hxy : eq x y = true) :
    SameElements eq (x :: a) (y :: b) ↔ SameElements eq a b := by
  rw [sameElements_cons, and_iff_right hxy]

theorem sameElements_flip : SameElements (fun y x => eq x y) b a ↔ SameElements eq a b :=
  ⟨List.Forall₂.flip, List.Forall₂.flip⟩

theorem sameElements_nil : SameElements eq [] b ↔ b = [] := List.forall₂_nil_left_iff

theorem not_sameElements_nil (ha : a ≠ []) : ¬SameElements eq a [] := fun h =>
  ha (List.forall₂_nil_right_iff.mp h)

/-- The answer is right. -/
def Answers (eq : α → β → Bool) (a : List α) (b : List β) (x : Outcome Bool) : Prop :=
  x.Returns fun r => r = true ↔ SameElements eq a b

theorem Answers.congr {α' β' : Type} {eq' : α' → β' → Bool} {a' : List α'} {b' : List β'} {x : Outcome Bool}
    (h : Answers eq a b x) (hiff : SameElements eq' a' b' ↔ SameElements eq a b) : Answers eq' a' b' x :=
  Returns.mono h fun _ hr => hr.trans hiff.symm

theorem answers_false (h : ¬SameElements eq a b) : Answers eq a b (.next false) :=
  ⟨fun hfalse => absurd hfalse Bool.false_ne_true, fun hs => absurd hs h⟩

theorem answers_of_ne {x : α} {y : β} (hxy : ¬eq x y = true) : Answers eq (x :: a) (y :: b) (.next false) :=
  answers_false fun h => hxy (sameElements_cons.mp h).1

/-! ## The loops -/

theorem whileEqual_answers (fuel : Nat) (hfuel : a.length < fuel) :
    Answers eq a b (whileEqual eq fuel a b) := by
  induction fuel generalizing a b with
  | zero => omega
  | succ fuel ih =>
    cases a with
    | nil => simp [whileEqual, Answers, sameElements_nil]
    | cons x a =>
      cases b with
      | nil => exact answers_false (not_sameElements_nil (by simp))
      | cons y b =>
        simp only [whileEqual, deref_cons, increment_cons, List.isEmpty_cons, Bool.false_eq_true, if_false, next_bind]
        have hrest := ih (a := a) (b := b) (by simpa using hfuel)
        split
        · next hxy => exact hrest.congr (sameElements_cons_of_eq hxy)
        · next hxy => exact answers_of_ne hxy

variable {w : Nat}

/-- What is left to be counted, after one. -/
theorem toNat_uSize_sub_one {uSize : BitVec w} {n : Nat} (h : uSize.toNat = n + 1) : (uSize - 1).toNat = n := by
  rw [toNat_sub_one (by rintro rfl; simp at h), h, Nat.add_sub_cancel]

theorem le_zero_iff {uSize : BitVec w} {n : Nat} (h : uSize.toNat = n) : uSize ≤ 0 ↔ n = 0 := by
  simp [BitVec.le_def, h]

theorem forEqual_answers (fuel : Nat) {uSize : BitVec w} (ha : a ≠ []) (hb : b ≠ [])
    (hsize : uSize.toNat = a.length) (hfuel : b.length < fuel) :
    Answers eq a b (forEqual eq fuel a b uSize) := by
  induction fuel generalizing a b uSize with
  | zero => omega
  | succ fuel ih =>
    obtain ⟨x, a, rfl⟩ := List.exists_cons_of_ne_nil ha
    obtain ⟨y, b, rfl⟩ := List.exists_cons_of_ne_nil hb
    have hleft := toNat_uSize_sub_one hsize
    have hzero := le_zero_iff hleft
    simp only [forEqual, deref_cons, increment_cons, next_bind]
    split
    · next hxy =>
      have hcons := sameElements_cons_of_eq (a := a) (b := b) hxy
      cases b with
      | nil =>
        simp only [List.isEmpty_nil, if_true]
        refine Iff.trans (decide_eq_true_iff.trans (hzero.trans List.length_eq_zero_iff)) (hcons.trans ?_).symm
        exact List.forall₂_nil_right_iff
      | cons y' b =>
        simp only [List.isEmpty_cons, Bool.false_eq_true, if_false]
        split
        · next hle =>
          rw [hzero, List.length_eq_zero_iff] at hle
          subst hle
          exact answers_false fun h => by cases hcons.mp h
        · next hgt =>
          rw [hzero, List.length_eq_zero_iff] at hgt
          exact (ih hgt (by simp) hleft (by simpa using hfuel)).congr hcons
    · next hxy => exact answers_of_ne hxy

theorem doEqual_answers (fuel : Nat) {uSize : BitVec w} (ha : a ≠ []) (hsize : uSize.toNat = a.length)
    (hlen : a.length = b.length) (hfuel : a.length < fuel) :
    Answers eq a b (doEqual eq fuel a b uSize) := by
  induction fuel generalizing a b uSize with
  | zero => omega
  | succ fuel ih =>
    obtain ⟨x, a, rfl⟩ := List.exists_cons_of_ne_nil ha
    cases b with
    | nil => simp at hlen
    | cons y b =>
      have hleft := toNat_uSize_sub_one hsize
      have hzero := le_zero_iff hleft
      simp only [doEqual, deref_cons, increment_cons, next_bind]
      split
      · next hxy =>
        have hcons := sameElements_cons_of_eq (a := a) (b := b) hxy
        split
        · next hgt =>
          have hne : a ≠ [] := fun h => BitVec.not_le.mpr hgt (hzero.mpr (by simp [h]))
          exact (ih hne hleft (by simpa using hlen) (by simpa using hfuel)).congr hcons
        · next hle =>
          rw [gt_iff_lt, BitVec.not_lt, hzero, List.length_eq_zero_iff] at hle
          subst hle
          have hb : b = [] := by simpa [eq_comm] using hlen
          exact iff_of_true rfl (hcons.mpr (sameElements_nil.mpr hb))
      · next hxy => exact answers_of_ne hxy

/-! ## The overloads -/

variable {s t : Measure}

theorem toNat_uSize {n : Nat} (hvalue : s.size.value = n) (hfits : n < 2 ^ s.bits) : (uSize s).toNat = n := by
  rw [uSize, hvalue, BitVec.toNat_ofInt, Int.emod_eq_of_lt (Int.natCast_nonneg n) (by exact_mod_cast hfits),
    Int.toNat_natCast]

theorem rangeEqualOne_answers (hvalue : s.size.value = a.length) (hfits : a.length < 2 ^ s.bits) :
    Answers eq a b (rangeEqualOne eq a s b) := by
  unfold rangeEqualOne
  cases b with
  | nil =>
    have hzero : s.size.isZero = true ↔ a = [] := by simp [hvalue]
    exact hzero.trans List.forall₂_nil_right_iff.symm
  | cons y b =>
    rw [List.isEmpty_cons, if_neg Bool.false_ne_true]
    split
    · next hpos =>
      have ha : a ≠ [] := by
        rintro rfl
        simp [hvalue] at hpos
      exact forEqual_answers _ ha (by simp) (toNat_uSize hvalue hfits) (Nat.lt_succ_self _)
    · next hpos =>
      have ha : a = [] := by
        cases a with
        | nil => rfl
        | cons x a => simp [hvalue] at hpos
      subst ha
      exact answers_false fun h => by cases h

theorem rangeEqualBoth_answers (hvalue : s.size.value = a.length) (hfits : a.length < 2 ^ s.bits)
    (hvalue' : t.size.value = b.length) : Answers eq a b (rangeEqualBoth eq a s b t) := by
  unfold rangeEqualBoth
  split
  · next hne =>
    rw [Integral.notEqual_iff, hvalue, hvalue'] at hne
    exact answers_false fun h => hne (congrArg _ h.length_eq)
  · next heq =>
    rw [Integral.notEqual_iff, hvalue, hvalue', not_not, Nat.cast_inj] at heq
    split
    · next hle =>
      have ha : a = [] := by simpa [hvalue] using hle
      subst ha
      have hb : b = [] := by simpa [eq_comm] using heq
      exact iff_of_true (by simp [hvalue]) (sameElements_nil.mpr hb)
    · next hpos =>
      have ha : a ≠ [] := by
        rintro rfl
        simp [hvalue] at hpos
      exact doEqual_answers _ ha (toNat_uSize hvalue hfits) heq (Nat.lt_succ_self _)

theorem rangeEqual_answers (eq : α → β → Bool) (a : Range α) (b : Range β) :
    Answers eq a.elems b.elems (rangeEqual eq a b) := by
  unfold rangeEqual
  split
  · exact whileEqual_answers _ (Nat.lt_succ_self _)
  · next s hs _ =>
    obtain ⟨hvalue, hfits⟩ := a.measured s hs
    exact rangeEqualOne_answers hvalue hfits
  · next t _ ht =>
    obtain ⟨hvalue, hfits⟩ := b.measured t ht
    exact (rangeEqualOne_answers hvalue hfits).congr sameElements_flip.symm
  · next s t hs ht =>
    obtain ⟨hvalue, hfits⟩ := a.measured s hs
    exact rangeEqualBoth_answers hvalue hfits (b.measured t ht).1

/-- **Every overload answers** whether the elements are equal: so it does not
matter which one is selected, nor which range comes first. -/
theorem rangeEqual_agrees (eq : α → β → Bool) (a : Range α) (b : Range β) :
    (rangeEqual eq a b).Returns (fun r => r = true ↔ List.Forall₂ (fun x y => eq x y = true) a.elems b.elems) ∧
    (∀ (a' : Range α) (b' : Range β), a'.elems = a.elems → b'.elems = b.elems →
      rangeEqual eq a' b' = rangeEqual eq a b) ∧
    (∀ eq' : β → α → Bool, (∀ x y, eq' y x = eq x y) → rangeEqual eq' b a = rangeEqual eq a b) := by
  obtain ⟨r, hr, hiff⟩ := (rangeEqual_answers eq a b).exists
  refine ⟨rangeEqual_answers eq a b, fun a' b' ha hb => ?_, fun eq' hsymm => ?_⟩
  · obtain ⟨r', hr', hiff'⟩ := (rangeEqual_answers eq a' b').exists
    rw [ha, hb] at hiff'
    rw [hr, hr', Bool.eq_iff_iff.mpr (hiff'.trans hiff.symm)]
  · have hflip : eq' = fun y x => eq x y := funext fun y => funext fun x => hsymm x y
    obtain ⟨r', hr', hiff'⟩ := (rangeEqual_answers eq' b a).exists
    rw [hflip] at hiff'
    rw [hr, hr', Bool.eq_iff_iff.mpr (hiff'.trans (sameElements_flip.trans hiff.symm))]

/-- A `std::vector` of three, and a list of them, of which nothing is measured. -/
def vector : Range Nat := ⟨[1, 2, 3], some ⟨.unsigned 3, 64⟩, by simp [Integral.value]⟩
def forwardList : Range Nat := ⟨[1, 2, 3], none, by simp⟩

theorem rangeEqual_agrees_vector : rangeEqual (· == ·) vector forwardList = .next true ∧
    rangeEqual (· == ·) forwardList vector = .next true ∧ rangeEqual (· == ·) vector vector = .next true := by
  obtain ⟨-, hoverloads, -⟩ := rangeEqual_agrees (· == ·) forwardList forwardList
  have hfirst : rangeEqual (· == ·) forwardList forwardList = .next true := by decide
  exact ⟨(hoverloads vector forwardList rfl rfl).trans hfirst,
    (hoverloads forwardList vector rfl rfl).trans hfirst, (hoverloads vector vector rfl rfl).trans hfirst⟩

end Range
