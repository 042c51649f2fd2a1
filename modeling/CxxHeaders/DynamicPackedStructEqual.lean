/-
When `==` tells two packed structures apart: it compares their bytes as a
whole, and nothing of where one field ends and the next one begins.
-/
import CxxHeaders.DynamicPackingBounds

open Outcome DynamicPackingInfo

namespace DynamicPackedStruct

variable {ts : List Field} {s t : DynamicPackedStruct ts} {args args' : Args ts} {x y : List UInt8}

/-- An object that was constructed with these sizes; it has no block any more
after it has been moved from. -/
structure Of (s : DynamicPackedStruct ts) (args : Args ts) : Prop where
  sizes : s.sizes = .new args
  data : ∀ block ∈ s.data, block.length = (sizeInBytes ts args).toNat

/-! ## `memcmp` -/

theorem memcmp_returns : ∀ (x y : List UInt8) (n : Nat), x.length = n → y.length = n →
    (memcmp x y n).Returns fun r => r = 0 ↔ x = y
  | [], [], 0, _, _ => iff_of_true rfl rfl
  | a :: x, b :: y, n + 1, hx, hy => by
    simp only [memcmp]
    rcases Nat.lt_trichotomy a.toNat b.toNat with hlt | heq | hgt
    · have hne : a ≠ b := fun he => Nat.ne_of_lt hlt (he ▸ rfl)
      rw [if_pos (UInt8.lt_iff_toNat_lt.mpr hlt), returns_next]
      simp [hne]
    · obtain rfl : a = b := UInt8.toNat_inj.mp heq
      rw [if_neg (UInt8.lt_irrefl a), if_neg (UInt8.lt_irrefl a)]
      refine (memcmp_returns x y n (Nat.succ.inj hx) (Nat.succ.inj hy)).mono fun r hr => ?_
      rw [hr, List.cons_inj_right]
    · have hne : a ≠ b := fun he => Nat.ne_of_gt hgt (he ▸ rfl)
      have hnot : ¬a < b := fun h => Nat.lt_asymm hgt (UInt8.lt_iff_toNat_lt.mp h)
      rw [if_neg hnot, if_pos (UInt8.lt_iff_toNat_lt.mpr hgt), returns_next]
      simp [hne]

/-! ## The fields of a block -/

theorem Of.size_eq (h : s.Of args) (hdynamic : 0 < numDynamicFields ts) : s.size = accumSize ts args := by
  rw [size, h.sizes, structSizeInBytes_eq args hdynamic]

theorem Of.eq_mk (h : s.Of args) (hx : s.data = some x) : s = ⟨some x, .new args⟩ := by
  obtain ⟨data, sizes⟩ := s
  obtain rfl : data = some x := hx
  obtain rfl : sizes = .new args := h.sizes
  rfl

/-- Every field has the same bytes here and there. -/
def SameFields (s t : DynamicPackedStruct ts) (args args' : Args ts) : Prop :=
  ∀ i < ts.length, ∃ bs, s.field args i = some bs ∧ t.field args' i = some bs

theorem SameFields.fits (h : SameFields ⟨some x, .new args⟩ t args args')
    (hx : x.length = (accumSize ts args).toNat) : (bytes ts args).sum < 2 ^ 64 := by
  refine (fields_inside_iff args).mp fun i hi => (isSome_field hx).mp ?_
  obtain ⟨bs, hbs, -⟩ := h i hi
  rw [hbs]
  rfl

theorem field_eq (hfits : (bytes ts args).sum < 2 ^ 64) (hx : x.length = (accumSize ts args).toNat) {i : Nat}
    (hi : i < (bytes ts args).length) :
    field ⟨some x, .new args⟩ args i =
      some ((x.drop (Layout.start (bytes ts args) i)).take (bytes ts args)[i]) := by
  have hend := Layout.end_le_sum hi
  simp only [field, Option.bind_some, toNat_elemOffset args hfits, fieldBytes_eq args hi]
  rw [hx, toNat_accumSize ts args hfits, if_pos hend]

/-- The fields, one behind the other, are the whole block. -/
theorem SameFields.eq (h : SameFields ⟨some x, .new args⟩ ⟨some y, .new args⟩ args args)
    (hx : x.length = (accumSize ts args).toNat) (hy : y.length = (accumSize ts args).toNat) : x = y := by
  have hfits := h.fits hx
  have htake : ∀ i ≤ ts.length, x.take (Layout.start (bytes ts args) i) =
      y.take (Layout.start (bytes ts args) i) := by
    intro i
    induction i with
    | zero => exact fun _ => by simp [Layout.start]
    | succ i ih =>
      intro hi
      have hlen : i < (bytes ts args).length := by rwa [length_bytes]
      obtain ⟨bs, hxs, hys⟩ := h i hi
      rw [field_eq hfits hx hlen] at hxs
      rw [field_eq hfits hy hlen] at hys
      rw [Layout.start_succ hlen, List.take_add, List.take_add, ih (Nat.le_of_succ_le hi),
        Option.some.inj hxs, Option.some.inj hys]
  have hall := htake ts.length (Nat.le_refl _)
  rw [← length_bytes ts args, Layout.start, List.take_length, ← toNat_accumSize ts args hfits] at hall
  rwa [List.take_of_length_le (Nat.le_of_eq hx), List.take_of_length_le (Nat.le_of_eq hy)] at hall

theorem sameFields_self (hfits : (bytes ts args).sum < 2 ^ 64) (hx : x.length = (accumSize ts args).toNat) :
    SameFields ⟨some x, .new args⟩ ⟨some x, .new args⟩ args args := by
  intro i hi
  have hi : i < (bytes ts args).length := by rwa [length_bytes]
  exact ⟨_, field_eq hfits hx hi, field_eq hfits hx hi⟩

/-! ## Equality -/

/-- `==` and `!=` return, and say whether all sizes and all fields are the same. -/
def Respects (s t : DynamicPackedStruct ts) (args args' : Args ts) : Prop :=
  ∃ r, s.eq t = .next r ∧ s.ne t = .next !r ∧ (r = true ↔ args = args' ∧ SameFields s t args args')

theorem respects_iff_of_eq {r : Bool} (heq : s.eq t = .next r) (hne : s.ne t = .next !r) :
    Respects s t args args' ↔ (r = true ↔ args = args' ∧ SameFields s t args args') := by
  constructor
  · rintro ⟨r', heq', -, hr⟩
    rw [heq] at heq'
    cases heq'
    exact hr
  · exact fun hr => ⟨r, heq, hne, hr⟩

theorem eq_of_size_ne (h : s.size ≠ t.size) : s.eq t = .next false ∧ s.ne t = .next true := by
  unfold eq ne
  rw [if_pos h, if_pos h]
  exact ⟨rfl, rfl⟩

theorem eq_of_size_eq (h : s.size = t.size) (hs : s.data = some x) (ht : t.data = some y)
    (hx : x.length = s.size.toNat) (hy : y.length = s.size.toNat) :
    s.eq t = .next (decide (x = y)) ∧ s.ne t = .next !decide (x = y) := by
  obtain ⟨r, hr, hzero⟩ := (memcmp_returns x y _ hx hy).exists
  have hptr : memcmpPtr s.data t.data s.size.toNat = .next r := by rw [hs, ht, memcmpPtr, hr]
  unfold eq ne
  rw [if_neg (not_not.mpr h), if_neg (not_not.mpr h), hptr]
  simp only [next_bind, pure_eq, hzero, ne_eq, decide_not, and_self]

theorem eq_of_null (h : s.size = t.size) (hnull : s.data = none ∨ t.data = none) : s.eq t = .failed := by
  have hfailed : memcmpPtr s.data t.data s.size.toNat = .failed := by
    rcases hnull with hs | ht
    · rw [hs]
      rfl
    · rw [ht]
      cases s.data <;> rfl
  unfold eq
  rw [if_neg (not_not.mpr h), hfailed]
  rfl

/-- **Equality is right where the blocks differ, or where no size does.** -/
theorem respects_iff (hs : s.Of args) (ht : t.Of args') (hdynamic : 0 < numDynamicFields ts) :
    Respects s t args args' ↔
      s.size ≠ t.size ∨ ∃ x y, s.data = some x ∧ t.data = some y ∧
        (x ≠ y ∨ args = args' ∧ (bytes ts args).sum < 2 ^ 64) := by
  by_cases hsize : s.size = t.size
  · have hnot : ¬s.size ≠ t.size := not_not.mpr hsize
    by_cases hnull : s.data = none ∨ t.data = none
    · refine iff_of_false ?_ ?_
      · rintro ⟨r, heq, -⟩
        rw [eq_of_null hsize hnull] at heq
        cases heq
      · rintro (h | ⟨x, y, hx, hy, -⟩)
        · exact hnot h
        · rcases hnull with h | h
          · cases hx.symm.trans h
          · cases hy.symm.trans h
    · obtain ⟨hsn, htn⟩ := not_or.mp hnull
      obtain ⟨x, hx⟩ := Option.ne_none_iff_exists.mp hsn
      obtain ⟨y, hy⟩ := Option.ne_none_iff_exists.mp htn
      have hxl : x.length = (accumSize ts args).toNat := hs.data x hx.symm
      have hyl : y.length = (accumSize ts args').toNat := ht.data y hy.symm
      have hacc : accumSize ts args' = accumSize ts args := by
        rw [← hs.size_eq hdynamic, ← ht.size_eq hdynamic, hsize]
      have heq := eq_of_size_eq hsize hx.symm hy.symm (by rw [hs.size_eq hdynamic, hxl])
        (by rw [hs.size_eq hdynamic, ← hacc, hyl])
      obtain rfl := hs.eq_mk hx.symm
      obtain rfl := ht.eq_mk hy.symm
      rw [respects_iff_of_eq heq.1 heq.2, decide_eq_true_iff]
      constructor
      · intro h
        by_cases hxy : x = y
        · obtain ⟨hargs, hsame⟩ := h.mp hxy
          exact .inr ⟨x, y, rfl, rfl, .inr ⟨hargs, hsame.fits hxl⟩⟩
        · exact .inr ⟨x, y, rfl, rfl, .inl hxy⟩
      · rintro (h | ⟨x', y', ⟨⟩, ⟨⟩, h⟩)
        · exact absurd hsize h
        · constructor
          · rintro rfl
            obtain ⟨rfl, hfits⟩ := h.resolve_left fun hne => hne rfl
            exact ⟨rfl, sameFields_self hfits hxl⟩
          · rintro ⟨rfl, hsame⟩
            exact hsame.eq hxl hyl
  · rw [respects_iff_of_eq (eq_of_size_ne hsize).1 (eq_of_size_ne hsize).2]
    refine iff_of_true (iff_of_false Bool.false_ne_true ?_) (.inl hsize)
    rintro ⟨rfl, -⟩
    exact hsize ((hs.size_eq hdynamic).trans (ht.size_eq hdynamic).symm)

/-- `DynamicPackedStruct<DynamicFieldPlaceholder<>, DynamicFieldPlaceholder<> >` -/
def twoDynamic : List BoundedField := [.dynamic 0 0xffffffffffffffff, .dynamic 0 0xffffffffffffffff]

/-- The one byte is in the first field here and in the second one there. -/
theorem respects_fails :
    ∃ s t, new twoDynamic (1, 0, ()) [7] = .next s ∧ new twoDynamic (0, 1, ()) [7] = .next t ∧
      s.eq t = .next true ∧ s.field (1, 0, ()) 0 = some [7] ∧ t.field (0, 1, ()) 0 = some [] ∧
      ¬Respects s t (1, 0, ()) (0, 1, ()) := by
  refine ⟨_, _, rfl, rfl, rfl, rfl, rfl, ?_⟩
  rintro ⟨r, heq, -, hr⟩
  cases heq
  cases (hr.mp rfl).1

/-- The same with a 7 in the one and an 8 in the other. -/
theorem respects_iff_twoDynamic :
    ∃ s t, new twoDynamic (1, 0, ()) [7] = .next s ∧ new twoDynamic (0, 1, ()) [8] = .next t ∧
      Respects s t (1, 0, ()) (0, 1, ()) := by
  refine ⟨_, _, rfl, rfl, (respects_iff ⟨rfl, ?_⟩ ⟨rfl, ?_⟩ (by decide)).mpr ?_⟩
  · rintro block ⟨⟩
    rfl
  · rintro block ⟨⟩
    rfl
  · exact .inr ⟨[7], [8], rfl, rfl, .inl (by decide)⟩

end DynamicPackedStruct
