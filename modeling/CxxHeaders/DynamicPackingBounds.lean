/-
When the bounds of the sizes bound the whole structure.

The least and the largest size are what `accumSize` gives for the least and the
largest arguments, and the exact sum of the bytes lies between theirs. All
overflow is in sums and products that are bigger than `std::size_t`, and then
a field is not inside of the block (`fields_inside_iff`).
-/
import CxxHeaders.DynamicPackedStruct

open Outcome

namespace DynamicPackingInfo

/-! ## Overflow -/

theorem toNat_accumSize_mod : ∀ (ts : List Field) (args : Args ts),
    (accumSize ts args).toNat = (bytes ts args).sum % 2 ^ 64
  | [], _ => rfl
  | .static sizeof :: ts, args => by
    rw [accumSize, UInt64.toNat_add, toNat_accumSize_mod ts args, bytes, List.sum_cons, Nat.add_mod_mod]
  | .dynamic :: ts, (size, args) => by
    rw [accumSize, UInt64.toNat_add, toNat_accumSize_mod ts args, bytes, List.sum_cons, Nat.add_mod_mod]
  | .vector sizeof :: ts, (size, args) => by
    rw [accumSize, UInt64.toNat_add, UInt64.toNat_mul, toNat_accumSize_mod ts args, bytes, List.sum_cons,
      ← Nat.add_mod]

theorem toNat_elemOffset_mod {ts : List Field} (args : Args ts) (i : Nat) :
    ((AccumArrayType.new args).elemOffset i).toNat = Layout.start (bytes ts args) i % 2 ^ 64 := by
  rw [elemOffset_eq, toNat_accumSize_mod, bytes_take]
  rfl

/-- Each field that is inside starts where the one before it ends. -/
theorem fields_inside_iff {ts : List Field} (args : Args ts) :
    (∀ i < ts.length, ((AccumArrayType.new args).elemOffset i).toNat + fieldBytes args i ≤
        (accumSize ts args).toNat) ↔ (bytes ts args).sum < 2 ^ 64 := by
  constructor
  · intro h
    have hstart : ∀ i ≤ ts.length, Layout.start (bytes ts args) i < 2 ^ 64 := by
      intro i
      induction i with
      | zero => exact fun _ => Nat.two_pow_pos 64
      | succ i ih =>
        intro hi
        have hlen : i < (bytes ts args).length := by rwa [length_bytes]
        have hin := h i hi
        rw [toNat_elemOffset_mod, Nat.mod_eq_of_lt (ih (Nat.le_of_succ_le hi)), fieldBytes_eq args hlen,
          ← Layout.start_succ hlen] at hin
        exact Nat.lt_of_le_of_lt hin (accumSize ts args).toNat_lt
    have hall := hstart ts.length (Nat.le_refl _)
    rwa [← length_bytes ts args, Layout.start, List.take_length] at hall
  · intro h i hi
    have hlen : i < (bytes ts args).length := by rwa [length_bytes]
    rw [toNat_elemOffset args h, fieldBytes_eq args hlen, toNat_accumSize ts args h]
    exact Layout.end_le_sum hlen

/-! ## The bounds -/

/-- Each size is `f` of its field. -/
def argsOf (f : BoundedField → UInt64) : (ts : List BoundedField) → Args (fields ts)
  | [] => ()
  | .static _ :: ts => argsOf f ts
  | .dynamic min max :: ts => (f (.dynamic min max), argsOf f ts)
  | .vector sizeof min max :: ts => (f (.vector sizeof min max), argsOf f ts)

theorem minSizeInBytes_eq : ∀ ts : List BoundedField,
    minSizeInBytes ts = accumSize (fields ts) (argsOf BoundedField.min ts)
  | [] => rfl
  | .static sizeof :: ts => congrArg (sizeof + ·) (minSizeInBytes_eq ts)
  | .dynamic min _ :: ts => congrArg (min + ·) (minSizeInBytes_eq ts)
  | .vector sizeof min _ :: ts => by
    rw [minSizeInBytes, minSizeInBytes_eq ts, BoundedField.minBytes, UInt64.mul_comm]
    rfl

theorem maxSizeInBytes_eq : ∀ ts : List BoundedField,
    maxSizeInBytes ts = accumSize (fields ts) (argsOf BoundedField.max ts)
  | [] => rfl
  | .static sizeof :: ts => congrArg (sizeof + ·) (maxSizeInBytes_eq ts)
  | .dynamic _ max :: ts => congrArg (max + ·) (maxSizeInBytes_eq ts)
  | .vector sizeof _ max :: ts => by
    rw [maxSizeInBytes, maxSizeInBytes_eq ts, BoundedField.maxBytes, UInt64.mul_comm]
    rfl

/-- The exact sum of what the fields have at most. -/
def maxSum (ts : List BoundedField) : Nat := (bytes (fields ts) (argsOf BoundedField.max ts)).sum

def minSum (ts : List BoundedField) : Nat := (bytes (fields ts) (argsOf BoundedField.min ts)).sum

theorem isValid_cons {t : BoundedField} {ts : List BoundedField} {size : UInt64} {args : List UInt64} :
    isValid (t :: ts) (size :: args) = true ↔ (t.min ≤ size ∧ size ≤ t.max) ∧ isValid ts args = true := by
  simp [isValid]

theorem validSizes_dynamic {min max size : UInt64} {ts : List BoundedField} {args : Args (fields ts)} :
    validSizes (.dynamic min max :: ts) (size, args) = true ↔
      (min ≤ size ∧ size ≤ max) ∧ validSizes ts args = true := isValid_cons

theorem validSizes_vector {sizeof min max size : UInt64} {ts : List BoundedField} {args : Args (fields ts)} :
    validSizes (.vector sizeof min max :: ts) (size, args) = true ↔
      (min ≤ size ∧ size ≤ max) ∧ validSizes ts args = true := isValid_cons

theorem sum_between : ∀ (ts : List BoundedField) (args : Args (fields ts)), validSizes ts args = true →
    minSum ts ≤ (bytes (fields ts) args).sum ∧ (bytes (fields ts) args).sum ≤ maxSum ts
  | [], _, _ => ⟨Nat.le_refl _, Nat.le_refl _⟩
  | .static sizeof :: ts, args, h => by
    obtain ⟨hmin, hmax⟩ := sum_between ts args h
    exact ⟨Nat.add_le_add_left hmin _, Nat.add_le_add_left hmax _⟩
  | .dynamic min max :: ts, (size, args), h => by
    obtain ⟨⟨hlo, hhi⟩, h⟩ := validSizes_dynamic.mp h
    obtain ⟨hmin, hmax⟩ := sum_between ts args h
    exact ⟨Nat.add_le_add (UInt64.le_iff_toNat_le.mp hlo) hmin,
      Nat.add_le_add (UInt64.le_iff_toNat_le.mp hhi) hmax⟩
  | .vector sizeof min max :: ts, (size, args), h => by
    obtain ⟨⟨hlo, hhi⟩, h⟩ := validSizes_vector.mp h
    obtain ⟨hmin, hmax⟩ := sum_between ts args h
    exact ⟨Nat.add_le_add (Nat.mul_le_mul_left _ (UInt64.le_iff_toNat_le.mp hlo)) hmin,
      Nat.add_le_add (Nat.mul_le_mul_left _ (UInt64.le_iff_toNat_le.mp hhi)) hmax⟩

/-- No sizes are valid where the bounds of a field exclude each other. -/
def Unsatisfiable (ts : List BoundedField) : Prop := ∃ t ∈ ts, t.isStatic = false ∧ t.max < t.min

theorem isValid_between : ∀ {ts : List BoundedField} {args : List UInt64}, isValid ts args = true →
    ∀ t ∈ ts, t.min ≤ t.max
  | [], _, _ => fun _ ht => absurd ht List.not_mem_nil
  | t :: ts, size :: args, h => by
    obtain ⟨⟨hlo, hhi⟩, h⟩ := isValid_cons.mp h
    exact List.forall_mem_cons.mpr ⟨UInt64.le_trans hlo hhi, isValid_between h⟩

theorem not_unsatisfiable {ts : List BoundedField} {args : Args (fields ts)}
    (h : validSizes ts args = true) : ¬Unsatisfiable ts := by
  rintro ⟨t, ht, hstatic, hlt⟩
  have hmem : t ∈ ts.filter fun t => !t.isStatic := List.mem_filter.mpr ⟨ht, by simp [hstatic]⟩
  exact UInt64.not_le.mpr hlt (isValid_between h t hmem)

theorem not_unsatisfiable_tail {t : BoundedField} {ts : List BoundedField} (h : ¬Unsatisfiable (t :: ts)) :
    ¬Unsatisfiable ts := by
  rintro ⟨u, hu, hbounds⟩
  exact h ⟨u, List.mem_cons_of_mem t hu, hbounds⟩

/-- Where some sizes are valid, the largest ones are. -/
theorem validSizes_max : ∀ (ts : List BoundedField), ¬Unsatisfiable ts →
    validSizes ts (argsOf BoundedField.max ts) = true
  | [], _ => rfl
  | .static _ :: ts, h => validSizes_max ts (not_unsatisfiable_tail h)
  | .dynamic min max :: ts, h => by
    have hle : min ≤ max := UInt64.not_lt.mp fun hlt => h ⟨_, List.mem_cons_self, rfl, hlt⟩
    exact validSizes_dynamic.mpr ⟨⟨hle, UInt64.le_refl max⟩, validSizes_max ts (not_unsatisfiable_tail h)⟩
  | .vector sizeof min max :: ts, h => by
    have hle : min ≤ max := UInt64.not_lt.mp fun hlt => h ⟨_, List.mem_cons_self, rfl, hlt⟩
    exact validSizes_vector.mpr ⟨⟨hle, UInt64.le_refl max⟩, validSizes_max ts (not_unsatisfiable_tail h)⟩

/-! ## The structure -/

/-- The sizes are computed without overflow, the total is within its bounds,
and the fields of an object are inside of the block it has allocated. -/
structure Exact (ts : List BoundedField) (args : Args (fields ts)) : Prop where
  representable : (bytes (fields ts) args).sum < 2 ^ 64
  sizeInBytes : (sizeInBytes (fields ts) args).toNat = (bytes (fields ts) args).sum
  atLeast : (minSizeInBytes ts).toNat ≤ (bytes (fields ts) args).sum
  atMost : (bytes (fields ts) args).sum ≤ (maxSizeInBytes ts).toNat
  inside : ∀ block s, DynamicPackedStruct.new ts args block = .next s →
    ∀ i < ts.length, (s.field args i).isSome

theorem new_eq_next {ts : List BoundedField} {args : Args (fields ts)} {block : List UInt8}
    {s : DynamicPackedStruct (fields ts)} (h : DynamicPackedStruct.new ts args block = .next s) :
    block.length = (accumSize (fields ts) args).toNat ∧ s = ⟨some block, .new args⟩ := by
  simp only [DynamicPackedStruct.new, bind_eq_next, asserting_eq_next, requiring_eq_next, pure_eq,
    Outcome.next.injEq] at h
  obtain ⟨-, -, -, hlen, rfl⟩ := h
  exact ⟨hlen, rfl⟩

theorem isSome_field {ts : List Field} {args : Args ts} {block : List UInt8} {i : Nat}
    (hlen : block.length = (accumSize ts args).toNat) :
    (DynamicPackedStruct.field ⟨some block, .new args⟩ args i).isSome ↔
      ((AccumArrayType.new args).elemOffset i).toNat + fieldBytes args i ≤ (accumSize ts args).toNat := by
  rw [← hlen]
  unfold DynamicPackedStruct.field
  rw [Option.bind_some]
  split
  next h => exact iff_of_true rfl h
  next h => exact iff_of_false Bool.false_ne_true h

theorem exact_iff {ts : List BoundedField} {args : Args (fields ts)} (h : validSizes ts args = true) :
    Exact ts args ↔
      (bytes (fields ts) args).sum < 2 ^ 64 ∧ (bytes (fields ts) args).sum ≤ maxSum ts % 2 ^ 64 := by
  have hmax : (maxSizeInBytes ts).toNat = maxSum ts % 2 ^ 64 := by
    rw [maxSizeInBytes_eq, toNat_accumSize_mod, maxSum]
  constructor
  · intro he
    exact ⟨he.representable, hmax ▸ he.atMost⟩
  · rintro ⟨hfits, hle⟩
    refine ⟨hfits, toNat_accumSize _ _ hfits, ?_, hmax ▸ hle, fun block s hs i hi => ?_⟩
    · rw [minSizeInBytes_eq, toNat_accumSize_mod]
      exact (Nat.mod_le _ _).trans (sum_between ts args h).1
    · obtain ⟨hlen, rfl⟩ := new_eq_next hs
      have hi : i < (fields ts).length := by rwa [fields, List.length_map]
      exact (isSome_field hlen).mpr ((fields_inside_iff args).mpr hfits i hi)

/-- **The sizes of all fields are exact where the largest ones can be added
up**, and for these only: in other lists of fields the largest valid sizes are
among those that fail. -/
theorem exact_iff_fits (ts : List BoundedField) :
    (∀ args, validSizes ts args = true → (Exact ts args ↔
      (bytes (fields ts) args).sum < 2 ^ 64 ∧ (bytes (fields ts) args).sum ≤ maxSum ts % 2 ^ 64)) ∧
    ((∀ args, validSizes ts args = true → Exact ts args) ↔ maxSum ts < 2 ^ 64 ∨ Unsatisfiable ts) := by
  refine ⟨fun args => exact_iff, fun h => ?_, fun h args hargs => ?_⟩
  · by_cases he : Unsatisfiable ts
    · exact .inr he
    · exact .inl (h _ (validSizes_max ts he)).representable
  · rcases h with h | h
    · have hle := (sum_between ts args hargs).2
      rw [exact_iff hargs, Nat.mod_eq_of_lt h]
      exact ⟨Nat.lt_of_le_of_lt hle h, hle⟩
    · exact absurd h (not_unsatisfiable hargs)

/-- `DynamicPackedStruct<std::uint32_t, DynamicFieldPlaceholder<> >` -/
def defaultBounds : List BoundedField := [.static 4, .dynamic 0 0xffffffffffffffff]

/-- With 10 bytes it has more than the 3 that it has at most; and with all but 4
of the bytes that there can be, it is of no size, and has no block for its fields. -/
theorem exact_fails :
    (validSizes defaultBounds (10, ()) = true ∧ ¬Exact defaultBounds (10, ())) ∧
    validSizes defaultBounds (0xfffffffffffffffc, ()) = true ∧
      (bytes (fields defaultBounds) (0xfffffffffffffffc, ())).sum = 2 ^ 64 ∧
      ∃ s, DynamicPackedStruct.new defaultBounds (0xfffffffffffffffc, ()) [] = .next s ∧
        s.field (0xfffffffffffffffc, ()) 0 = none := by
  refine ⟨⟨rfl, fun h => ?_⟩, rfl, rfl, _, rfl, rfl⟩
  have hle := h.atMost
  revert hle
  decide

end DynamicPackingInfo
