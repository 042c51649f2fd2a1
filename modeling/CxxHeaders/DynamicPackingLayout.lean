/-
Where the fields of a packed structure are: one behind the other, in order,
whatever mixture of static and dynamic ones they are (`layout`).

The three recursions over the fields are related before anything is said of
overflow: in `UInt64`, an offset is the `accumSize` of the fields in front
(`elemOffset_eq`), and the size that of all of them.
-/
import CxxHeaders.DynamicPackingInfo

namespace DynamicPackingInfo

/-- How many bytes each field has. -/
def bytes : (ts : List Field) → Args ts → List Nat
  | [], _ => []
  | .dynamic :: ts, (size, args) => size.toNat :: bytes ts args
  | .vector sizeof :: ts, (size, args) => sizeof.toNat * size.toNat :: bytes ts args
  | .static sizeof :: ts, args => sizeof.toNat :: bytes ts args

/-- The sizes of the first fields. -/
def Args.take : (i : Nat) → (ts : List Field) → Args ts → Args (templatePrefixTypes i ts)
  | 0, _, _ => ()
  | _ + 1, [], _ => ()
  | i + 1, .static _ :: ts, args => Args.take i ts args
  | i + 1, .dynamic :: ts, (size, args) => (size, Args.take i ts args)
  | i + 1, .vector _ :: ts, (size, args) => (size, Args.take i ts args)

@[simp] theorem numDynamicFields_static (sizeof : UInt64) (ts : List Field) :
    numDynamicFields (.static sizeof :: ts) = numDynamicFields ts := rfl
@[simp] theorem numDynamicFields_dynamic (ts : List Field) :
    numDynamicFields (.dynamic :: ts) = numDynamicFields ts + 1 := rfl
@[simp] theorem numDynamicFields_vector (sizeof : UInt64) (ts : List Field) :
    numDynamicFields (.vector sizeof :: ts) = numDynamicFields ts + 1 := rfl

theorem length_bytes : ∀ (ts : List Field) (args : Args ts), (bytes ts args).length = ts.length
  | [], _ => rfl
  | .static _ :: ts, args => congrArg (· + 1) (length_bytes ts args)
  | .dynamic :: ts, (_, args) => congrArg (· + 1) (length_bytes ts args)
  | .vector _ :: ts, (_, args) => congrArg (· + 1) (length_bytes ts args)

theorem bytes_take : ∀ (i : Nat) (ts : List Field) (args : Args ts),
    bytes (templatePrefixTypes i ts) (args.take i ts) = (bytes ts args).take i
  | 0, _, _ => rfl
  | _ + 1, [], _ => rfl
  | i + 1, .static _ :: ts, args => congrArg (_ :: ·) (bytes_take i ts args)
  | i + 1, .dynamic :: ts, (_, args) => congrArg (_ :: ·) (bytes_take i ts args)
  | i + 1, .vector _ :: ts, (_, args) => congrArg (_ :: ·) (bytes_take i ts args)

/-- A prefix of the fields has a prefix of the numbers. -/
theorem populate_take : ∀ (i : Nat) (ts : List Field) (accum : UInt64) (args : Args ts),
    populate (templatePrefixTypes i ts) accum (args.take i ts) =
      (populate ts accum args).take (numDynamicFields (templatePrefixTypes i ts))
  | 0, _, _, _ => rfl
  | _ + 1, [], _, _ => rfl
  | i + 1, .static _ :: ts, _, args => populate_take i ts _ args
  | i + 1, .dynamic :: ts, _, (_, args) => congrArg (_ :: ·) (populate_take i ts _ args)
  | i + 1, .vector _ :: ts, _, (_, args) => congrArg (_ :: ·) (populate_take i ts _ args)

/-! ## Offsets are sums -/

theorem sizeOfTypes_eq : ∀ (ts : List Field) (args : Args ts), numDynamicFields ts = 0 →
    sizeOfTypes ts = accumSize ts args
  | [], _, _ => rfl
  | .static sizeof :: ts, args, h => congrArg (sizeof + ·) (sizeOfTypes_eq ts args h)

/-- A dynamic field up to which there are `accum` bytes: it is the last one, or
the fields behind it have the last number. -/
theorem staticTailSize_cons {t : Field} {ts : List Field} (accum : UInt64) (args : Args ts)
    (ih : 0 < numDynamicFields ts →
      staticTailSize ts + (populate ts accum args).getD (numDynamicFields ts - 1) 0 =
        accum + accumSize ts args) :
    staticTailSize (t :: ts) + (accum :: populate ts accum args).getD (numDynamicFields ts) 0 =
      accum + accumSize ts args := by
  unfold staticTailSize
  split
  next hzero =>
    have hzero : numDynamicFields ts = 0 := Nat.le_zero.mp hzero
    rw [hzero, sizeOfTypes_eq ts args hzero, UInt64.add_comm]
    rfl
  next hpos =>
    obtain ⟨n, hn⟩ := Nat.exists_eq_succ_of_ne_zero (fun he => hpos (Nat.le_of_eq he))
    rw [← ih (Nat.lt_of_not_le hpos), hn]
    rfl

/-- The last number, and the static fields behind the last dynamic one. -/
theorem staticTailSize_add : ∀ (ts : List Field) (accum : UInt64) (args : Args ts),
    0 < numDynamicFields ts →
    staticTailSize ts + (populate ts accum args).getD (numDynamicFields ts - 1) 0 =
      accum + accumSize ts args
  | .static sizeof :: ts, accum, args, h => by
    have hpos : ¬numDynamicFields ts ≤ 0 := Nat.not_le.mpr h
    have ih := staticTailSize_add ts (accum + sizeof) args h
    simp only [staticTailSize, if_neg hpos, populate, accumSize, numDynamicFields_static]
    rw [ih, UInt64.add_assoc]
  | .dynamic :: ts, accum, (size, args), _ => by
    have ih := staticTailSize_cons (t := .dynamic) (accum + size) args (staticTailSize_add ts _ args)
    rw [UInt64.add_assoc] at ih
    exact ih
  | .vector sizeof :: ts, accum, (size, args), _ => by
    have ih := staticTailSize_cons (t := .vector sizeof) (accum + sizeof * size) args
      (staticTailSize_add ts _ args)
    rw [UInt64.add_assoc] at ih
    exact ih

variable {ts : List Field}

theorem structSizeInBytes_eq (args : Args ts) (h : 0 < numDynamicFields ts) :
    (AccumArrayType.new args).structSizeInBytes = accumSize ts args := by
  have hadd := staticTailSize_add ts 0 args h
  rw [UInt64.zero_add] at hadd
  exact hadd

/-- The fields in front of the offset are all static, or it is counted from the
end of the last dynamic one of them. -/
theorem elemOffset_eq (args : Args ts) (i : Nat) :
    (AccumArrayType.new args).elemOffset i = accumSize (templatePrefixTypes i ts) (args.take i ts) := by
  unfold AccumArrayType.elemOffset
  split
  next h =>
    have hadd := staticTailSize_add _ 0 (args.take i ts) h
    rw [UInt64.zero_add, populate_take, UInt64.add_comm] at hadd
    have hlast : ((populate ts 0 args).take (numDynamicFields (templatePrefixTypes i ts))).getD
        (numDynamicFields (templatePrefixTypes i ts) - 1) 0 =
          (populate ts 0 args).getD (numDynamicFields (templatePrefixTypes i ts) - 1) 0 := by
      rw [List.getD_eq_getElem?_getD, List.getElem?_take_of_lt (Nat.sub_lt h Nat.one_pos),
        List.getD_eq_getElem?_getD]
    rw [hlast] at hadd
    exact hadd
  next h => exact sizeOfTypes_eq _ _ (Nat.le_zero.mp (Nat.le_of_not_lt h))

/-! ## No overflow -/

theorem toNat_accumSize : ∀ (ts : List Field) (args : Args ts), (bytes ts args).sum < 2 ^ 64 →
    (accumSize ts args).toNat = (bytes ts args).sum
  | [], _, _ => rfl
  | .static sizeof :: ts, args, h => by
    simp only [bytes, List.sum_cons] at h ⊢
    rw [accumSize, UInt64.toNat_add, toNat_accumSize ts args (by omega), Nat.mod_eq_of_lt h]
  | .dynamic :: ts, (size, args), h => by
    simp only [bytes, List.sum_cons] at h ⊢
    rw [accumSize, UInt64.toNat_add, toNat_accumSize ts args (by omega), Nat.mod_eq_of_lt h]
  | .vector sizeof :: ts, (size, args), h => by
    simp only [bytes, List.sum_cons] at h ⊢
    rw [accumSize, UInt64.toNat_add, UInt64.toNat_mul, toNat_accumSize ts args (by omega),
      Nat.mod_eq_of_lt (a := sizeof.toNat * size.toNat) (by omega), Nat.mod_eq_of_lt h]

theorem toNat_elemOffset (args : Args ts) (h : (bytes ts args).sum < 2 ^ 64) (i : Nat) :
    ((AccumArrayType.new args).elemOffset i).toNat = Layout.start (bytes ts args) i := by
  have hle : Layout.start (bytes ts args) i ≤ (bytes ts args).sum := Layout.start_le_sum i
  rw [elemOffset_eq, toNat_accumSize, bytes_take]
  · rfl
  · rw [bytes_take]
    exact Nat.lt_of_le_of_lt hle h

theorem bytes_static : ∀ (ts : List Field) (args : Args ts) (i : Fin ts.length) (sizeof : UInt64),
    ts.get i = .static sizeof → (bytes ts args).getD i 0 = sizeof.toNat
  | .static _ :: _, _, ⟨0, _⟩, _, h => by
    cases h
    rfl
  | .static _ :: ts, args, ⟨i + 1, hi⟩, _, h => bytes_static ts args ⟨i, Nat.lt_of_succ_lt_succ hi⟩ _ h
  | .dynamic :: ts, (_, args), ⟨i + 1, hi⟩, _, h => bytes_static ts args ⟨i, Nat.lt_of_succ_lt_succ hi⟩ _ h
  | .vector _ :: ts, (_, args), ⟨i + 1, hi⟩, _, h => bytes_static ts args ⟨i, Nat.lt_of_succ_lt_succ hi⟩ _ h

/-! ## The layout -/

def fieldBytes (args : Args ts) (i : Nat) : Nat := (bytes ts args).getD i 0

/-- The address is one of the field's. -/
def InField (args : Args ts) (data i a : Nat) : Prop :=
  (AccumArrayType.new args).voidPtr i data ≤ a ∧
    a < (AccumArrayType.new args).voidPtr i data + fieldBytes args i

theorem fieldBytes_eq (args : Args ts) {i : Nat} (hi : i < (bytes ts args).length) :
    fieldBytes args i = (bytes ts args)[i] := by
  rw [fieldBytes, List.getD_eq_getElem?_getD, List.getElem?_eq_getElem hi, Option.getD_some]

theorem end_le_start (args : Args ts) (h : (bytes ts args).sum < 2 ^ 64) {i j : Nat} (hi : i < ts.length)
    (hij : i < j) (data : Nat) :
    (AccumArrayType.new args).voidPtr i data + fieldBytes args i ≤ (AccumArrayType.new args).voidPtr j data := by
  have hi : i < (bytes ts args).length := by rwa [length_bytes]
  have hle := Layout.end_le_start hi hij
  unfold AccumArrayType.voidPtr
  rw [toNat_elemOffset args h, toNat_elemOffset args h, fieldBytes_eq args hi]
  omega

theorem inField_unique (args : Args ts) (h : (bytes ts args).sum < 2 ^ 64) {data i j a : Nat}
    (hi : i < ts.length) (hj : j < ts.length) (hia : InField args data i a) (hja : InField args data j a) :
    i = j := by
  obtain ⟨hia, hia'⟩ := hia
  obtain ⟨hja, hja'⟩ := hja
  rcases Nat.lt_trichotomy i j with hij | hij | hij
  · have hle := end_le_start args h hi hij data
    omega
  · exact hij
  · have hle := end_le_start args h hj hij data
    omega

theorem get_set (args : Args ts) {i : Fin ts.length} {sizeof : UInt64} (hi : ts.get i = .static sizeof)
    (mem : Nat → UInt8) (data : Nat) {v : List UInt8} (hv : v.length = sizeof.toNat) :
    (AccumArrayType.new args).get i ((AccumArrayType.new args).set i mem data v) data = v := by
  unfold AccumArrayType.get AccumArrayType.set
  rw [hi]
  show Layout.load (Layout.store mem _ (v.take sizeof.toNat)) _ sizeof.toNat = v
  rw [← hv, List.take_length]
  exact Layout.load_store mem _ v

theorem set_other (args : Args ts) (h : (bytes ts args).sum < 2 ^ 64) {i : Fin ts.length} {sizeof : UInt64}
    (hi : ts.get i = .static sizeof) (mem : Nat → UInt8) (data : Nat) {v : List UInt8}
    (hv : v.length = sizeof.toNat) {j : Nat} (hj : j < ts.length) (hne : j ≠ i) :
    Layout.load ((AccumArrayType.new args).set i mem data v) ((AccumArrayType.new args).voidPtr j data)
        (fieldBytes args j) =
      Layout.load mem ((AccumArrayType.new args).voidPtr j data) (fieldBytes args j) := by
  have hbytes : fieldBytes args i = v.length := (bytes_static ts args i sizeof hi).trans hv.symm
  unfold AccumArrayType.set
  rw [hi]
  refine Layout.load_store_of_disjoint ?_
  have htake : (v.take (Field.static sizeof).sizeof.toNat).length = v.length := by
    rw [show (Field.static sizeof).sizeof.toNat = v.length from hv.symm, List.take_length]
  rw [htake, ← hbytes]
  rcases Nat.lt_or_gt_of_ne hne with hlt | hgt
  · exact .inl (end_le_start args h hj hlt data)
  · exact .inr (end_le_start args h i.isLt hgt data)

/-- **The fields are laid out one behind the other.** Each offset is the former
one and the bytes of the field between; the three ways to compute the size
agree, and give the sum of all bytes; no two fields overlap, and all are inside
of the structure; and what is set is what is got, with the other fields left as
they were. -/
theorem layout (args : Args ts) (hdynamic : 0 < numDynamicFields ts)
    (hsize : (bytes ts args).sum < 2 ^ 64) (data : Nat) :
    ((AccumArrayType.new args).elemOffset 0 = 0 ∧
      ∀ i < ts.length, ((AccumArrayType.new args).elemOffset (i + 1)).toNat =
        ((AccumArrayType.new args).elemOffset i).toNat + fieldBytes args i) ∧
    ((AccumArrayType.new args).structSizeInBytes.toNat = (bytes ts args).sum ∧
      sizeFromAccum (AccumArrayType.new args) = (AccumArrayType.new args).structSizeInBytes ∧
      sizeInBytes ts args = (AccumArrayType.new args).structSizeInBytes) ∧
    (∀ i < ts.length, ∀ j < ts.length, ∀ a, InField args data i a → InField args data j a → i = j) ∧
    (∀ i < ts.length, ∀ a, InField args data i a →
      data ≤ a ∧ a < data + (AccumArrayType.new args).structSizeInBytes.toNat) ∧
    ∀ i sizeof, ts.get i = .static sizeof → ∀ mem v, v.length = sizeof.toNat →
      (AccumArrayType.new args).get i ((AccumArrayType.new args).set i mem data v) data = v ∧
      ∀ j < ts.length, j ≠ i →
        Layout.load ((AccumArrayType.new args).set i mem data v)
            ((AccumArrayType.new args).voidPtr j data) (fieldBytes args j) =
          Layout.load mem ((AccumArrayType.new args).voidPtr j data) (fieldBytes args j) := by
  have hstruct := structSizeInBytes_eq args hdynamic
  have htotal : (AccumArrayType.new args).structSizeInBytes.toNat = (bytes ts args).sum := by
    rw [hstruct, toNat_accumSize ts args hsize]
  refine ⟨⟨?_, fun i hi => ?_⟩, ⟨htotal, rfl, hstruct.symm⟩,
    fun i hi j hj a => inField_unique args hsize hi hj, fun i hi a ha => ?_, fun i sizeof hi mem v hv =>
    ⟨get_set args hi mem data hv, fun j hj hne => set_other args hsize hi mem data hv hj hne⟩⟩
  · rw [elemOffset_eq]
    rfl
  · have hlen : i < (bytes ts args).length := by rwa [length_bytes]
    rw [toNat_elemOffset args hsize, toNat_elemOffset args hsize, fieldBytes_eq args hlen]
    exact Layout.start_succ hlen
  · have hlen : i < (bytes ts args).length := by rwa [length_bytes]
    obtain ⟨hle, hlt⟩ := ha
    have hend := Layout.end_le_sum hlen
    unfold AccumArrayType.voidPtr at hle hlt
    rw [toNat_elemOffset args hsize] at hle hlt
    rw [fieldBytes_eq args hlen] at hlt
    omega

/-- `DynamicPackedStruct<int64_t, char, R, char, A<int32_t>, uint16_t> m(3u, 10u)` -/
def someFields : List Field := [.static 8, .static 1, .dynamic, .static 1, .vector 4, .static 2]

def someArgs : Args someFields := (3, 10, ())

theorem layout_someFields : (AccumArrayType.new someArgs).structSizeInBytes.toNat = 55 :=
  (layout someArgs (by decide) (by decide) 0).2.1.1

end DynamicPackingInfo
