/-
An array read as a ring: after its last cell comes its first. `slice` is what
a stretch of the ring holds; stretches that do not overlap are independent
(`slice_put_other`), whichever of them runs over the end of the array.
-/
import Mathlib.Data.List.Basic
import Mathlib.Data.Nat.ModEq
import Mathlib.Tactic.Basic

namespace Ring

variable {α : Type*} {size : Nat}

/-- What the `len` cells from `start` on hold. -/
def slice (size : Nat) (mem : Nat → α) (start len : Nat) : List α :=
  (List.range len).map fun i => mem ((start + i) % size)

/-- Stores `xs` in the cells from `start` on. -/
def put (size : Nat) (mem : Nat → α) (start : Nat) : List α → Nat → α
  | [] => mem
  | x :: xs => put size (Function.update mem (start % size) x) (start + 1) xs

@[simp] theorem slice_length (mem : Nat → α) (start len : Nat) :
    (slice size mem start len).length = len := by simp [slice]

@[simp] theorem slice_zero (mem : Nat → α) (start : Nat) : slice size mem start 0 = [] := rfl

theorem slice_add (mem : Nat → α) (start m n : Nat) :
    slice size mem start (m + n) = slice size mem start m ++ slice size mem (start + m) n := by
  simp only [slice, List.range_add, List.map_append, List.map_map]
  congr 1
  exact List.map_congr_left fun i _ => by simp [Nat.add_assoc]

theorem slice_succ (mem : Nat → α) (start n : Nat) :
    slice size mem start (n + 1) = mem (start % size) :: slice size mem (start + 1) n := by
  rw [Nat.add_comm, slice_add]
  simp [slice]

theorem slice_mod (mem : Nat → α) (start len : Nat) :
    slice size mem (start % size) len = slice size mem start len := by
  simp [slice]

/-- Two starts at one cell. -/
theorem slice_congr_start (mem : Nat → α) {s t : Nat} (h : s % size = t % size) (len : Nat) :
    slice size mem s len = slice size mem t len := by
  rw [← slice_mod, h, slice_mod]

theorem slice_congr {mem mem' : Nat → α} {start len : Nat}
    (h : ∀ i < len, mem ((start + i) % size) = mem' ((start + i) % size)) :
    slice size mem start len = slice size mem' start len :=
  List.map_congr_left fun i hi => h i (List.mem_range.mp hi)

theorem slice_take (mem : Nat → α) (start : Nat) {m n : Nat} (h : m ≤ n) :
    (slice size mem start n).take m = slice size mem start m := by
  obtain ⟨k, rfl⟩ := Nat.exists_eq_add_of_le h
  rw [slice_add, List.take_left' (slice_length _ _ _)]

/-- Within one turn of the ring no cell is met twice. -/
theorem index_inj {s i j : Nat} (hi : i < size) (hj : j < size)
    (h : (s + i) % size = (s + j) % size) : i = j := by
  have : i % size = j % size := Nat.ModEq.add_left_cancel' s h
  rwa [Nat.mod_eq_of_lt hi, Nat.mod_eq_of_lt hj] at this

theorem put_other (mem : Nat → α) (start : Nat) (xs : List α) {c : Nat}
    (h : ∀ i < xs.length, c ≠ (start + i) % size) : put size mem start xs c = mem c := by
  induction xs generalizing mem start with
  | nil => rfl
  | cons x xs ih =>
    rw [put, ih]
    · exact Function.update_of_ne (by simpa using h 0 (by simp)) _ _
    · intro i hi
      have := h (i + 1) (by simpa using hi)
      rwa [Nat.add_assoc, Nat.add_comm 1 i]

theorem slice_put (mem : Nat → α) (start : Nat) (xs : List α) (h : xs.length ≤ size) :
    slice size (put size mem start xs) start xs.length = xs := by
  induction xs generalizing mem start with
  | nil => rfl
  | cons x xs ih =>
    rw [List.length_cons, slice_succ, put, ih _ _ (by simp at h; omega), put_other]
    · simp
    · intro i hi heq
      have hlen : xs.length + 1 ≤ size := by simpa using h
      have := index_inj (s := start) (i := 0) (j := i + 1) (by omega) (by omega)
        (heq.trans (by rw [Nat.add_assoc, Nat.add_comm 1]))
      omega

/-- Storing behind a stretch leaves it alone as long as the two fit in the ring. -/
theorem slice_put_other (mem : Nat → α) {start len pos : Nat} (xs : List α)
    (hpos : pos % size = (start + len) % size) (hfit : len + xs.length ≤ size) :
    slice size (put size mem pos xs) start len = slice size mem start len := by
  refine slice_congr fun i hi => put_other _ _ _ fun j hj heq => ?_
  have hmod : (pos + j) % size = (start + (len + j)) % size := by
    rw [Nat.add_mod, hpos, ← Nat.add_mod, Nat.add_assoc]
  have := index_inj (by omega) (by omega) (heq.trans hmod)
  omega

/-! ## Stretches that end before the array does -/

/-- `copy` into the array. -/
def store (mem : Nat → α) (start : Nat) : List α → Nat → α
  | [] => mem
  | x :: xs => store (Function.update mem start x) (start + 1) xs

/-- `copy` out of the array. -/
def load (mem : Nat → α) (start len : Nat) : List α :=
  (List.range len).map fun i => mem (start + i)

theorem store_eq_put (mem : Nat → α) {start : Nat} (xs : List α) (h : start + xs.length ≤ size) :
    store mem start xs = put size mem start xs := by
  induction xs generalizing mem start with
  | nil => rfl
  | cons x xs ih =>
    rw [List.length_cons] at h
    rw [store, put, Nat.mod_eq_of_lt (by omega), ih _ (by omega)]

theorem load_eq_slice (mem : Nat → α) {start len : Nat} (h : start + len ≤ size) :
    load mem start len = slice size mem start len := by
  refine List.map_congr_left fun i hi => ?_
  rw [Nat.mod_eq_of_lt]
  have := List.mem_range.mp hi
  omega

end Ring
