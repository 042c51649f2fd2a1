/-
Blocks of memory one behind the other: `start sizes i` is where block `i`
begins. What is stored into one block leaves the others alone.
-/
import Mathlib.Algebra.BigOperators.Group.List.Basic
import Mathlib.Algebra.Ring.Nat
import Mathlib.Tactic.Basic

namespace Layout

variable {α : Type*} {sizes : List Nat}

def start (sizes : List Nat) (i : Nat) : Nat := (sizes.take i).sum

theorem start_succ {i : Nat} (h : i < sizes.length) : start sizes (i + 1) = start sizes i + sizes[i] := by
  unfold start
  rw [List.take_add_one, List.sum_append, List.getElem?_eq_getElem h]
  simp

theorem start_mono {i j : Nat} (h : i ≤ j) : start sizes i ≤ start sizes j := by
  obtain ⟨k, rfl⟩ := Nat.exists_eq_add_of_le h
  unfold start
  rw [List.take_add, List.sum_append]
  exact Nat.le_add_right _ _

theorem start_le_sum (i : Nat) : start sizes i ≤ sizes.sum :=
  (Nat.le_add_right _ _).trans_eq (List.sum_take_add_sum_drop sizes i)

/-- A block ends before the next ones begin. -/
theorem end_le_start {i j : Nat} (hi : i < sizes.length) (h : i < j) :
    start sizes i + sizes[i] ≤ start sizes j := by
  rw [← start_succ hi]
  exact start_mono h

theorem end_le_sum {i : Nat} (hi : i < sizes.length) : start sizes i + sizes[i] ≤ sizes.sum := by
  rw [← start_succ hi]
  exact start_le_sum (i + 1)

/-! ## Memory -/

/-- The `n` cells from `p` on. -/
def load (mem : Nat → α) (p n : Nat) : List α := (List.range n).map fun k => mem (p + k)

/-- The memory with `v` in the cells from `p` on. -/
def store (mem : Nat → α) (p : Nat) (v : List α) (a : Nat) : α :=
  if p ≤ a then v.getD (a - p) (mem a) else mem a

theorem load_store (mem : Nat → α) (p : Nat) (v : List α) : load (store mem p v) p v.length = v := by
  refine List.ext_getElem (by simp [load]) fun k hk hk' => ?_
  simp [load, store, hk']

theorem store_of_outside {mem : Nat → α} {p a : Nat} {v : List α} (h : a < p ∨ p + v.length ≤ a) :
    store mem p v a = mem a := by
  unfold store
  split
  next hle => simp [show v.length ≤ a - p by omega]
  next => rfl

theorem load_store_of_disjoint {mem : Nat → α} {p q n : Nat} {v : List α}
    (h : q + n ≤ p ∨ p + v.length ≤ q) : load (store mem p v) q n = load mem q n := by
  refine List.map_congr_left fun k hk => store_of_outside ?_
  have hk := List.mem_range.mp hk
  omega

end Layout
