/-
What the system call `read` returns, one call after another: the number of
bytes, or -1 and the reason.
-/
import Mathlib.Algebra.Order.Group.Nat
import Mathlib.Algebra.Ring.Int.Defs

/-- `errno`. -/
inductive Errno where
  | eintr
  | eagain
  | other (code : Nat)
  deriving DecidableEq, Repr

/-- A `ssize_t` that is taken for a `std::size_t`. -/
def toSize (n : Int) : Nat := (n % 2 ^ 64).toNat

theorem toSize_natCast {n : Nat} (h : n < 2 ^ 64) : toSize n = n := by
  unfold toSize
  omega

/-- An error is taken for the largest size there is. -/
theorem toSize_neg_one : toSize (-1) = 2 ^ 64 - 1 := rfl

theorem not_toSize_neg_one_le {n : Nat} (h : n < 2 ^ 63) : ¬toSize (-1) ≤ n := by
  rw [toSize_neg_one]
  omega

/-- Calls after the first one. -/
def laterCalls {α : Type} (calls : Nat → α) (k : Nat) : α := calls (k + 1)
