/-
`IntegralComparisons.h`: comparisons of integers whose types may differ, and of
which one may be signed and the other one not. An integer is its value, and
whether its type is signed: that is what the templates choose by.
-/
import Mathlib.Tactic.Basic

/-- An integer of a signed type, or of an unsigned one. -/
inductive Integral where
  | signed (s : Int)
  | unsigned (u : Nat)
  deriving DecidableEq

namespace Integral

def value : Integral → Int
  | signed s => s
  | unsigned u => u

/-- `signedToUnsigned`, of a number that is not negative. -/
def signedToUnsigned (s : Int) : Nat := s.toNat

/-- `C<A, B>::test` for `op`, and what it is for a negative number on the left or
on the right of an unsigned one. -/
def test (op : Int → Int → Bool) (suNegResult usNegResult : Bool) : Integral → Integral → Bool
  | signed a, signed b => op a b
  | unsigned a, unsigned b => op a b
  | signed s, unsigned u => if s < 0 then suNegResult else op (signedToUnsigned s) u
  | unsigned u, signed s => if s < 0 then usNegResult else op u (signedToUnsigned s)

def notEqual : Integral → Integral → Bool := test (· != ·) true true

def greaterEqual : Integral → Integral → Bool := test (fun a b => decide (a ≥ b)) false true

def isPositive : Integral → Bool
  | signed s => decide (s > 0)
  | unsigned u => decide (u > 0)

def isNonPositive : Integral → Bool
  | signed s => decide (s ≤ 0)
  | unsigned u => decide (u ≤ 0)

def isZero : Integral → Bool
  | signed s => s == 0
  | unsigned u => u == 0

/-! ## They compare the values -/

theorem test_eq {op : Int → Int → Bool} {suNegResult usNegResult : Bool} (a b : Integral)
    (hsu : ∀ s : Int, s < 0 → ∀ u : Nat, op s u = suNegResult)
    (hus : ∀ s : Int, s < 0 → ∀ u : Nat, op u s = usNegResult) :
    test op suNegResult usNegResult a b = op a.value b.value := by
  have hcast : ∀ s : Int, ¬s < 0 → (signedToUnsigned s : Int) = s := fun s hs =>
    Int.toNat_of_nonneg (Int.not_lt.mp hs)
  cases a with
  | signed s =>
    cases b with
    | signed _ => rfl
    | unsigned u =>
      by_cases hs : s < 0
      · simp [test, value, hs, hsu]
      · simp [test, value, hs, hcast]
  | unsigned u =>
    cases b with
    | signed s =>
      by_cases hs : s < 0
      · simp [test, value, hs, hus]
      · simp [test, value, hs, hcast]
    | unsigned _ => rfl

@[simp] theorem notEqual_iff (a b : Integral) : notEqual a b = true ↔ a.value ≠ b.value := by
  rw [notEqual, test_eq a b, bne_iff_ne]
  · exact fun s hs u => bne_iff_ne.mpr (by omega)
  · exact fun s hs u => bne_iff_ne.mpr (by omega)

@[simp] theorem greaterEqual_iff (a b : Integral) : greaterEqual a b = true ↔ b.value ≤ a.value := by
  rw [greaterEqual, test_eq a b, decide_eq_true_iff]
  · exact fun s hs u => decide_eq_false (by omega)
  · exact fun s hs u => decide_eq_true (by omega)

@[simp] theorem isPositive_iff (a : Integral) : a.isPositive = true ↔ 0 < a.value := by
  cases a <;> simp [isPositive, value]

@[simp] theorem isNonPositive_iff (a : Integral) : a.isNonPositive = true ↔ a.value ≤ 0 := by
  cases a <;> simp [isNonPositive, value]

@[simp] theorem isZero_iff (a : Integral) : a.isZero = true ↔ a.value = 0 := by
  cases a <;> simp [isZero, value]

end Integral
