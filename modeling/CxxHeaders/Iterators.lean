/-
Iterators of a finite sequence: an iterator is the elements from it on, and it is
the end where there are none. To look at one, or to go on, at the end is a
failure.
-/
import CxxHeaders.Runs

open Outcome

namespace Iterator

variable {α : Type}

/-- `*it`. -/
def deref : List α → Outcome α
  | [] => .failed
  | a :: _ => return a

/-- `++it`. -/
def increment : List α → Outcome (List α)
  | [] => .failed
  | _ :: it => return it

/-- The elements in `[first, it)`. -/
def between (first it : List α) : List α := first.take (first.length - it.length)

@[simp] theorem deref_cons (a : α) (it : List α) : deref (a :: it) = .next a := rfl
@[simp] theorem increment_cons (a : α) (it : List α) : increment (a :: it) = .next it := rfl

@[simp] theorem between_nil (first : List α) : between first [] = first := by simp [between]

@[simp] theorem between_append (xs it : List α) : between (xs ++ it) it = xs := by simp [between]

end Iterator
