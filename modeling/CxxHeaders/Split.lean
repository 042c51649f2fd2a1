/-
`Split.h`: a sequence is split at its delimiters. What the action is called with
is the pieces, in order, of which some may be empty; `splitNoAllowEmpty` leaves
these out.

A loop that ends with a `return` says so with `none`.
-/
import CxxHeaders.Iterators
import Mathlib.Data.List.TakeWhile

open Outcome Iterator

namespace Split

variable {α : Type} (delimPredicate : α → Bool)

/-! ## `split` -/

/-- `while (!delimPredicate(*it))`. -/
def toDelim : Nat → List α → Outcome (Option (List α))
  | 0, _ => .blocked
  | fuel + 1, it => do
    if delimPredicate (← deref it) then return some it
    else
      let it ← increment it
      if it.isEmpty then return none else toDelim fuel it

/-- `while (first != last)`. -/
def splitFrom : Nat → List α → List (List α) → Outcome (List (List α))
  | 0, _, _ => .blocked
  | fuel + 1, first, calls =>
    if first.isEmpty then return calls ++ [between first []]
    else do
      match ← toDelim delimPredicate (first.length + 1) first with
      | none => return calls ++ [between first []]
      | some it => splitFrom fuel (← increment it) (calls ++ [between first it])

/-- `split`: what it calls the action with. -/
def split (xs : List α) : Outcome (List (List α)) := splitFrom delimPredicate (xs.length + 1) xs []

/-! ## `splitNoAllowEmpty` -/

/-- `for (;; ++first)`. -/
def skipDelims : Nat → List α → Outcome (Option (List α))
  | 0, _ => .blocked
  | fuel + 1, first =>
    if first.isEmpty then return none
    else do
      if !delimPredicate (← deref first) then return some first
      else skipDelims fuel (← increment first)

/-- `do { if (++it == last) return; } while (!delimPredicate(*it))`. -/
def pastPiece : Nat → List α → Outcome (Option (List α))
  | 0, _ => .blocked
  | fuel + 1, it => do
    let it ← increment it
    if it.isEmpty then return none
    else if !delimPredicate (← deref it) then pastPiece fuel it
    else return some it

/-- `for (;;)`. -/
def splitNoAllowEmptyFrom : Nat → List α → List (List α) → Outcome (List (List α))
  | 0, _, _ => .blocked
  | fuel + 1, first, calls => do
    match ← skipDelims delimPredicate (first.length + 1) first with
    | none => return calls
    | some first =>
      match ← pastPiece delimPredicate (first.length + 1) first with
      | none => return calls ++ [between first []]
      | some it => splitNoAllowEmptyFrom fuel (← increment it) (calls ++ [between first it])

/-- `splitNoAllowEmpty`: what it calls the action with. -/
def splitNoAllowEmpty (xs : List α) : Outcome (List (List α)) :=
  splitNoAllowEmptyFrom delimPredicate (xs.length + 1) xs []

/-! ## The inner loops -/

variable {delimPredicate} {pre rest xs : List α} {d : α}

/-- A sequence has no delimiter, or goes on behind its first one. -/
theorem clean_or_cut (delimPredicate : α → Bool) (xs : List α) :
    (∀ x ∈ xs, delimPredicate x = false) ∨ ∃ pre d rest, xs = pre ++ d :: rest ∧
      (∀ x ∈ pre, delimPredicate x = false) ∧ delimPredicate d = true := by
  induction xs with
  | nil => exact .inl (by simp)
  | cons x xs ih =>
    cases hx : delimPredicate x with
    | true => exact .inr ⟨[], x, xs, rfl, by simp, hx⟩
    | false =>
      rcases ih with hclean | ⟨pre, d, rest, rfl, hpre, hd⟩
      · exact .inl (by simpa [hx] using hclean)
      · exact .inr ⟨x :: pre, d, rest, rfl, by simpa [hx] using hpre, hd⟩

theorem toDelim_cut (rest : List α) (hpre : ∀ x ∈ pre, delimPredicate x = false)
    (hd : delimPredicate d = true) (fuel : Nat) (hfuel : pre.length < fuel) :
    toDelim delimPredicate fuel (pre ++ d :: rest) = .next (some (d :: rest)) := by
  induction pre generalizing fuel with
  | nil =>
    obtain ⟨fuel, rfl⟩ := Nat.exists_eq_add_of_lt hfuel
    simp [toDelim, hd]
  | cons x pre ih =>
    cases fuel with
    | zero => omega
    | succ fuel =>
      simp only [List.mem_cons, forall_eq_or_imp] at hpre
      have hrest := ih hpre.2 fuel (by simpa using hfuel)
      simp [toDelim, hpre.1, hrest]

theorem toDelim_clean (hne : xs ≠ []) (hclean : ∀ x ∈ xs, delimPredicate x = false) (fuel : Nat)
    (hfuel : xs.length ≤ fuel) : toDelim delimPredicate fuel xs = .next none := by
  induction fuel generalizing xs with
  | zero => exact absurd (List.length_eq_zero_iff.mp (Nat.le_zero.mp hfuel)) hne
  | succ fuel ih =>
    obtain ⟨x, xs, rfl⟩ := List.exists_cons_of_ne_nil hne
    simp only [List.mem_cons, forall_eq_or_imp] at hclean
    cases xs with
    | nil => simp [toDelim, hclean.1]
    | cons y xs =>
      have hrest := ih (by simp) hclean.2 (by simpa using hfuel)
      simp [toDelim, hclean.1, hrest]

/-- From the second element on, it is the other loop. -/
theorem pastPiece_cons (fuel : Nat) (x y : α) (it : List α) (hfuel : it.length + 1 < fuel) :
    pastPiece delimPredicate fuel (x :: y :: it) = toDelim delimPredicate fuel (y :: it) := by
  induction fuel generalizing x y it with
  | zero => omega
  | succ fuel ih =>
    cases hy : delimPredicate y with
    | true => simp [pastPiece, toDelim, hy]
    | false =>
      cases it with
      | nil =>
        obtain ⟨fuel, rfl⟩ := Nat.exists_eq_add_of_lt (Nat.lt_of_succ_lt_succ hfuel)
        simp [pastPiece, toDelim, hy]
      | cons z it => simp [pastPiece, toDelim, hy, ih y z it (by simpa using hfuel)]

theorem pastPiece_cut (x : α) (hpre : ∀ x ∈ pre, delimPredicate x = false) (hd : delimPredicate d = true)
    (fuel : Nat) (hfuel : (pre ++ d :: rest).length < fuel) :
    pastPiece delimPredicate fuel (x :: (pre ++ d :: rest)) = .next (some (d :: rest)) := by
  have hcut := toDelim_cut rest hpre hd fuel (by simp at hfuel; omega)
  cases pre with
  | nil => exact (pastPiece_cons fuel x d rest (by simpa using hfuel)).trans hcut
  | cons y pre => exact (pastPiece_cons fuel x y _ (by simpa using hfuel)).trans hcut

theorem pastPiece_clean (x : α) (hclean : ∀ x ∈ xs, delimPredicate x = false) (fuel : Nat)
    (hfuel : xs.length < fuel) : pastPiece delimPredicate fuel (x :: xs) = .next none := by
  cases xs with
  | nil =>
    obtain ⟨fuel, rfl⟩ := Nat.exists_eq_add_of_lt hfuel
    simp [pastPiece]
  | cons y xs =>
    exact (pastPiece_cons fuel x y xs (by simpa using hfuel)).trans
      (toDelim_clean (by simp) hclean fuel (Nat.le_of_lt hfuel))

theorem skipDelims_eq (fuel : Nat) (hfuel : xs.length < fuel) :
    skipDelims delimPredicate fuel xs =
      .next (if (xs.dropWhile delimPredicate).isEmpty then none else some (xs.dropWhile delimPredicate)) := by
  induction fuel generalizing xs with
  | zero => omega
  | succ fuel ih =>
    cases xs with
    | nil => rfl
    | cons x xs =>
      cases hx : delimPredicate x with
      | true =>
        have hrest := @ih xs (by simpa using hfuel)
        simp [skipDelims, hx, hrest]
      | false => simp [skipDelims, hx]

/-! ## The pieces -/

/-- Every piece, and the delimiter behind it, of which the last one has none. -/
def rejoined (pieces : List (List α)) (delims : List α) : List α :=
  (pieces.zipWith (· ++ ·) (delims.map (fun d => [d]) ++ [[]])).flatten

theorem splitFrom_returns (fuel : Nat) (calls : List (List α)) (hfuel : xs.length < fuel) :
    splitFrom delimPredicate fuel xs calls = .next (calls ++ xs.splitOnP delimPredicate) := by
  induction fuel generalizing xs calls with
  | zero => omega
  | succ fuel ih =>
    unfold splitFrom
    cases xs with
    | nil => simp
    | cons x xs =>
      rw [List.isEmpty_cons, if_neg Bool.false_ne_true]
      rcases clean_or_cut delimPredicate (x :: xs) with hclean | ⟨pre, d, rest, hcut, hpre, hd⟩
      · rw [toDelim_clean (by simp) hclean _ (Nat.le_succ _), List.splitOnP_eq_singleton hclean]
        simp
      · rw [hcut] at hfuel ⊢
        have hlen : rest.length < fuel := by simp at hfuel; omega
        have hpre_lt : pre.length < (pre ++ d :: rest).length + 1 := by
          rw [List.length_append]
          omega
        rw [toDelim_cut rest hpre hd _ hpre_lt, List.splitOnP_append_cons_of_forall_mem hpre d hd]
        simp [ih _ hlen]

/-- The pieces that are not empty. -/
def words (delimPredicate : α → Bool) (xs : List α) : List (List α) :=
  (xs.splitOnP delimPredicate).filter (!·.isEmpty)

theorem words_dropWhile (xs : List α) :
    words delimPredicate (xs.dropWhile delimPredicate) = words delimPredicate xs := by
  induction xs with
  | nil => rfl
  | cons x xs ih =>
    cases hx : delimPredicate x with
    | true =>
      rw [List.dropWhile_cons_of_pos hx, ih, words, words, List.splitOnP_cons_eq_if_modifyHead, if_pos hx]
      rfl
    | false => simp [hx]

theorem splitNoAllowEmptyFrom_returns (fuel : Nat) (calls : List (List α)) (hfuel : xs.length < fuel) :
    splitNoAllowEmptyFrom delimPredicate fuel xs calls = .next (calls ++ words delimPredicate xs) := by
  induction fuel generalizing xs calls with
  | zero => omega
  | succ fuel ih =>
    have hdrop := List.length_dropWhile_le delimPredicate xs
    unfold splitNoAllowEmptyFrom
    rw [skipDelims_eq _ (Nat.lt_succ_self _), ← words_dropWhile, next_bind]
    cases hfirst : xs.dropWhile delimPredicate with
    | nil => simp [words]
    | cons x first =>
      have hx : delimPredicate x = false := by
        have hhead := List.head?_dropWhile_not delimPredicate xs
        rw [hfirst] at hhead
        simpa using hhead
      rw [hfirst] at hdrop
      simp only [List.isEmpty_cons, Bool.false_eq_true, if_false]
      rcases clean_or_cut delimPredicate first with hclean | ⟨pre, d, rest, rfl, hpre, hd⟩
      · have hall : ∀ y ∈ x :: first, delimPredicate y = false := by simpa [hx] using hclean
        rw [pastPiece_clean x hclean _ (by rw [List.length_cons]; omega), words, List.splitOnP_eq_singleton hall]
        simp
      · have hall : ∀ y ∈ x :: pre, delimPredicate y = false := by simpa [hx] using hpre
        have hlen : rest.length < fuel := by simp at hdrop; omega
        have hwords : words delimPredicate (x :: (pre ++ d :: rest)) = (x :: pre) :: words delimPredicate rest := by
          rw [words, ← List.cons_append, List.splitOnP_append_cons_of_forall_mem hall d hd]
          rfl
        have hbetween : between (x :: (pre ++ d :: rest)) (d :: rest) = x :: pre := by
          rw [← List.cons_append, between_append]
        rw [pastPiece_cut x hpre hd _ (by rw [List.length_cons]; omega), hwords]
        simp [ih _ hlen, hbetween]

/-! ## The laws -/

theorem not_delim_of_mem {xs piece : List α} (h : piece ∈ xs.splitOnP delimPredicate) :
    ∀ x ∈ piece, delimPredicate x = false := by
  induction hn : xs.length using Nat.strongRecOn generalizing xs with
  | ind n ih =>
    rcases clean_or_cut delimPredicate xs with hclean | ⟨pre, d, rest, rfl, hpre, hd⟩
    · rw [List.splitOnP_eq_singleton hclean, List.mem_singleton] at h
      exact h ▸ hclean
    · rw [List.splitOnP_append_cons_of_forall_mem hpre d hd, List.mem_cons] at h
      rcases h with rfl | h
      · exact hpre
      · exact ih rest.length (by simp at hn; omega) h rfl

theorem length_splitOnP (xs : List α) :
    (xs.splitOnP delimPredicate).length = xs.countP delimPredicate + 1 := by
  induction xs with
  | nil => rfl
  | cons x xs ih =>
    rw [List.splitOnP_cons_eq_if_modifyHead, List.countP_cons]
    split
    · simp [ih]
    · simp [ih]

/-- **What a sequence is split into**: pieces with no delimiter, which are the
sequence again with the delimiters between them; without the empty ones, they are
what it is split into by `splitNoAllowEmpty`. -/
theorem splits (delimPredicate : α → Bool) (xs : List α) : ∃ pieces, split delimPredicate xs = .next pieces ∧
    (∀ piece ∈ pieces, ∀ x ∈ piece, delimPredicate x = false) ∧
    pieces.length = xs.countP delimPredicate + 1 ∧
    rejoined pieces (xs.filter delimPredicate) = xs ∧
    splitNoAllowEmpty delimPredicate xs = .next (pieces.filter (!·.isEmpty)) :=
  ⟨xs.splitOnP delimPredicate, splitFrom_returns _ [] (Nat.lt_succ_self _), fun _ => not_delim_of_mem,
    length_splitOnP xs, List.splitOnP_spec xs, splitNoAllowEmptyFrom_returns _ [] (Nat.lt_succ_self _)⟩

end Split
