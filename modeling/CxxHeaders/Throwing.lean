/-
Code with a state that may throw: `Throwing`. An exception leaves the state as
it was when it was thrown, and thrown where none may leave (`noexcept`) it ends
the program. `Ends` is the weakest precondition of code that is to come to an
end, with a postcondition for each of the two ends; every construct of the code
has a rule for it.
-/
import CxxHeaders.Runs

open Outcome

/-- Code that has a `σ` and may throw an `ε`. -/
abbrev Throwing (ε σ : Type) := ExceptT ε (StateT σ Outcome)

namespace Throwing

variable {ε σ α β : Type}

/-- An exception that would leave `x` ends the program. -/
def noexcept (x : Throwing ε σ α) : Throwing ε σ α := tryCatch x fun _ => (Outcome.ended : Outcome α)

/-- `x` ends: it returns, with `Q`, or it throws, with `E`. -/
def Ends (x : Throwing ε σ α) (s : σ) (Q : α → σ → Prop) (E : ε → σ → Prop) : Prop :=
  (x.run.run s).Returns fun r => match r.1 with
    | .ok a => Q a r.2
    | .error e => E e r.2

/-- `x` throws, with `E`. -/
def Throws (x : Throwing ε σ α) (s : σ) (E : ε → σ → Prop) : Prop := Ends x s (fun _ _ => False) E

/-- `x` fails. -/
def Fails (x : Throwing ε σ α) (s : σ) : Prop := x.run.run s = .failed

variable {x : Throwing ε σ α} {s : σ} {Q : α → σ → Prop} {E : ε → σ → Prop}

@[simp] theorem ends_pure (a : α) : Ends (pure a : Throwing ε σ α) s Q E ↔ Q a s := Iff.rfl

@[simp] theorem ends_throw (e : ε) : Ends (throw e : Throwing ε σ α) s Q E ↔ E e s := Iff.rfl

@[simp] theorem ends_get {Q : σ → σ → Prop} : Ends (get : Throwing ε σ σ) s Q E ↔ Q s s := Iff.rfl

@[simp] theorem ends_set {Q : PUnit → σ → Prop} (t : σ) :
    Ends (set t : Throwing ε σ PUnit) s Q E ↔ Q ⟨⟩ t := Iff.rfl

@[simp] theorem ends_modify {Q : PUnit → σ → Prop} (f : σ → σ) :
    Ends (modify f : Throwing ε σ PUnit) s Q E ↔ Q ⟨⟩ (f s) := Iff.rfl

@[simp] theorem ends_bind {Q : β → σ → Prop} (f : α → Throwing ε σ β) :
    Ends (x >>= f) s Q E ↔ Ends x s (fun a t => Ends (f a) t Q E) E := by
  unfold Ends
  show ((x.run.run s) >>= _).Returns _ ↔ _
  rw [returns_bind]
  cases x.run.run s with
  | next r =>
    obtain ⟨r, t⟩ := r
    cases r <;> rfl
  | _ => rfl

@[simp] theorem ends_tryCatch (h : ε → Throwing ε σ α) :
    Ends (tryCatch x h) s Q E ↔ Ends x s Q fun e t => Ends (h e) t Q E := by
  unfold Ends
  show ((x.run.run s) >>= _).Returns _ ↔ _
  rw [returns_bind]
  cases x.run.run s with
  | next r =>
    obtain ⟨r, t⟩ := r
    cases r <;> rfl
  | _ => rfl

@[simp] theorem ends_asserting {Q : Unit → σ → Prop} {p : Prop} [Decidable p] :
    Ends (liftM (asserting p) : Throwing ε σ Unit) s Q E ↔ p ∧ Q () s := by
  by_cases h : p
  · rw [asserting_true h]
    exact (and_iff_right h).symm
  · simp only [asserting, h, false_and]
    rfl

@[simp] theorem ends_liftM (y : Outcome α) :
    Ends (liftM y : Throwing ε σ α) s Q E ↔ y.Returns fun a => Q a s := by
  cases y <;> rfl

/-- Nothing may be thrown. -/
@[simp] theorem ends_noexcept : Ends (noexcept x) s Q E ↔ Ends x s Q fun _ _ => False := by
  unfold noexcept
  rw [ends_tryCatch]
  rfl

theorem not_throws_noexcept : ¬Throws (noexcept x) s E := by
  intro h
  obtain ⟨r, hr, h⟩ := Returns.exists (ends_noexcept.mp h)
  cases he : r.1 <;> simp [he] at h

/-- An exception is let through, or ends the program. -/
theorem Ends.ok_noexcept (h : Ends x s Q E) (b : Bool) :
    ((if b then noexcept x else x).run.run s).Ok fun r => match r.1 with
      | .ok a => Q a r.2
      | .error e => E e r.2 := by
  cases b with
  | false => exact h.ok
  | true =>
    obtain ⟨r, hr, h⟩ := Returns.exists h
    obtain ⟨r, t⟩ := r
    show ((x.run.run s) >>= _).Ok _
    rw [hr]
    cases r with
    | ok a => exact h
    | error e => trivial

/-- What is done with the result matters only where there is one. -/
theorem throws_bind_pure {f : α → β} : Throws (do return f (← x)) s E ↔ Throws x s E := by
  unfold Throws
  rw [ends_bind]
  rfl

/-- It gets to where the rest fails. -/
theorem Fails.bind {f : α → Throwing ε σ β} (h : Ends x s (fun a t => Fails (f a) t) fun _ _ => False) :
    Fails (x >>= f) s := by
  obtain ⟨r, hr, h⟩ := Returns.exists h
  obtain ⟨r, t⟩ := r
  show (x.run.run s) >>= _ = _
  rw [hr]
  cases r with
  | ok a => exact h
  | error e => exact h.elim

theorem Fails.bind_left (h : Fails x s) (f : α → Throwing ε σ β) : Fails (x >>= f) s := by
  show (x.run.run s) >>= _ = _
  rw [h]
  rfl

theorem Fails.tryCatch {h : ε → Throwing ε σ α} (hx : Throws x s fun e t => Fails (h e) t) :
    Fails (tryCatch x h) s := by
  obtain ⟨r, hr, hx⟩ := Returns.exists hx
  obtain ⟨r, t⟩ := r
  show (x.run.run s) >>= _ = _
  rw [hr]
  cases r with
  | ok a => exact hx.elim
  | error e => exact hx

theorem Ends.mono {Q' : α → σ → Prop} {E' : ε → σ → Prop} (h : Ends x s Q E) (hq : ∀ a t, Q a t → Q' a t)
    (he : ∀ e t, E e t → E' e t) : Ends x s Q' E' := by
  refine Returns.mono h fun r hr => ?_
  obtain ⟨r, t⟩ := r
  cases r with
  | ok a => exact hq a t hr
  | error e => exact he e t hr

end Throwing
