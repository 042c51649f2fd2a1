/-
Code that may be unable to go on, may fail an assertion, may end the whole
program, or returns: `Outcome`, a monad, with its weakest precondition `Ok`.
Systems that take one action after another (`next : σ → α → Outcome σ`): the
states they reach, the invariant rule, and what holds along a run when only
some of the actions are harmless (`along_iff_meets`).
-/
import Mathlib.Logic.Basic
import Mathlib.Tactic.Basic

universe u v w

/-- How a piece of code ends. -/
inductive Outcome (σ : Type u) where
  /-- It is not possible here: a wait goes on, or nobody can ask for it. -/
  | blocked
  /-- An assertion fails, or the code does what the language leaves undefined. -/
  | failed
  /-- The program is ended (`std::terminate`). -/
  | ended
  | next (s : σ)
  deriving DecidableEq, Repr

namespace Outcome

variable {σ : Type u} {τ : Type v}

instance : Monad Outcome where
  pure := .next
  bind x f := match x with
    | .blocked => .blocked
    | .failed => .failed
    | .ended => .ended
    | .next s => f s

/-- `assert(p)`. -/
def asserting (p : Prop) [Decidable p] : Outcome Unit := if p then .next () else .failed

/-- Goes on only where `p` holds. -/
def requiring (p : Prop) [Decidable p] : Outcome Unit := if p then .next () else .blocked

/-- `P` holds of what the code returns, and it fails no assertion. -/
def Ok (P : σ → Prop) : Outcome σ → Prop
  | .failed => False
  | .next s => P s
  | _ => True

/-- `P` holds of what the code returns, if it does. -/
def Yields (P : σ → Prop) (x : Outcome σ) : Prop := ∀ s, x = .next s → P s

/-- The code returns, and `P` holds of what it returns. -/
def Returns (P : σ → Prop) : Outcome σ → Prop
  | .next s => P s
  | _ => False

/-- The code fails an assertion unless `C` holds, and then `P` holds of what it
returns. -/
structure OkIff (C : Prop) (P : σ → Prop) (x : Outcome σ) : Prop where
  ok : C → x.Ok P
  failed : ¬C → x = .failed

/-- Both pieces of code wait, or both return, and `R` relates what they return. -/
def Alike (R : σ → τ → Prop) : Outcome σ → Outcome τ → Prop
  | .blocked, .blocked => True
  | .next s, .next t => R s t
  | _, _ => False

/-- Two pieces of code side by side, which is a failure where they part. -/
def both : Outcome σ → Outcome τ → Outcome (σ × τ)
  | .blocked, .blocked => .blocked
  | .next s, .next t => .next (s, t)
  | _, _ => .failed

/-- Where the code has to return, all else is a failure. -/
def mustReturn : Outcome σ → Outcome σ
  | .next s => .next s
  | _ => .failed

/-- `while (cond) body`, where the condition holds fewer than `fuel` times. -/
def whileLoop (cond : σ → Bool) (body : σ → Outcome σ) : Nat → σ → Outcome σ
  | 0, _ => .blocked
  | fuel + 1, s => if cond s then body s >>= whileLoop cond body fuel else .next s

/-- The code returns. -/
def isNext : Outcome σ → Bool
  | .next _ => true
  | _ => false

theorem exists_of_isNext {x : Outcome σ} (h : x.isNext) : ∃ s, x = .next s := by
  cases x with
  | next s => exact ⟨s, rfl⟩
  | _ => cases h

section
variable {σ τ : Type u}

@[simp] theorem pure_eq (s : σ) : (pure s : Outcome σ) = .next s := rfl
@[simp] theorem next_bind (s : σ) (f : σ → Outcome τ) : (Outcome.next s >>= f) = f s := rfl
@[simp] theorem blocked_bind (f : σ → Outcome τ) : (Outcome.blocked >>= f) = .blocked := rfl
@[simp] theorem failed_bind (f : σ → Outcome τ) : (Outcome.failed >>= f) = .failed := rfl
@[simp] theorem ended_bind (f : σ → Outcome τ) : (Outcome.ended >>= f) = .ended := rfl

theorem bind_assoc {υ : Type u} (x : Outcome σ) (f : σ → Outcome τ) (g : τ → Outcome υ) :
    (x >>= f >>= g) = x >>= fun s => f s >>= g := by
  cases x <;> rfl

theorem bind_eq_next {x : Outcome σ} {f : σ → Outcome τ} {t : τ} :
    (x >>= f) = .next t ↔ ∃ s, x = .next s ∧ f s = .next t := by
  cases x <;> simp

theorem ok_bind {P : τ → Prop} {x : Outcome σ} {f : σ → Outcome τ} :
    (x >>= f).Ok P ↔ x.Ok fun s => (f s).Ok P := by
  cases x <;> simp [Ok]

theorem returns_bind {P : τ → Prop} {x : Outcome σ} {f : σ → Outcome τ} :
    (x >>= f).Returns P ↔ x.Returns fun s => (f s).Returns P := by
  cases x <;> simp [Returns]

end

@[simp] theorem ok_next {P : σ → Prop} {s : σ} : (Outcome.next s).Ok P ↔ P s := Iff.rfl
@[simp] theorem ok_failed {P : σ → Prop} : (Outcome.failed : Outcome σ).Ok P ↔ False := Iff.rfl
@[simp] theorem ok_blocked {P : σ → Prop} : (Outcome.blocked : Outcome σ).Ok P ↔ True := Iff.rfl
@[simp] theorem ok_ended {P : σ → Prop} : (Outcome.ended : Outcome σ).Ok P ↔ True := Iff.rfl

@[simp] theorem ok_asserting {p : Prop} [Decidable p] {P : Unit → Prop} :
    (asserting p).Ok P ↔ p ∧ P () := by
  by_cases h : p <;> simp [asserting, h]

@[simp] theorem ok_requiring {p : Prop} [Decidable p] {P : Unit → Prop} :
    (requiring p).Ok P ↔ (p → P ()) := by
  by_cases h : p <;> simp [requiring, h]

@[simp] theorem asserting_eq_next {p : Prop} [Decidable p] {x : Unit} :
    asserting p = .next x ↔ p := by
  by_cases h : p <;> simp [asserting, h]

@[simp] theorem requiring_eq_next {p : Prop} [Decidable p] {x : Unit} :
    requiring p = .next x ↔ p := by
  by_cases h : p <;> simp [requiring, h]

@[simp] theorem yields_next {P : σ → Prop} {s : σ} : (Outcome.next s).Yields P ↔ P s := by
  simp [Yields]

theorem yields_bind {σ τ : Type u} {P : τ → Prop} {x : Outcome σ} {f : σ → Outcome τ} :
    (x >>= f).Yields P ↔ x.Yields fun s => (f s).Yields P := by
  cases x <;> simp [Yields]

@[simp] theorem yields_asserting {p : Prop} [Decidable p] {P : Unit → Prop} :
    (asserting p).Yields P ↔ (p → P ()) := by
  by_cases h : p
  · simp [asserting, h]
  · simp [asserting, Yields, h]

@[simp] theorem yields_requiring {p : Prop} [Decidable p] {P : Unit → Prop} :
    (requiring p).Yields P ↔ (p → P ()) := by
  by_cases h : p
  · simp [requiring, h]
  · simp [requiring, Yields, h]

theorem yields_failed {P : σ → Prop} : (Outcome.failed : Outcome σ).Yields P := nofun

theorem yields_blocked {P : σ → Prop} : (Outcome.blocked : Outcome σ).Yields P := nofun

theorem Yields.mono {P Q : σ → Prop} {x : Outcome σ} (h : x.Yields P) (hpq : ∀ s, P s → Q s) :
    x.Yields Q :=
  fun s hs => hpq s (h s hs)

theorem asserting_true {p : Prop} {_ : Decidable p} (h : p) : asserting p = .next () := by
  simp [asserting, h]

theorem requiring_true {p : Prop} {_ : Decidable p} (h : p) : requiring p = .next () := by
  simp [requiring, h]

@[simp] theorem asserting_trivial {_ : Decidable True} : asserting True = .next () :=
  asserting_true trivial

theorem Ok.mono {P Q : σ → Prop} {x : Outcome σ} (h : x.Ok P) (hpq : ∀ s, P s → Q s) : x.Ok Q := by
  cases x with
  | next s => exact hpq s h
  | _ => exact h

theorem Ok.and {P Q : σ → Prop} {x : Outcome σ} (h : x.Ok P) (h' : x.Ok Q) :
    x.Ok fun s => P s ∧ Q s := by
  cases x with
  | next s => exact ⟨h, h'⟩
  | _ => exact h

theorem Ok.of_next {P : σ → Prop} {x : Outcome σ} {s : σ} (h : x.Ok P) (hx : x = .next s) : P s := by
  subst hx; exact h

@[simp] theorem returns_next {P : σ → Prop} {s : σ} : (Outcome.next s).Returns P ↔ P s := Iff.rfl

@[simp] theorem returns_failed {P : σ → Prop} : (Outcome.failed : Outcome σ).Returns P ↔ False := Iff.rfl
@[simp] theorem returns_blocked {P : σ → Prop} : (Outcome.blocked : Outcome σ).Returns P ↔ False := Iff.rfl
@[simp] theorem returns_ended {P : σ → Prop} : (Outcome.ended : Outcome σ).Returns P ↔ False := Iff.rfl

@[simp] theorem returns_requiring {p : Prop} [Decidable p] {P : Unit → Prop} :
    (requiring p).Returns P ↔ p ∧ P () := by
  by_cases h : p <;> simp [requiring, Returns, h]

@[simp] theorem returns_asserting {p : Prop} [Decidable p] {P : Unit → Prop} :
    (asserting p).Returns P ↔ p ∧ P () := by
  by_cases h : p <;> simp [asserting, Returns, h]

theorem Returns.mono {P Q : σ → Prop} {x : Outcome σ} (h : x.Returns P) (hpq : ∀ s, P s → Q s) :
    x.Returns Q := by
  cases x with
  | next s => exact hpq s h
  | _ => exact h

theorem Returns.exists {P : σ → Prop} {x : Outcome σ} (h : x.Returns P) : ∃ s, x = .next s ∧ P s := by
  cases x with
  | next s => exact ⟨s, rfl, h⟩
  | _ => exact h.elim

theorem Returns.ok {P : σ → Prop} {x : Outcome σ} (h : x.Returns P) : x.Ok P := by
  cases x with
  | next s => exact h
  | _ => exact h.elim

theorem ok_mustReturn {P : σ → Prop} {x : Outcome σ} : (mustReturn x).Ok P ↔ x.Returns P := by
  cases x <;> rfl

theorem Returns.alike {P : σ → Prop} {R : σ → τ → Prop} {x : Outcome σ} {t : τ} (h : x.Returns P)
    (hr : ∀ s, P s → R s t) : Alike R x (.next t) := by
  cases x with
  | next s => exact hr s h
  | _ => exact h.elim

/-- **Loops.** `I k` holds where there are `k` rounds to go. -/
theorem whileLoop_returns {cond : σ → Bool} {body : σ → Outcome σ} {I : Nat → σ → Prop}
    (hbody : ∀ k s, I (k + 1) s → cond s = true ∧ (body s).Returns (I k))
    (hend : ∀ s, I 0 s → cond s = false) {k fuel : Nat} {s : σ} (h : I k s) (hfuel : k < fuel) :
    (whileLoop cond body fuel s).Returns (I 0) := by
  induction fuel generalizing k s with
  | zero => omega
  | succ fuel ih =>
    unfold whileLoop
    cases k with
    | zero =>
      rw [hend s h]
      exact h
    | succ k =>
      obtain ⟨hcond, hreturns⟩ := hbody k s h
      rw [hcond, if_pos rfl, returns_bind]
      exact hreturns.mono fun t ht => ih ht (by omega)

theorem Alike.mono {R S : σ → τ → Prop} {x : Outcome σ} {y : Outcome τ} (h : Alike R x y)
    (hrs : ∀ s t, R s t → S s t) : Alike S x y := by
  cases x <;> cases y <;> first | exact h.elim | exact hrs _ _ h | trivial

theorem ok_both {R : σ → τ → Prop} {x : Outcome σ} {y : Outcome τ} :
    ((both x y).Ok fun p => R p.1 p.2) ↔ Alike R x y := by
  cases x <;> cases y <;> rfl

theorem Alike.ok {R : σ → τ → Prop} {x : Outcome σ} {y : Outcome τ} (h : Alike R x y) :
    x.Ok fun s => ∃ t, y = .next t ∧ R s t := by
  cases x <;> cases y <;> first | exact h.elim | exact ⟨_, rfl, h⟩ | trivial

theorem Alike.bind {σ' : Type u} {τ' : Type v} {R : σ → τ → Prop} {S : σ' → τ' → Prop} {x : Outcome σ}
    {y : Outcome τ} {f : σ → Outcome σ'} {g : τ → Outcome τ'} (h : Alike R x y)
    (hf : ∀ s t, R s t → Alike S (f s) (g t)) : Alike S (x >>= f) (y >>= g) := by
  cases x <;> cases y <;> first | exact h.elim | exact hf _ _ h | trivial

theorem Alike.requiring {σ τ : Type} {R : σ → τ → Prop} {p q : Prop} [Decidable p] [Decidable q]
    {x : Outcome σ}
    {y : Outcome τ} (hpq : p ↔ q) (h : p → Alike R x y) :
    Alike R (requiring p >>= fun _ => x) (requiring q >>= fun _ => y) := by
  by_cases hp : p
  · rw [requiring_true hp, requiring_true (hpq.mp hp)]
    exact h hp
  · have hq : ¬q := fun hq => hp (hpq.mpr hq)
    simp [Outcome.requiring, hp, hq, Alike]

theorem Ok.okIff {C : Prop} {P : σ → Prop} {x : Outcome σ} (h : x.Ok P) (hc : C) : OkIff C P x :=
  ⟨fun _ => h, fun hn => absurd hc hn⟩

theorem OkIff.and {C D : Prop} {P : σ → Prop} {x : Outcome σ} (h : C → OkIff D P x)
    (hn : ¬C → x = .failed) : OkIff (C ∧ D) P x := by
  refine ⟨fun hcd => (h hcd.1).ok hcd.2, fun hcd => ?_⟩
  by_cases hc : C
  · exact (h hc).failed fun hd => hcd ⟨hc, hd⟩
  · exact hn hc

theorem OkIff.iff {C : Prop} {P Q : σ → Prop} {x : Outcome σ} (h : OkIff C P x) (hpq : ∀ s, P s → Q s) :
    C ↔ x.Ok Q := by
  constructor
  · exact fun hc => (h.ok hc).mono hpq
  · intro hx
    refine Classical.byContradiction fun hc => ?_
    rw [h.failed hc] at hx
    exact hx

theorem OkIff.of_next {C : Prop} {P : σ → Prop} {x : Outcome σ} {s : σ} (h : OkIff C P x)
    (hx : x = .next s) : P s := by
  by_cases hc : C
  · exact (h.ok hc).of_next hx
  · rw [h.failed hc] at hx
    cases hx

theorem OkIff.bind {σ τ : Type u} {C : Prop} {P : σ → Prop} {Q : τ → Prop} {x : Outcome σ}
    {f : σ → Outcome τ} (h : OkIff C P x) (hf : ∀ s, P s → (f s).Ok Q) : OkIff C Q (x >>= f) := by
  refine ⟨fun hc => ok_bind.mpr ((h.ok hc).mono hf), fun hc => ?_⟩
  rw [h.failed hc, failed_bind]

theorem Ok.not_failed {P : σ → Prop} {x : Outcome σ} (h : x.Ok P) : x ≠ .failed := by
  rintro rfl; exact h

end Outcome

namespace Runs

variable {σ : Type u} {α : Type v} (next : σ → α → Outcome σ)

/-- The states reached from the initial ones. -/
inductive Reachable (init : σ → Prop) : σ → Prop
  | init {s} : init s → Reachable init s
  | step {s a t} : Reachable init s → next s a = .next t → Reachable init t

/-- The run of the actions, in order. -/
def run : σ → List α → Outcome σ
  | s, [] => .next s
  | s, a :: as => next s a >>= fun t => run t as

/-- Every step of the run from `s` fails no assertion and satisfies `Q`. -/
def Along (Q : σ → α → σ → Prop) : σ → List α → Prop
  | _, [] => True
  | s, a :: as => (next s a).Ok fun t => Q s a t ∧ Along Q t as

/-- Every action of the run from `s` is taken where `C` allows it. -/
def Meets (C : σ → α → Prop) : σ → List α → Prop
  | _, [] => True
  | s, a :: as => C s a ∧ ∀ t, next s a = .next t → Meets C t as

variable {next} {init : σ → Prop} {I : σ → Prop}

/-- **The invariant rule.** -/
theorem Reachable.invariant (hi : ∀ s, init s → I s) (hs : ∀ s a, I s → (next s a).Ok I) {s : σ}
    (h : Reachable next init s) : I s := by
  induction h with
  | init h => exact hi _ h
  | step _ ht ih => exact (hs _ _ ih).of_next ht

/-- The same where assertions may fail. -/
theorem Reachable.yields (hi : ∀ s, init s → I s) (hs : ∀ s a, I s → (next s a).Yields I) {s : σ}
    (h : Reachable next init s) : I s := by
  induction h with
  | init h => exact hi _ h
  | step _ ht ih => exact hs _ _ ih _ ht

theorem Reachable.run {s t : σ} {as : List α} (h : Reachable next init s)
    (hr : run next s as = .next t) :
    Reachable next init t := by
  induction as generalizing s with
  | nil => simp only [Runs.run, Outcome.next.injEq] at hr; exact hr ▸ h
  | cons a as ih =>
    simp only [Runs.run, Outcome.bind_eq_next] at hr
    obtain ⟨m, hm, hr⟩ := hr
    exact ih (h.step hm) hr

theorem run_append (as bs : List α) (s : σ) :
    run next s (as ++ bs) = run next s as >>= fun t => run next t bs := by
  induction as generalizing s with
  | nil => rfl
  | cons a as ih =>
    simp only [List.cons_append, run, Outcome.bind_assoc]
    exact congrArg _ (funext ih)

/-- A run that another system makes step by step is a run of that one. -/
theorem run_map {τ : Type w} {β : Type*} (next' : τ → β → Outcome τ) {f : σ → τ} {g : α → β}
    (hs : ∀ s a t, next s a = .next t → next' (f s) (g a) = .next (f t)) {s t : σ} {as : List α}
    (h : run next s as = .next t) : run next' (f s) (as.map g) = .next (f t) := by
  induction as generalizing s with
  | nil =>
    cases h
    rfl
  | cons a as ih =>
    simp only [run, Outcome.bind_eq_next] at h
    obtain ⟨m, hm, hrest⟩ := h
    rw [List.map_cons, run, hs s a m hm]
    exact ih hrest

/-- What every step does, a whole run does: `R` relates the state before it to
the one after. -/
theorem yields_run {R : σ → σ → Prop} (hrefl : ∀ s, R s s) (htrans : ∀ {s t u}, R s t → R t u → R s u)
    (hs : ∀ s a, I s → (next s a).Yields fun t => I t ∧ R s t) {s : σ} {as : List α} (hi : I s) :
    (Runs.run next s as).Yields fun t => I t ∧ R s t := by
  induction as generalizing s with
  | nil => exact Outcome.yields_next.mpr ⟨hi, hrefl s⟩
  | cons a as ih =>
    refine Outcome.yields_bind.mpr ((hs s a hi).mono fun m hm => ?_)
    exact (ih hm.1).mono fun t ht => ⟨ht.1, htrans hm.2 ht.2⟩

/-- **Simulation.** What one step of the first system does, the second one can
do; so it can do what a whole run does. `P` is what is known of the actions. -/
theorem simulates {τ : Type u} {spec : τ → α → Outcome τ} {R : σ → τ → Prop} {P : α → Prop}
    (hstep : ∀ s t a, R s t → P a → (next s a).Ok fun s' => ∃ t', spec t a = .next t' ∧ R s' t')
    {s : σ} {t : τ} {as : List α} (h : R s t) (hp : ∀ a ∈ as, P a) :
    (run next s as).Ok fun s' => ∃ t', run spec t as = .next t' ∧ R s' t' := by
  induction as generalizing s t with
  | nil => exact ⟨t, rfl, h⟩
  | cons a as ih =>
    simp only [run, Outcome.ok_bind]
    refine (hstep s t a h (hp a List.mem_cons_self)).mono fun s' ⟨t', ht, hr⟩ => ?_
    rw [ht]
    exact ih hr fun b hb => hp b (List.mem_cons_of_mem a hb)

/-- Where a condition on the action and the state before it decides exactly
whether a step is fit for `Q`, it decides for whole runs too. `D` is what is
asked of the caller. -/
theorem along_iff_meets {Q : σ → α → σ → Prop} {C D : σ → α → Prop}
    (hstep : ∀ s a, I s → D s a → (C s a ↔ (next s a).Ok (Q s a)))
    (hinv : ∀ s a t, I s → D s a → next s a = .next t → Q s a t → I t)
    {s : σ} {as : List α} (hs : I s) (hd : Meets next D s as) :
    Along next Q s as ↔ Meets next C s as := by
  induction as generalizing s with
  | nil => simp [Along, Meets]
  | cons a as ih =>
    simp only [Along, Meets] at hd ⊢
    have ha := hstep s a hs hd.1
    cases hn : next s a with
    | failed => simp [hn, ha]
    | blocked => simp [hn, ha]
    | ended => simp [hn, ha]
    | next t =>
      simp only [hn, Outcome.ok_next, Outcome.next.injEq, forall_eq'] at ha ⊢
      rw [ha]
      exact and_congr_right fun hq => ih (hinv s a t hs hd.1 hn hq) (hd.2 t hn)

theorem Meets.cons {C : σ → α → Prop} {s t : σ} {a : α} {as : List α} (ha : C s a) (hn : next s a = .next t)
    (h : Meets next C t as) : Meets next C s (a :: as) := by
  refine ⟨ha, fun u hu => ?_⟩
  rw [hn] at hu
  cases hu
  exact h

theorem Meets.append {C : σ → α → Prop} {s t : σ} {as bs : List α} (h : Meets next C s as)
    (hr : run next s as = .next t) (h' : Meets next C t bs) : Meets next C s (as ++ bs) := by
  induction as generalizing s with
  | nil =>
    cases hr
    exact h'
  | cons a as ih =>
    simp only [run, Outcome.bind_eq_next] at hr
    obtain ⟨m, hm, hr⟩ := hr
    exact .cons h.1 hm (ih (h.2 m hm) hr)

/-- A condition on the actions only. -/
theorem meets_of_forall {P : α → Prop} {s : σ} {as : List α} (h : ∀ a ∈ as, P a) :
    Meets next (fun _ a => P a) s as := by
  induction as generalizing s with
  | nil => trivial
  | cons a as ih =>
    exact ⟨h a List.mem_cons_self, fun _ _ => ih fun b hb => h b (List.mem_cons_of_mem a hb)⟩

theorem meets_true {s : σ} (as : List α) : Meets next (fun _ _ => True) s as :=
  meets_of_forall fun _ _ => trivial

/-- Where a condition decides whether a step fails an assertion or keeps the
invariant, it decides for whole runs too. -/
theorem along_iff_meets_of_okIff {C : σ → α → Prop} {Q : σ → Prop}
    (hstep : ∀ s a, I s → Outcome.OkIff (C s a) I (next s a)) (hq : ∀ s, I s → Q s) {s : σ} (as : List α)
    (hs : I s) : Along next (fun _ _ t => Q t) s as ↔ Meets next C s as :=
  along_iff_meets (D := fun _ _ => True) (fun s a h _ => (hstep s a h).iff hq)
    (fun s a _ h _ hn _ => (hstep s a h).of_next hn) hs (meets_true as)

/-- **The invariant rule for some of the runs**: those that take every action
where `C` allows it. -/
theorem Meets.ok_run {C : σ → α → Prop} (hs : ∀ s a, I s → C s a → (next s a).Ok I) {s : σ} {as : List α}
    (hi : I s) (h : Meets next C s as) : (run next s as).Ok I := by
  induction as generalizing s with
  | nil => exact hi
  | cons a as ih =>
    obtain ⟨ha, has⟩ := h
    have hstep := hs s a hi ha
    simp only [run, Outcome.ok_bind]
    cases hn : next s a with
    | failed => rw [hn] at hstep; exact hstep.elim
    | next t => rw [hn] at hstep; exact ih hstep (has t hn)
    | _ => trivial

theorem Along.run_ne_failed {Q : σ → α → σ → Prop} {s : σ} {as : List α} (h : Along next Q s as) :
    Runs.run next s as ≠ .failed := by
  induction as generalizing s with
  | nil => exact nofun
  | cons a as ih =>
    simp only [Along, Runs.run] at h ⊢
    cases hn : next s a with
    | failed => rw [hn] at h; exact h.elim
    | next t => rw [hn] at h; exact ih h.2
    | _ => exact nofun

/-- What holds along every run is an invariant of the steps it allows. -/
theorem Along.of_invariant {Q : σ → α → σ → Prop}
    (hs : ∀ s a, I s → (next s a).Ok fun t => Q s a t ∧ I t) :
    ∀ {s : σ} (as : List α), I s → Along next Q s as
  | _, [], _ => trivial
  | s, a :: as, h => (hs s a h).mono fun _ ht => ⟨ht.1, Along.of_invariant hs as ht.2⟩

end Runs
