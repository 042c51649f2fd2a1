/-
Where nothing is thrown, the operations of an `Optional` do what they do in the
program in which nothing can be.
-/
import CxxHeaders.OptionalUnwinds

open Outcome Throwing

namespace OptionalThrows

open Optional (Objects Config Act ofBool)

variable {κ τ υ : Type} {T : ObjectType τ υ} {c : Config κ τ} [DecidableEq κ] {x y : κ}
  {Q : Unit → Config κ τ → Prop} {E : Unit → Config κ τ → Prop} {P : Config κ τ → Prop}

/-! ## What the other program returns -/

theorem make_returns {f : Objects → Outcome (Optional τ × Objects)} : (c.make x f).Returns P ↔
    c.opt x = none ∧ (f c.objects).Returns fun r => P (c.set x r) := by
  unfold Optional.Config.make
  cases hx : c.opt x with
  | none => simp [returns_bind]
  | some o => simp

theorem on_returns {f : Objects → Optional τ → Outcome (Optional τ × Objects)} : (c.on x f).Returns P ↔
    ∃ o, c.opt x = some o ∧ (f c.objects o).Returns fun r => P (c.set x r) := by
  unfold Optional.Config.on
  cases hx : c.opt x with
  | none => simp
  | some o => simp [returns_bind]

theorem onBoth_returns {f : Objects → Optional τ → Optional τ → Outcome (Optional τ × Optional τ × Objects)} :
    (c.onBoth x y f).Returns P ↔ ∃ o p, c.opt x = some o ∧ c.opt y = some p ∧
      (f c.objects o p).Returns fun r => P ((c.set x (r.1, r.2.2)).set y (r.2.1, r.2.2)) := by
  unfold Optional.Config.onBoth
  cases hx : c.opt x with
  | none => simp
  | some o =>
    cases hy : c.opt y with
    | none => simp
    | some p => simp [returns_bind]

/-! ## The parts of the code -/

theorem ends_put {v : τ} : Ends (put none x v) c Q E ↔
    ∃ o, c.opt x = some o ∧ (Optional.put c.objects o v).Returns fun r => Q () (c.set x r) := by
  unfold put Optional.put
  rw [ends_bind, ends_read]
  refine exists_congr fun o => and_congr_right fun hx => ?_
  cases hc : o.containsValue with
  | true =>
    cases hd : o.data <;> simp [-Prod.exists, assign, Optional.object, hx, hd, hc]
  | false => simp [construct, Optional.construct, hx]

theorem ends_inPlaceConstructor {v : τ} : Ends (inPlaceConstructor none x v) c Q E ↔
    Q () (c.set x (Optional.construct c.objects v)) := by
  simp [inPlaceConstructor, ofBool, Optional.construct]

theorem ends_emplace {v : τ} : Ends (emplace T none x v) c Q E ↔
    ∃ o, c.opt x = some o ∧ (Optional.emplace T c.objects o v).Returns fun r => Q () (c.set x r) := by
  unfold emplace Optional.emplace
  rw [ends_bind, ends_reset]
  refine exists_congr fun o => and_congr_right fun hx => ?_
  cases Optional.reset T c.objects o with
  | next r => simp [construct, Optional.construct]
  | _ => simp

theorem ends_copyAssign : Ends (copyAssign T none x y) c Q E ↔ ∃ copy, c.opt y = some copy ∧
    ∃ o, c.opt x = some o ∧ (Optional.copyAssign T c.objects o copy).Returns fun r => Q () (c.set x r) := by
  unfold copyAssign Optional.copyAssign
  rw [ends_bind, ends_read]
  refine exists_congr fun p => and_congr_right fun hy => ?_
  cases hc : p.containsValue with
  | true =>
    cases hd : p.data <;> simp [-Prod.exists, Optional.object, hy, hd, ends_put]
  | false => exact ends_reset

theorem ends_convertAssign {rhs : Option υ} : Ends (convertAssign T none x rhs) c Q E ↔
    ∃ o, c.opt x = some o ∧ (Optional.convertAssign T c.objects o rhs).Returns fun r => Q () (c.set x r) := by
  cases rhs with
  | none => exact ends_reset
  | some u => exact ends_put

theorem ends_copyConstructor (hx : c.opt x = none) : Ends (copyConstructor T none x y) c Q E ↔
    ∃ copy, c.opt y = some copy ∧
      (Optional.copyConstructor T c.objects copy).Returns fun r => Q () (c.set x r) := by
  unfold copyConstructor Optional.copyConstructor
  rw [ends_bind, ends_read]
  refine exists_congr fun p => and_congr_right fun hy => ?_
  have hxy : y ≠ x := by
    rintro rfl
    rw [hx] at hy
    cases hy
  cases T.triviallyCopyConstructible with
  | true => simp
  | false =>
    cases hc : p.containsValue with
    | true =>
      cases hd : p.data <;>
        simp [-Prod.exists, withBase, construct, ofBool, Optional.construct, Optional.object, hxy, hy, hd]
    | false => simp [withBase, ofBool, Optional.empty]

/-- Two objects, of which one stays as it is. -/
theorem set_set_eq (hxy : y ≠ x) {p : Optional τ} (hy : c.opt y = some p) (r : Optional τ × Objects) :
    (c.set x r).set y (p, r.2) = c.set x r :=
  Config.set_eq (c := c.set x r) (by simp [hxy, hy])

theorem ends_moveConstructor (hx : c.opt x = none) : Ends (moveConstructor T none x y) c Q E ↔
    ∃ move, c.opt y = some move ∧ (Optional.moveConstructor T c.objects move).Returns fun r =>
      Q () ((c.set x (r.1, r.2.2)).set y (r.2.1, r.2.2)) := by
  unfold moveConstructor Optional.moveConstructor
  rw [ends_bind, ends_read]
  refine exists_congr fun p => and_congr_right fun hy => ?_
  have hxy : y ≠ x := by
    rintro rfl
    rw [hx] at hy
    cases hy
  cases T.triviallyMoveConstructible with
  | true => simp [set_set_eq hxy hy (p, c.objects)]
  | false =>
    cases hc : p.containsValue with
    | true =>
      cases hd : p.data <;> simp [-Prod.exists, withBase, moveConstruct, ofBool, Optional.construct,
        Optional.object, hxy, hy, hd, hc]
    | false => simp [withBase, ofBool, Optional.empty, set_set_eq hxy hy (⟨none, false⟩, c.objects)]

theorem ends_moveAssign (hxy : x ≠ y) {o p : Optional τ} (hx : c.opt x = some o) (hy : c.opt y = some p) :
    Ends (moveAssign T none x y) c Q E ↔ (Optional.moveAssign T c.objects o p).Returns fun r =>
      Q () ((c.set x (r.1, r.2.2)).set y (r.2.1, r.2.2)) := by
  unfold moveAssign Optional.moveAssign
  simp only [ends_bind, ends_read, hy, Option.some.injEq, exists_eq_left']
  cases hcy : p.containsValue with
  | true =>
    cases hd : p.data <;> cases hdx : o.data <;> cases hc : o.containsValue <;>
      simp [-Prod.exists, moveAssignData, moveConstruct, Optional.put, Optional.object, Optional.construct,
        Config.set_set_comm, hx, hy, hxy, hxy.symm, hd, hdx, hc, hcy]
  | false =>
    simp [ends_reset, hx, returns_bind, set_set_eq hxy.symm hy]

theorem ends_selfMoveAssign {o : Optional τ} (hx : c.opt x = some o) :
    Ends (moveAssign T none x x) c Q E ↔
      (Optional.selfMoveAssign T c.objects o).Returns fun r => Q () (c.set x r) := by
  unfold moveAssign Optional.selfMoveAssign
  simp only [ends_bind, ends_read, hx, Option.some.injEq, exists_eq_left']
  cases hc : o.containsValue with
  | true =>
    cases hd : o.data <;> simp [-Prod.exists, moveAssignData, Optional.object, hx, hd, hc]
  | false => simp [ends_reset, hx]

theorem ends_doMove (hxy : x ≠ y) {o p : Optional τ} (hx : c.opt x = some o) (hy : c.opt y = some p) :
    Ends (doMove T none y x) c Q E ↔ (Optional.doMove c.objects p).Returns fun r =>
      Q () ((c.set x (r.1, r.2.2)).set y (r.2.1, r.2.2)) := by
  cases hd : p.data with
  | none => simp [doMove, moveConstruct, Optional.doMove, Optional.object, hy, hd]
  | some d =>
    simp [-Prod.exists, doMove, moveConstruct, Optional.doMove, Optional.destroy, Optional.object,
      Optional.construct, Optional.empty, Config.set_set_comm, hx, hy, hxy, hxy.symm, hd]
    rfl

theorem ends_swap (hxy : x ≠ y) {o p : Optional τ} (hx : c.opt x = some o) (hy : c.opt y = some p) :
    Ends (swap T none x y) c Q E ↔ (Optional.swap c.objects o p).Returns fun r =>
      Q () ((c.set x (r.1, r.2.2)).set y (r.2.1, r.2.2)) := by
  unfold swap Optional.swap
  simp only [ends_bind, ends_read, hy, Option.some.injEq, exists_eq_left']
  cases hcy : p.containsValue with
  | true =>
    simp only [if_true, ends_bind, ends_read, hx, Option.some.injEq, exists_eq_left']
    cases hc : o.containsValue with
    | true =>
      cases hd : p.data <;> cases hdx : o.data <;>
        simp [-Prod.exists, swapData, moveAssignData, Optional.object, hx, hy, hxy,
          hxy.symm, hd, hdx, hc, hcy]
    | false => exact ends_doMove hxy hx hy
  | false =>
    simp only [Bool.false_eq_true, if_false, ends_bind, ends_read, hx, Option.some.injEq, exists_eq_left']
    cases hc : o.containsValue with
    | true =>
      have hcomm : ∀ a b (s : Objects), (c.set y (a, s)).set x (b, s) = (c.set x (b, s)).set y (a, s) := by
        intro a b s
        unfold Optional.Config.set
        simp only
        rw [Function.update_comm hxy]
      simp only [if_true, ends_doMove hxy.symm hy hx, returns_bind, hcomm]
      rfl
    | false =>
      have hsame : (c.set x (o, c.objects)).set y (p, c.objects) = c := by
        rw [Config.set_eq hx, Config.set_eq hy]
      simp [hsame]

/-- An object swapped with itself gets its value back. -/
theorem ends_selfSwap (h : Sane T c) {o : Optional τ} (hx : c.opt x = some o) :
    Ends (swap T none x x) c Q E ↔ Q () c := by
  unfold swap
  simp only [ends_bind, ends_read, hx, Option.some.injEq, exists_eq_left']
  cases hc : o.containsValue with
  | true =>
    obtain ⟨id, v, rfl⟩ := h.exists_data hx hc
    have hsame := Config.set_eq hx
    simp [-Prod.exists, swapData, moveAssignData, hx, hsame]
  | false => simp [hx, hc]

/-! ## Steps -/

theorem code_none (h : Sane T c) (a : Act κ τ υ) {E : Unit → Config κ τ → Prop} :
    possible T c a = true ∧ Ends (code T none a) c (fun _ => P) E ↔ (Optional.next T c a).Returns P := by
  have hone : ∀ {x : κ} {C : Optional τ → Prop},
      (c.opt x).isSome = true ∧ (∃ o, c.opt x = some o ∧ C o) ↔ ∃ o, c.opt x = some o ∧ C o := by
    intro x C
    refine and_iff_right_of_imp ?_
    rintro ⟨o, ho, -⟩
    rw [ho]
    rfl
  cases a with
  | new x => simp [possible, code, Optional.next, make_returns, ofBool, Optional.empty]
  | newValue x v => simp [possible, code, Optional.next, make_returns, ends_inPlaceConstructor]
  | newOther x u => simp [possible, code, Optional.next, make_returns, ends_inPlaceConstructor]
  | newBool x b direct =>
    cases direct <;> simp [possible, code, Optional.next, make_returns, ends_inPlaceConstructor]
  | newConvert x v =>
    simp only [possible, code, Optional.next, make_returns, convertConstructor, Optional.convertConstructor]
    cases hget : T.canGetValueFromOptional with
    | some f => simp [ends_inPlaceConstructor]
    | none => cases v <;> simp [ends_inPlaceConstructor]
  | newCopy x y =>
    simp only [possible, code, Optional.next]
    cases hy : c.opt y with
    | none => simp
    | some p =>
      simp only [make_returns, Option.isSome_some, Bool.and_true, Option.isNone_iff_eq_none]
      refine and_congr_right fun hx => ?_
      simp [ends_copyConstructor hx, hy]
  | newMove x y =>
    simp only [possible, code, Optional.next]
    cases hx : c.opt x with
    | some o => simp
    | none =>
      cases hy : c.opt y with
      | none => simp
      | some p => simp [ends_moveConstructor hx, hy, returns_bind]
  | destroy x =>
    simp only [possible, code, Optional.next]
    cases hx : c.opt x with
    | none => simp
    | some o => simp [ends_destructor hx, returns_bind]
  | copyAssign x y =>
    simp only [possible, code, Optional.next, ends_copyAssign]
    cases hy : c.opt y with
    | none => simp
    | some p => simp only [on_returns, Option.isSome_some, Bool.and_true, Option.some.injEq, exists_eq_left', hone]
  | moveAssign x y =>
    simp only [possible, code, Optional.next]
    by_cases hxy : x = y
    · subst hxy
      cases hx : c.opt x with
      | none => simp [on_returns, hx]
      | some o => simp [on_returns, ends_selfMoveAssign hx, hx]
    · cases hx : c.opt x with
      | none => simp [onBoth_returns, hxy, hx]
      | some o =>
        cases hy : c.opt y with
        | none => simp [onBoth_returns, hxy, hx, hy]
        | some p => simp [onBoth_returns, ends_moveAssign hxy hx hy, hxy, hx, hy]
  | convertAssign x rhs =>
    simp only [possible, code, Optional.next, returns_bind, returns_requiring, on_returns, ends_convertAssign,
      Bool.and_eq_true, and_assoc, hone]
  | reset x => simp only [possible, code, Optional.next, on_returns, ends_reset, hone]
  | emplace x v => simp only [possible, code, Optional.next, on_returns, ends_emplace, hone]
  | swap x y =>
    simp only [possible, code, Optional.next]
    by_cases hxy : x = y
    · subst hxy
      cases hx : c.opt x with
      | none => simp [on_returns, hx]
      | some o => simp [on_returns, ends_selfSwap h hx, hx, Config.set_eq hx]
    · cases hx : c.opt x with
      | none => simp [onBoth_returns, hxy, hx]
      | some o =>
        cases hy : c.opt y with
        | none => simp [onBoth_returns, hxy, hx, hy]
        | some p => simp [onBoth_returns, ends_swap hxy hx hy, hxy, hx, hy]

/-- **The program in which nothing is thrown is the one in which nothing can be.** -/
theorem next_none (h : Sane T c) (a : Act κ τ υ) (b : Bool) (P : Config κ τ → Prop) :
    (next T c ⟨a, none, b⟩).Returns P ↔ (Optional.next T c a).Returns P := by
  unfold next
  rw [returns_bind, returns_requiring]
  simp only [returns_bind, pure_eq, returns_next]
  have hends : ∀ f : Running κ τ Unit, ((f.run.run c).Returns fun r => P r.2) ↔
      Ends f c (fun _ => P) fun _ => P := by
    intro f
    unfold Ends
    refine iff_of_eq (congrArg (fun Q => Outcome.Returns Q (f.run.run c)) (funext fun r => ?_))
    cases r.1 <;> rfl
  rw [hends]
  cases b && misdeclared a with
  | false => exact code_none h a
  | true =>
    rw [if_pos rfl, ends_noexcept]
    exact code_none h a

end OptionalThrows
