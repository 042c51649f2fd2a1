/-
An `Optional` after something was thrown.

`Sane` says that what is engaged has a `T` in it, and that of the objects made
in the storages those not destroyed are in one storage each. Assignment,
`emplace` and `swap` keep it wherever they throw, and so do the constructors in
place. Those that copy and move do not: the flag is set when `T` is yet to be
made, and the base's destructor destroys what is not there (`unwinds_iff`).
-/
import CxxHeaders.OptionalThrows
import CxxHeaders.OptionalRefines

open Outcome Throwing

namespace OptionalThrows

open Optional (Objects Config Act ofBool Tracked Agrees Holds)

variable {κ τ υ : Type} {T : ObjectType τ υ} {c : Config κ τ}

structure Sane (T : ObjectType τ υ) (c : Config κ τ) : Prop where
  live : ∀ x o, c.opt x = some o → o.containsValue = true → o.data.isSome
  tracked : T.triviallyDestructible = false → Tracked c

/-- What the object stands for. -/
def held (o : Optional τ) : Option τ := if o.containsValue then o.data.map Prod.snd else none

theorem sane_iff : Sane T c ↔ ∃ t, Agrees T c t := by
  constructor
  · intro h
    refine ⟨fun x => (c.opt x).map held, fun x => Option.isSome_map.symm, fun {x o m} ho hm => ?_, h.tracked⟩
    rw [ho, Option.map_some, Option.some.injEq] at hm
    subst hm
    unfold held
    cases hc : o.containsValue with
    | false => exact ⟨hc, nofun⟩
    | true =>
      obtain ⟨d, hd⟩ := Option.isSome_iff_exists.mp (h.live x o ho hc)
      rw [hd]
      refine ⟨hc, fun v hv => ⟨d.1, ?_⟩⟩
      cases hv
      exact hd
  · rintro ⟨t, h⟩
    refine ⟨fun x o ho hc => ?_, h.tracked⟩
    obtain ⟨m, -, hm⟩ := h.spec_some ho
    obtain ⟨id, v, -, hd, -⟩ := hm.object hc
    rw [hd]
    rfl

/-! ## The parts of the code -/

variable {x y : κ} {Q : Unit → Config κ τ → Prop} {E : Unit → Config κ τ → Prop}

@[simp] theorem ends_read {Q : Optional τ → Config κ τ → Prop} :
    Ends (read x) c Q E ↔ ∃ o, c.opt x = some o ∧ Q o c := by
  unfold read
  rw [ends_bind, ends_get]
  cases hx : c.opt x with
  | none => simp
  | some o => simp

@[simp] theorem ends_object {Q : Nat × τ → Config κ τ → Prop} :
    Ends (object x) c Q E ↔ ∃ o d, c.opt x = some o ∧ o.data = some d ∧ Q d c := by
  unfold object
  simp only [ends_bind, ends_read, ends_liftM]
  refine exists_congr fun o => ?_
  unfold Optional.object
  cases hd : o.data <;> simp

@[simp] theorem ends_mayThrow {fault : Option (Fault τ)} {call : Call} {left : Fault τ → Running κ τ Unit} :
    Ends (mayThrow fault call left) c Q E ↔
      (∀ f, fault = some f → f.call = call → Ends (left f) c (fun _ d => E () d) E) ∧
        (fault.map Fault.call ≠ some call → Q () c) := by
  cases fault with
  | none => simp [mayThrow]
  | some f =>
    unfold mayThrow
    by_cases hf : f.call = call
    · simp [hf]
    · simp [hf]

variable [DecidableEq κ]

@[simp] theorem ends_store {o : Optional τ} : Ends (store x o) c Q E ↔ Q () (c.set x (o, c.objects)) :=
  Iff.rfl

@[simp] theorem ends_leave : Ends (leave x) c Q E ↔ Q () { c with opt := Function.update c.opt x none } :=
  Iff.rfl

@[simp] theorem Config.set_set (c : Config κ τ) (x : κ) (r r' : Optional τ × Objects) :
    (c.set x r).set x r' = c.set x r' := by
  unfold Optional.Config.set
  rw [Function.update_idem]

@[simp] theorem ends_setContainsValue {v : Bool} : Ends (setContainsValue x v) c Q E ↔
    ∃ o, c.opt x = some o ∧ Q () (c.set x ({ o with containsValue := v }, c.objects)) := by
  simp [setContainsValue]

@[simp] theorem ends_setData {v : τ} : Ends (setData x v) c Q E ↔
    ∃ o d, c.opt x = some o ∧ o.data = some d ∧
      Q () (c.set x ({ o with data := some (d.1, v) }, c.objects)) := by
  unfold setData
  simp only [ends_bind, ends_object, ends_read, ends_store]
  refine exists_congr fun o => exists_congr fun d => and_congr_right fun hx => and_congr_right fun _ => ?_
  simp [hx]

@[simp] theorem ends_makeData {v : τ} : Ends (makeData x v) c Q E ↔
    ∃ o, c.opt x = some o ∧ Q () (c.set x
      ({ o with data := some (c.objects.made, v) }, { c.objects with made := c.objects.made + 1 })) := by
  simp [makeData, Optional.Config.set]

@[simp] theorem ends_destroyData : Ends (destroyData x) c Q E ↔
    ∃ o d, c.opt x = some o ∧ o.data = some d ∧ Q () (c.set x
      ({ o with data := none }, { c.objects with destroyed := d.1 :: c.objects.destroyed })) := by
  unfold destroyData
  simp only [ends_bind, ends_object, ends_read, ends_store, ends_modify]
  refine exists_congr fun o => exists_congr fun d => and_congr_right fun hx => and_congr_right fun _ => ?_
  simp [hx, Optional.Config.set]

theorem Config.set_set_comm (c : Config κ τ) (hxy : x ≠ y) (r r' r'' : Optional τ × Objects) :
    ((c.set x r).set y r').set x r'' = (c.set x (r''.1, r'.2)).set y (r'.1, r''.2) := by
  unfold Optional.Config.set
  simp only
  rw [Function.update_comm hxy, Function.update_idem, Function.update_comm hxy.symm]

theorem Config.set_eq {o : Optional τ} (hx : c.opt x = some o) : c.set x (o, c.objects) = c := by
  rw [Optional.Config.set, ← hx, Function.update_eq_self]

theorem ends_destructor_trivial (ht : T.triviallyDestructible = true) :
    Ends (destructor T x) c Q E ↔ Q () { c with opt := Function.update c.opt x none } := by
  simp [destructor, ht]

theorem ends_reset : Ends (reset T x) c Q E ↔
    ∃ o, c.opt x = some o ∧ (Optional.reset T c.objects o).Returns fun r => Q () (c.set x r) := by
  unfold reset Optional.reset
  cases T.triviallyDestructible with
  | true => simp
  | false =>
    simp only [Bool.false_eq_true, if_false, ends_bind, ends_read]
    refine exists_congr fun o => and_congr_right fun hx => ?_
    cases hc : o.containsValue with
    | false => simp [Config.set_eq hx]
    | true =>
      cases hd : o.data with
      | none => simp [hx, hd, Optional.destroy, Optional.object]
      | some d =>
        obtain ⟨id, v⟩ := d
        simp [hx, hd, Optional.destroy, Optional.object, Optional.empty]

theorem ends_destructor {o : Optional τ} (hx : c.opt x = some o) : Ends (destructor T x) c Q E ↔
    (Optional.destructor T c.objects o).Returns fun s => Q () ⟨Function.update c.opt x none, s⟩ := by
  unfold destructor Optional.destructor
  cases T.triviallyDestructible with
  | true => simp
  | false =>
    cases hc : o.containsValue with
    | false => simp [hx, hc]
    | true =>
      cases hd : o.data with
      | none => simp [hx, hc, hd, Optional.destroy, Optional.object]
      | some d =>
        obtain ⟨id, v⟩ := d
        simp [-Prod.exists, hx, hc, hd, Optional.destroy, Optional.object]

/-! ## What they keep -/

namespace Sane

variable {o p : Optional τ} {fault : Option (Fault τ)}

omit [DecidableEq κ] in
/-- An engaged object has a `T`. -/
theorem exists_data (h : Sane T c) (hx : c.opt x = some o) (hc : o.containsValue = true) :
    ∃ id v, o = ⟨some (id, v), true⟩ := by
  obtain ⟨d, hd⟩ := Option.isSome_iff_exists.mp (h.live x o hx hc)
  exact ⟨d.1, d.2, by rw [← hd, ← hc]⟩

/-- A `T` is made where there is none. -/
theorem made (h : Sane T c) (hx : ∀ o, c.opt x = some o → o.containsValue = false) (v : τ) :
    Sane T (c.set x
      (⟨some (c.objects.made, v), true⟩, { c.objects with made := c.objects.made + 1 })) := by
  obtain ⟨t, ht⟩ := sane_iff.mp h
  exact sane_iff.mpr ⟨_, ht.construct hx v⟩

theorem replace (h : Sane T c) {id : Nat} {u : τ} (hx : c.opt x = some ⟨some (id, u), true⟩) (v : τ) :
    Sane T (c.set x (⟨some (id, v), true⟩, c.objects)) := by
  obtain ⟨t, ht⟩ := sane_iff.mp h
  exact sane_iff.mpr ⟨_, ht.replace hx rfl v⟩

theorem assign (h : Sane T c) (hx : c.opt x = some o) (hc : o.containsValue = true) (v : τ) :
    Ends (assign fault x v) c (fun _ => Sane T) fun _ => Sane T := by
  obtain ⟨id, u, rfl⟩ := h.exists_data hx hc
  have hkeep := h.replace hx
  simp [OptionalThrows.assign, hx, hkeep]

theorem engage (h : Sane T c) (hx : c.opt x = some o) (hc : o.containsValue = false) (v : τ) :
    Ends (do construct fault x v; setContainsValue x true) c (fun _ => Sane T) fun _ => Sane T := by
  have hmade := h.made (x := x) (fun p hp => by rw [hx] at hp; cases hp; exact hc) v
  simp [construct, hx, h, hmade]

theorem put (h : Sane T c) (hx : c.opt x = some o) (v : τ) :
    Ends (put fault x v) c (fun _ => Sane T) fun _ => Sane T := by
  unfold OptionalThrows.put
  rw [ends_bind, ends_read]
  refine ⟨o, hx, ?_⟩
  cases hc : o.containsValue with
  | true => exact h.assign hx hc v
  | false => exact h.engage hx hc v

theorem reset (h : Sane T c) (hx : c.opt x = some o) : Ends (reset T x) c
    (fun _ d => Sane T d ∧ ∃ o, d.opt x = some o ∧ o.containsValue = false) fun _ _ => False := by
  obtain ⟨t, ht⟩ := sane_iff.mp h
  obtain ⟨r, hr, hc, hr'⟩ := ht.reset hx
  refine ends_reset.mpr ⟨o, hx, ?_⟩
  rw [hr]
  exact ⟨sane_iff.mpr ⟨_, hr'⟩, r.1, Function.update_self .., hc⟩

theorem copyAssign (h : Sane T c) (hx : c.opt x = some o) (hy : c.opt y = some p) :
    Ends (copyAssign T fault x y) c (fun _ => Sane T) fun _ => Sane T := by
  unfold OptionalThrows.copyAssign
  rw [ends_bind, ends_read]
  refine ⟨p, hy, ?_⟩
  cases hc : p.containsValue with
  | false => exact (h.reset hx).mono (fun _ _ hd => hd.1) fun _ _ he => he.elim
  | true =>
    obtain ⟨j, v, rfl⟩ := h.exists_data hy hc
    rw [if_pos rfl, ends_bind, ends_object]
    exact ⟨_, _, hy, rfl, h.put hx v⟩

theorem convertAssign (h : Sane T c) (hx : c.opt x = some o) (rhs : Option υ) :
    Ends (convertAssign T fault x rhs) c (fun _ => Sane T) fun _ => Sane T := by
  cases rhs with
  | none => exact (h.reset hx).mono (fun _ _ hd => hd.1) fun _ _ he => he.elim
  | some u => exact h.put hx _

theorem emplace (h : Sane T c) (hx : c.opt x = some o) (v : τ) :
    Ends (emplace T fault x v) c (fun _ => Sane T) fun _ => Sane T := by
  unfold OptionalThrows.emplace
  rw [ends_bind]
  refine (h.reset hx).mono (fun _ d hd => ?_) fun _ _ he => he.elim
  obtain ⟨hd, p, hp, hc⟩ := hd
  exact hd.engage hp hc v

/-! ### With two objects -/

theorem replaceBoth (h : Sane T c) (hxy : x ≠ y) {id j : Nat} {u v : τ}
    (hx : c.opt x = some ⟨some (id, u), true⟩) (hy : c.opt y = some ⟨some (j, v), true⟩) (a b : τ) :
    Sane T ((c.set x (⟨some (id, a), true⟩, c.objects)).set y (⟨some (j, b), true⟩, c.objects)) :=
  (h.replace hx a).replace (u := v) (by simp [hxy.symm, hy]) b

theorem moveAssignData (h : Sane T c) (hx : c.opt x = some o) (hy : c.opt y = some p)
    (hc : o.containsValue = true) (hcy : p.containsValue = true) :
    Ends (moveAssignData T fault x y) c (fun _ => Sane T) fun _ => Sane T := by
  obtain ⟨id, u, rfl⟩ := h.exists_data hx hc
  obtain ⟨j, v, rfl⟩ := h.exists_data hy hcy
  by_cases hxy : x = y
  · subst hxy
    rw [hx] at hy
    cases hy
    have hkeep := h.replace hx
    simp [OptionalThrows.moveAssignData, hx, hkeep]
  · have hboth := h.replaceBoth hxy hx hy
    simp [OptionalThrows.moveAssignData, hx, hy, hxy, Ne.symm hxy, hboth]

/-- One with no `T` takes it from the other one. -/
theorem moved (h : Sane T c) (hxy : x ≠ y) {j : Nat} {v : τ}
    (hx : ∀ o, c.opt x = some o → o.containsValue = false)
    (hy : c.opt y = some ⟨some (j, v), true⟩) (u : τ) :
    Sane T ((c.set x (⟨some (c.objects.made, v), true⟩, ⟨c.objects.made + 1, c.objects.destroyed⟩)).set y
      (⟨some (j, u), true⟩, ⟨c.objects.made + 1, c.objects.destroyed⟩)) := by
  refine (h.made hx v).replace (u := v) ?_ u
  simp [hxy.symm, hy]

theorem moveEngage (h : Sane T c) (hxy : x ≠ y) (hx : c.opt x = some o) (hy : c.opt y = some p)
    (hc : o.containsValue = false) (hcy : p.containsValue = true) :
    Ends (do moveConstruct T fault x y; setContainsValue x true) c (fun _ => Sane T) fun _ => Sane T := by
  obtain ⟨j, v, rfl⟩ := h.exists_data hy hcy
  have hkeep := h.replace hy
  have hmoved := h.moved hxy (fun p hp => by rw [hx] at hp; cases hp; exact hc) hy
  simp [-Prod.exists, moveConstruct, hx, hy, hxy, Ne.symm hxy, hkeep, hmoved, Config.set_set_comm]

theorem moveAssign (h : Sane T c) (hx : c.opt x = some o) (hy : c.opt y = some p) :
    Ends (moveAssign T fault x y) c (fun _ => Sane T) fun _ => Sane T := by
  unfold OptionalThrows.moveAssign
  simp only [ends_bind, ends_read]
  refine ⟨p, hy, ?_⟩
  cases hcy : p.containsValue with
  | false => exact (h.reset hx).mono (fun _ _ hd => hd.1) fun _ _ he => he.elim
  | true =>
    rw [if_pos rfl, ends_bind, ends_read]
    refine ⟨o, hx, ?_⟩
    cases hc : o.containsValue with
    | true => exact h.moveAssignData hx hy hc hcy
    | false =>
      have hxy : x ≠ y := by
        rintro rfl
        rw [hx] at hy
        cases hy
        rw [hc] at hcy
        cases hcy
      exact h.moveEngage hxy hx hy hc hcy

/-- The `T` that is there is destroyed. -/
theorem emptied (h : Sane T c) {j : Nat} {v : τ} (hx : c.opt x = some ⟨some (j, v), true⟩) :
    Sane T (c.set x (⟨none, false⟩, { c.objects with destroyed := j :: c.objects.destroyed })) := by
  obtain ⟨t, ht⟩ := sane_iff.mp h
  refine sane_iff.mpr ⟨_, ht.set (Optional.holds_empty rfl) fun htriv => ?_⟩
  refine (ht.tracked htriv).destroy ?_ fun p hp => ?_
  · rw [Optional.ids, hx]
    rfl
  · cases hp
    rfl

/-- The other one has none then. -/
theorem doMove (h : Sane T c) (hxy : x ≠ y) (hx : c.opt x = some o) (hy : c.opt y = some p)
    (hc : o.containsValue = false) (hcy : p.containsValue = true) :
    Ends (doMove T fault y x) c (fun _ => Sane T) fun _ => Sane T := by
  obtain ⟨j, v, rfl⟩ := h.exists_data hy hcy
  have hkeep := h.replace hy
  have hmade := h.made (x := x) (fun p hp => by rw [hx] at hp; cases hp; exact hc) v
  have hgiven := hmade.emptied (x := y) (j := j) (v := v) (by simp [hxy.symm, hy])
  simp [-Prod.exists, OptionalThrows.doMove, moveConstruct, hx, hy, hxy, Ne.symm hxy, hkeep,
    Config.set_set_comm]
  exact fun _ => hgiven

theorem swapData (h : Sane T c) (hx : c.opt x = some o) (hy : c.opt y = some p)
    (hc : o.containsValue = true) (hcy : p.containsValue = true) :
    Ends (swapData T fault x y) c (fun _ => Sane T) fun _ => Sane T := by
  obtain ⟨id, u, rfl⟩ := h.exists_data hx hc
  obtain ⟨j, v, rfl⟩ := h.exists_data hy hcy
  have hkeep := h.replace hx
  by_cases hxy : x = y
  · subst hxy
    rw [hx] at hy
    cases hy
    simp [-Prod.exists, OptionalThrows.swapData, OptionalThrows.moveAssignData, hx, hkeep]
  · have hboth := h.replaceBoth hxy hx hy
    simp [-Prod.exists, OptionalThrows.swapData, OptionalThrows.moveAssignData, hx, hy, hxy, Ne.symm hxy, hkeep, hboth]

theorem swap (h : Sane T c) (hx : c.opt x = some o) (hy : c.opt y = some p) :
    Ends (swap T fault x y) c (fun _ => Sane T) fun _ => Sane T := by
  have hne : o.containsValue ≠ p.containsValue → x ≠ y := by
    rintro hc rfl
    rw [hx] at hy
    cases hy
    exact hc rfl
  unfold OptionalThrows.swap
  simp only [ends_bind, ends_read]
  refine ⟨p, hy, ?_⟩
  cases hcy : p.containsValue with
  | true =>
    rw [if_pos rfl, ends_bind, ends_read]
    refine ⟨o, hx, ?_⟩
    cases hc : o.containsValue with
    | true => exact h.swapData hx hy hc hcy
    | false => exact h.doMove (hne (by simp [hc, hcy])) hx hy hc hcy
  | false =>
    simp only [Bool.false_eq_true, if_false, ends_bind, ends_read]
    refine ⟨o, hx, ?_⟩
    cases hc : o.containsValue with
    | true => exact h.doMove (hne (by simp [hc, hcy])).symm hy hx hcy hc
    | false => exact h

/-! ### Constructors and the destructor -/

theorem fresh (h : Sane T c) (hx : c.opt x = none) : Sane T (c.set x (ofBool false, c.objects)) := by
  obtain ⟨t, ht⟩ := sane_iff.mp h
  refine sane_iff.mpr ⟨_, ht.clear rfl fun _ => ⟨rfl, ?_⟩⟩
  rw [Optional.ids, hx]
  rfl

/-- What is trivial is copied as it is. -/
theorem copied (h : Sane T c) (htriv : T.triviallyDestructible = true) (hy : c.opt y = some p) :
    Sane T (c.set x (p, c.objects)) := by
  refine ⟨fun z o hz => ?_, fun ht => by rw [htriv] at ht; cases ht⟩
  by_cases hzx : z = x
  · subst hzx
    rw [Optional.Config.set_opt, Function.update_self] at hz
    cases hz
    exact h.live y p hy
  · rw [Optional.Config.set_opt, Function.update_of_ne hzx] at hz
    exact h.live z o hz

end Sane

/-- The construction of an object from `p`, should it throw, leaves nothing to
be destroyed. -/
def Spared (T : ObjectType τ υ) (fault : Option (Fault τ)) (p : Optional τ) : Prop :=
  T.triviallyDestructible = true ∨ fault.map Fault.call ≠ some .construction ∨ p.containsValue = false

theorem Spared.trivially {p : Optional τ} {fault : Option (Fault τ)} (h : Spared T fault p)
    (hc : p.containsValue = true) (f : Fault τ) (hf : fault = some f) (hcall : f.call = .construction) :
    T.triviallyDestructible = true := by
  rcases h with h | h | h
  · exact h
  · rw [hf, Option.map_some, hcall] at h
    exact absurd rfl h
  · rw [hc] at h
    cases h

/-- The object is there, or none was made or destroyed. -/
def Built (x : κ) (c d : Config κ τ) : Prop := (d.opt x).isSome ∨ d.objects = c.objects

def BuiltSane (T : ObjectType τ υ) (x : κ) (c d : Config κ τ) : Prop := Sane T d ∧ Built x c d

namespace Sane

variable {o p : Optional τ} {fault : Option (Fault τ)}

theorem inPlaceConstructor (h : Sane T c) (hx : c.opt x = none) (v : τ) :
    Ends (inPlaceConstructor fault x v) c (fun _ => BuiltSane T x c) fun _ => BuiltSane T x c := by
  have hmade := h.made (x := x) (fun p hp => by rw [hx] at hp; cases hp) v
  simp [OptionalThrows.inPlaceConstructor, ofBool, BuiltSane, Built, h, hmade]

/-- A constructor that copies or moves an engaged object. -/
theorem withBase {body : Running κ τ Unit}
    (hbody : Ends body (c.set x (ofBool true, c.objects)) (fun _ => BuiltSane T x c) fun _ d =>
      T.triviallyDestructible = true ∧ Sane T { d with opt := Function.update d.opt x none } ∧
        d.objects = c.objects) :
    Ends (withBase T x (ofBool true) body) c (fun _ => BuiltSane T x c) fun _ => BuiltSane T x c := by
  unfold OptionalThrows.withBase
  rw [ends_bind, ends_store, ends_tryCatch]
  refine hbody.mono (fun _ _ hd => hd) fun _ d hd => ?_
  rw [ends_bind, ends_destructor_trivial hd.1, ends_throw]
  exact ⟨hd.2.1, .inr hd.2.2⟩

theorem copyConstructor (h : Sane T c) (hx : c.opt x = none) (hy : c.opt y = some p)
    (hspared : T.triviallyCopyConstructible = true ∨ Spared T fault p) :
    Ends (copyConstructor T fault x y) c (fun _ => BuiltSane T x c) fun _ => BuiltSane T x c := by
  have hxy : y ≠ x := by
    rintro rfl
    rw [hx] at hy
    cases hy
  unfold OptionalThrows.copyConstructor
  rw [ends_bind, ends_read]
  refine ⟨p, hy, ?_⟩
  cases htriv : T.triviallyCopyConstructible with
  | true =>
    have hcopied := h.copied (x := x) (T.destructible_of_copy htriv) hy
    simp [BuiltSane, Built, hcopied]
  | false =>
    cases hc : p.containsValue with
    | false =>
      have hfresh := h.fresh hx
      simp [OptionalThrows.withBase, BuiltSane, Built, hfresh]
    | true =>
      obtain ⟨j, v, rfl⟩ := h.exists_data hy hc
      have hmade := h.made (x := x) (fun p hp => by rw [hx] at hp; cases hp) v
      have htrivial := (hspared.resolve_left (by simp [htriv])).trivially hc
      refine withBase ?_
      have hleave : Function.update c.opt x none = c.opt := Function.update_eq_self_iff.mpr hx.symm
      simp [-Prod.exists, construct, ofBool, hxy, hy, BuiltSane, Built, hmade, hleave, h]
      exact htrivial

theorem moveConstructor (h : Sane T c) (hx : c.opt x = none) (hy : c.opt y = some p)
    (hspared : T.triviallyMoveConstructible = true ∨ Spared T fault p) :
    Ends (moveConstructor T fault x y) c (fun _ => BuiltSane T x c) fun _ => BuiltSane T x c := by
  have hxy : y ≠ x := by
    rintro rfl
    rw [hx] at hy
    cases hy
  unfold OptionalThrows.moveConstructor
  rw [ends_bind, ends_read]
  refine ⟨p, hy, ?_⟩
  cases htriv : T.triviallyMoveConstructible with
  | true =>
    have hcopied := h.copied (x := x) (T.destructible_of_move htriv) hy
    simp [BuiltSane, Built, hcopied]
  | false =>
    cases hc : p.containsValue with
    | false =>
      have hfresh := h.fresh hx
      simp [OptionalThrows.withBase, BuiltSane, Built, hfresh]
    | true =>
      obtain ⟨j, v, rfl⟩ := h.exists_data hy hc
      have hmoved := h.moved (x := x) hxy.symm (fun p hp => by rw [hx] at hp; cases hp) hy
      have hkeep := h.replace hy
      have htrivial := (hspared.resolve_left (by simp [htriv])).trivially hc
      refine withBase ?_
      simp [-Prod.exists, moveConstruct, ofBool, hxy, hxy.symm, hy, BuiltSane, Built, hmoved]
      refine fun f hf hcall => ⟨htrivial f hf hcall, ?_⟩
      have hleave : Function.update (Function.update c.opt y (some ⟨some (j, f.source), true⟩)) x none =
          Function.update c.opt y (some ⟨some (j, f.source), true⟩) := by
        rw [Function.update_eq_self_iff, Function.update_of_ne hxy.symm, hx]
      rw [Function.update_comm hxy.symm, Function.update_idem, hleave]
      exact h.replace hy f.source

theorem destructor (h : Sane T c) (hx : c.opt x = some o) :
    Ends (destructor T x) c (fun _ => Sane T) fun _ _ => False := by
  obtain ⟨t, ht⟩ := sane_iff.mp h
  obtain ⟨m, hm, -⟩ := ht.spec_some hx
  have halike := Optional.destroy_alike ht x
  simp only [Optional.next, Optional.spec, hx, hm, pure_eq] at halike
  refine (ends_destructor hx).mpr ?_
  cases hd : Optional.destructor T c.objects o with
  | next s =>
    rw [hd] at halike
    exact sane_iff.mpr ⟨_, halike⟩
  | _ =>
    rw [hd] at halike
    exact halike

end Sane

/-! ## Steps -/

/-- The object that the step is to make. -/
def creates : Act κ τ υ → Option κ
  | .new x | .newValue x _ | .newOther x _ | .newBool x _ _ | .newConvert x _ | .newCopy x _
  | .newMove x _ => some x
  | _ => none

/-- What is engaged has a `T`, and a construction that failed has destroyed none. -/
structure Handled (T : ObjectType τ υ) (c : Config κ τ) (e : Event κ τ υ) (d : Config κ τ) : Prop where
  sane : Sane T d
  built : ∀ x, creates e.act = some x → Built x c d

/-- No `bool` is taken for the flag and says that there is a `T`, no empty
`Optional<U>` is looked into, and no `T` that is not there is destroyed. -/
def Safe (T : ObjectType τ υ) (c : Config κ τ) (e : Event κ τ υ) : Prop :=
  possible T c e.act = true → match e.act with
    | .newBool _ b direct => direct = true → b = false
    | .newConvert _ v => T.canGetValueFromOptional = none → v ≠ none
    | .newCopy _ y => T.triviallyCopyConstructible = true ∨ ∀ p, c.opt y = some p → Spared T e.fault p
    | .newMove _ y => T.triviallyMoveConstructible = true ∨ ∀ p, c.opt y = some p → Spared T e.fault p
    | _ => True

omit [DecidableEq κ] in
theorem Handled.of_builtSane {e : Event κ τ υ} {d : Config κ τ} (h : BuiltSane T x c d)
    (hx : creates e.act = some x) : Handled T c e d := by
  refine ⟨h.1, fun z hz => ?_⟩
  rw [hx, Option.some.injEq] at hz
  exact hz ▸ h.2

omit [DecidableEq κ] in
theorem Handled.of_sane {e : Event κ τ υ} {d : Config κ τ} (h : Sane T d) (hx : creates e.act = none) :
    Handled T c e d := by
  refine ⟨h, fun z hz => ?_⟩
  rw [hx] at hz
  cases hz

omit [DecidableEq κ] in
theorem possible_two {p q : Option (Optional τ)} (h : (p.isNone && q.isSome) = true) :
    p = none ∧ ∃ o, q = some o := by
  rw [Bool.and_eq_true, Option.isNone_iff_eq_none, Option.isSome_iff_exists] at h
  exact h

omit [DecidableEq κ] in
theorem possible_both {p q : Option (Optional τ)} (h : (p.isSome && q.isSome) = true) :
    (∃ o, p = some o) ∧ ∃ o, q = some o := by
  rw [Bool.and_eq_true, Option.isSome_iff_exists, Option.isSome_iff_exists] at h
  exact h

theorem code_ends (h : Sane T c) {e : Event κ τ υ} (hp : possible T c e.act = true) (hs : Safe T c e) :
    Ends (code T e.fault e.act) c (fun _ => Handled T c e) fun _ => Handled T c e := by
  obtain ⟨a, fault, nothrow⟩ := e
  have hs := hs hp
  have hbuilt : ∀ {x}, creates a = some x → ∀ {f : Running κ τ Unit},
      Ends f c (fun _ => BuiltSane T x c) (fun _ => BuiltSane T x c) →
      Ends f c (fun _ => Handled T c ⟨a, fault, nothrow⟩) fun _ => Handled T c ⟨a, fault, nothrow⟩ :=
    fun hx f hf => hf.mono (fun _ _ hd => .of_builtSane hd hx) fun _ _ hd => .of_builtSane hd hx
  have hkept : creates a = none → ∀ {f : Running κ τ Unit},
      Ends f c (fun _ => Sane T) (fun _ => Sane T) →
      Ends f c (fun _ => Handled T c ⟨a, fault, nothrow⟩) fun _ => Handled T c ⟨a, fault, nothrow⟩ :=
    fun hx f hf => hf.mono (fun _ _ hd => .of_sane hd hx) fun _ _ hd => .of_sane hd hx
  cases a with
  | new x =>
    have hx := Option.isNone_iff_eq_none.mp hp
    exact hbuilt rfl ⟨h.fresh hx, .inl (by simp)⟩
  | newValue x v => exact hbuilt rfl (h.inPlaceConstructor (Option.isNone_iff_eq_none.mp hp) v)
  | newOther x u => exact hbuilt rfl (h.inPlaceConstructor (Option.isNone_iff_eq_none.mp hp) _)
  | newBool x b direct =>
    have hx := Option.isNone_iff_eq_none.mp hp
    cases direct with
    | false => exact hbuilt rfl (h.inPlaceConstructor hx _)
    | true =>
      cases hs rfl
      exact hbuilt rfl ⟨h.fresh hx, .inl (by simp)⟩
  | newConvert x v =>
    have hx := Option.isNone_iff_eq_none.mp hp
    simp only [code, convertConstructor]
    cases hget : T.canGetValueFromOptional with
    | some f => exact hbuilt rfl (h.inPlaceConstructor hx _)
    | none =>
      cases v with
      | none => exact absurd rfl (hs hget)
      | some u => exact hbuilt rfl (h.inPlaceConstructor hx _)
  | newCopy x y =>
    obtain ⟨hx, p, hy⟩ := possible_two hp
    exact hbuilt rfl (h.copyConstructor hx hy (hs.imp_right fun hs => hs p hy))
  | newMove x y =>
    obtain ⟨hx, p, hy⟩ := possible_two hp
    exact hbuilt rfl (h.moveConstructor hx hy (hs.imp_right fun hs => hs p hy))
  | destroy x =>
    obtain ⟨o, hx⟩ := Option.isSome_iff_exists.mp hp
    exact hkept rfl ((h.destructor hx).mono (fun _ _ hd => hd) fun _ _ he => he.elim)
  | copyAssign x y =>
    obtain ⟨⟨o, hx⟩, p, hy⟩ := possible_both hp
    exact hkept rfl (h.copyAssign hx hy)
  | moveAssign x y =>
    obtain ⟨⟨o, hx⟩, p, hy⟩ := possible_both hp
    exact hkept rfl (h.moveAssign hx hy)
  | convertAssign x rhs =>
    rw [possible, Bool.and_eq_true] at hp
    obtain ⟨o, hx⟩ := Option.isSome_iff_exists.mp hp.2
    exact hkept rfl (h.convertAssign hx rhs)
  | reset x =>
    obtain ⟨o, hx⟩ := Option.isSome_iff_exists.mp hp
    exact hkept rfl ((h.reset hx).mono (fun _ _ hd => hd.1) fun _ _ he => he.elim)
  | emplace x v =>
    obtain ⟨o, hx⟩ := Option.isSome_iff_exists.mp hp
    exact hkept rfl (h.emplace hx v)
  | swap x y =>
    obtain ⟨⟨o, hx⟩, p, hy⟩ := possible_both hp
    exact hkept rfl (h.swap hx hy)

/-! ## Where a `T` is destroyed that was never made -/

theorem destroyData_fails {d : Config κ τ} (hx : d.opt x = some (ofBool true)) : Fails (destroyData x) d := by
  have hobject : Fails (object x) d := Fails.bind (ends_read.mpr ⟨_, hx, rfl⟩)
  exact hobject.bind_left _

theorem withBase_fails {body : Running κ τ Unit} (ht : T.triviallyDestructible = false)
    (hbody : Throws body (c.set x (ofBool true, c.objects)) fun _ d => d.opt x = some (ofBool true)) :
    Fails (withBase T x (ofBool true) body) c := by
  unfold withBase
  refine Fails.bind (ends_store.mpr (Fails.tryCatch (hbody.mono (fun _ _ hf => hf) fun e d hx => ?_)))
  refine Fails.bind_left ?_ _
  simp only [destructor, ht, Bool.not_false, if_true]
  exact Fails.bind (ends_read.mpr ⟨_, hx, (destroyData_fails hx).bind_left _⟩)

theorem not_spared {p : Optional τ} {fault : Option (Fault τ)} (h : ¬Spared T fault p) :
    T.triviallyDestructible = false ∧ (∃ f, fault = some f ∧ f.call = .construction) ∧
      p.containsValue = true := by
  simpa [Spared] using h

theorem copyConstructor_fails (h : Sane T c) {p : Optional τ} {fault : Option (Fault τ)} (hx : c.opt x = none)
    (hy : c.opt y = some p) (htriv : T.triviallyCopyConstructible = false) (hs : ¬Spared T fault p) :
    Fails (copyConstructor T fault x y) c := by
  obtain ⟨hd, ⟨f, rfl, hcall⟩, hc⟩ := not_spared hs
  obtain ⟨j, v, rfl⟩ := h.exists_data hy hc
  have hxy : y ≠ x := by
    rintro rfl
    rw [hx] at hy
    cases hy
  unfold copyConstructor
  refine Fails.bind (ends_read.mpr ⟨_, hy, ?_⟩)
  rw [htriv]
  refine withBase_fails hd ?_
  simp [Throws, construct, hxy, hy, hcall]

theorem moveConstructor_fails (h : Sane T c) {p : Optional τ} {fault : Option (Fault τ)} (hx : c.opt x = none)
    (hy : c.opt y = some p) (htriv : T.triviallyMoveConstructible = false) (hs : ¬Spared T fault p) :
    Fails (moveConstructor T fault x y) c := by
  obtain ⟨hd, ⟨f, rfl, hcall⟩, hc⟩ := not_spared hs
  obtain ⟨j, v, rfl⟩ := h.exists_data hy hc
  have hxy : y ≠ x := by
    rintro rfl
    rw [hx] at hy
    cases hy
  unfold moveConstructor
  refine Fails.bind (ends_read.mpr ⟨_, hy, ?_⟩)
  rw [htriv]
  refine withBase_fails hd ?_
  simp [Throws, moveConstruct, hxy, hxy.symm, hy, hcall]

theorem next_failed {e : Event κ τ υ} (hp : possible T c e.act = true) (hm : misdeclared e.act = false)
    (hf : Fails (code T e.fault e.act) c) : next T c e = .failed := by
  unfold next
  simp only [requiring_true hp, next_bind, hm, Bool.and_false, Bool.false_eq_true, if_false]
  unfold Fails at hf
  rw [hf]
  rfl

/-! ## Runs -/

theorem safe_iff (h : Sane T c) (e : Event κ τ υ) : Safe T c e ↔ (next T c e).Ok (Handled T c e) := by
  constructor
  · intro hs
    unfold next
    simp only [ok_bind, ok_requiring]
    intro hp
    refine ((code_ends h hp hs).ok_noexcept _).mono fun r hr => ?_
    obtain ⟨r, d⟩ := r
    cases r <;> exact hr
  · intro hok hp
    obtain ⟨a, fault, nothrow⟩ := e
    cases a with
    | newBool x b direct =>
      intro hdirect
      subst hdirect
      cases b with
      | false => rfl
      | true =>
        have hstep : next T c ⟨.newBool x true true, fault, nothrow⟩ = .next (c.set x (ofBool true, c.objects)) := by
          simp only [next, requiring_true hp, misdeclared, Bool.and_false, Bool.false_eq_true, if_false]
          rfl
        rw [hstep] at hok
        exact absurd (hok.sane.live x _ (Function.update_self ..) rfl) Bool.false_ne_true
    | newConvert x v =>
      intro hget hv
      subst hv
      have hfails : Fails (code T fault (.newConvert x none)) c := by
        simp only [code, convertConstructor, hget]
        rfl
      rw [next_failed hp rfl hfails] at hok
      exact hok
    | newCopy x y =>
      obtain ⟨hx, p, hy⟩ := possible_two hp
      by_contra hs
      simp only [hy, Option.some.injEq, forall_eq', not_or, Bool.not_eq_true] at hs
      rw [next_failed hp rfl (copyConstructor_fails h hx hy hs.1 hs.2)] at hok
      exact hok
    | newMove x y =>
      obtain ⟨hx, p, hy⟩ := possible_two hp
      by_contra hs
      simp only [hy, Option.some.injEq, forall_eq', not_or, Bool.not_eq_true] at hs
      rw [next_failed hp rfl (moveConstructor_fails h hx hy hs.1 hs.2)] at hok
      exact hok
    | _ => trivial

omit [DecidableEq κ] in
theorem init_sane : Sane T (Optional.init : Config κ τ) := sane_iff.mpr ⟨_, Optional.init_agrees⟩

/-- **In a run of operations that throw, each object that is left is empty or
has a `T`, a construction that failed has destroyed none, and the objects
destroyed in the storages are those made there, exactly if every step is
`Safe`.** -/
theorem unwinds_iff (T : ObjectType τ υ) (es : List (Event κ τ υ)) :
    Runs.Along (next T) (Handled T) Optional.init es ↔ Runs.Meets (next T) (Safe T) Optional.init es :=
  Runs.along_iff_meets (D := fun _ _ => True) (fun _ e h _ => safe_iff h e)
    (fun _ _ _ _ _ _ h => h.sane) init_sane (Runs.meets_true es)

/-- A copy whose `T` could not be made destroys one all the same. -/
theorem copy_not_handled :
    Runs.run (next Optional.counted) Optional.init
      [(⟨.newValue 0 7, none, false⟩ : Event Nat Nat Nat),
        ⟨.newCopy 1 0, some ⟨.construction, 0, 0⟩, false⟩] = .failed ∧
    ¬∀ es : List (Event Nat Nat Nat),
      Runs.Along (next Optional.counted) (Handled Optional.counted) Optional.init es := by
  have hrun : Runs.run (next Optional.counted) Optional.init
      [(⟨.newValue 0 7, none, false⟩ : Event Nat Nat Nat),
        ⟨.newCopy 1 0, some ⟨.construction, 0, 0⟩, false⟩] = .failed := rfl
  exact ⟨hrun, fun h => (h _).run_ne_failed hrun⟩

end OptionalThrows
