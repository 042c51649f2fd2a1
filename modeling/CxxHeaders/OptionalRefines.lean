/-
Optional objects are options, but for some of their constructors.

`spec` is the same program with options. `Agrees` says that each object holds
what its option does, and that of the objects made in the storages those not
destroyed are in one storage each (`Exclusive`). Every step keeps it, except
for a direct initialization from a `bool`, which is taken for the flag and
makes nothing, for a conversion from an empty `Optional<U>`, and for one to a
`T` that makes something else of an `Optional<U>` than of its value (`Sound`).
-/
import CxxHeaders.Optional
import CxxHeaders.Ownership

open Outcome

namespace Optional

variable {κ τ υ : Type}

/-! ## What an object holds -/

/-- The object stands for the option. -/
structure Holds (o : Optional τ) (m : Option τ) : Prop where
  engaged : o.containsValue = m.isSome
  value : ∀ v, m = some v → ∃ id, o.data = some (id, v)

theorem Holds.none_iff {o : Optional τ} {m : Option τ} (h : Holds o m) :
    o.containsValue = false ↔ m = none := by
  rw [h.engaged, Option.isSome_eq_false_iff, Option.isNone_iff_eq_none]

/-- An engaged object, and the `T` in it. -/
theorem Holds.object {o : Optional τ} {m : Option τ} (h : Holds o m) (hc : o.containsValue = true) :
    ∃ id v, m = some v ∧ o.data = some (id, v) ∧ o.object = .next (id, v) := by
  rw [h.engaged, Option.isSome_iff_exists] at hc
  obtain ⟨v, hv⟩ := hc
  obtain ⟨id, hid⟩ := h.value v hv
  exact ⟨id, v, hv, hid, by rw [Optional.object, hid]⟩

theorem holds_empty {o : Optional τ} (h : o.containsValue = false) : Holds o none := ⟨h, nofun⟩

theorem holds_construct (s : Objects) (v : τ) : Holds (construct s v).1 (some v) :=
  ⟨rfl, fun u hu => ⟨s.made, by rw [← Option.some.inj hu]; rfl⟩⟩

theorem holds_data {id : Nat} {v : τ} : Holds ⟨some (id, v), true⟩ (some v) :=
  ⟨rfl, fun u hu => ⟨id, by rw [← Option.some.inj hu]⟩⟩

/-! ## The objects in the storages -/

/-- The number of the object in the storage. -/
def ids (opt : κ → Option (Optional τ)) (x : κ) : Option Nat :=
  (opt x).bind fun o => o.data.map Prod.fst

def Alive (s : Objects) (id : Nat) : Prop := id < s.made ∧ id ∉ s.destroyed

/-- The objects not destroyed are in one storage each, no object was destroyed
twice, and there is none where `m_containsValue` says so. -/
structure Tracked (c : Config κ τ) : Prop where
  exclusive : Exclusive (ids c.opt) (Alive c.objects)
  once : c.objects.destroyed.Nodup
  made : ∀ id ∈ c.objects.destroyed, id < c.objects.made
  idle : ∀ x o, c.opt x = some o → o.containsValue = false → o.data = none

/-- Where the destructor of `T` does nothing, it does not matter when it is
called. -/
structure Agrees (T : ObjectType τ υ) (c : Config κ τ) (t : κ → Option (Option τ)) : Prop where
  isSome : ∀ x, (c.opt x).isSome = (t x).isSome
  holds : ∀ {x o m}, c.opt x = some o → t x = some m → Holds o m
  tracked : T.triviallyDestructible = false → Tracked c

variable {c : Config κ τ} {t : κ → Option (Option τ)} {x y : κ} {T : ObjectType τ υ}

theorem Tracked.ids_none (h : Tracked c) {o : Optional τ} (hx : c.opt x = some o)
    (hc : o.containsValue = false) : ids c.opt x = none := by
  rw [ids, hx, Option.bind_some, h.idle x o hx hc, Option.map_none]

theorem Agrees.opt_none (h : Agrees T c t) : c.opt x = none ↔ t x = none := by
  rw [← Option.isNone_iff_eq_none, ← Option.isNone_iff_eq_none, ← Option.not_isSome, ← Option.not_isSome,
    h.isSome]

theorem Agrees.spec_some (h : Agrees T c t) {o : Optional τ} (hx : c.opt x = some o) :
    ∃ m, t x = some m ∧ Holds o m := by
  have hsome : (t x).isSome = true := by
    rw [← h.isSome, hx]
    rfl
  obtain ⟨m, hm⟩ := Option.isSome_iff_exists.mp hsome
  exact ⟨m, hm, h.holds hx hm⟩

theorem init_agrees : Agrees T (init : Config κ τ) fun _ => none := by
  refine ⟨fun _ => rfl, fun ho => ?_, fun _ => ⟨?_, List.nodup_nil, fun _ hm => ?_, fun _ _ ho => ?_⟩⟩
  · cases ho
  · exact .nobody fun _ hr => Nat.not_lt_zero _ hr.1
  · cases hm
  · cases ho

/-! ## The program with options -/

variable [DecidableEq κ]

section

variable (T : ObjectType τ υ)

/-- Makes `x`. -/
def specMake (t : κ → Option (Option τ)) (x : κ) (m : Option τ) : Outcome (κ → Option (Option τ)) :=
  match t x with
  | some _ => .blocked
  | none => return Function.update t x (some m)

/-- Changes `x`. -/
def specOn (t : κ → Option (Option τ)) (x : κ) (f : Option τ → Option τ) :
    Outcome (κ → Option (Option τ)) :=
  match t x with
  | none => .blocked
  | some m => return Function.update t x (some (f m))

def spec (t : κ → Option (Option τ)) : Act κ τ υ → Outcome (κ → Option (Option τ))
  | .new x => specMake t x none
  | .newValue x v => specMake t x (some v)
  | .newOther x u => specMake t x (some (T.convert u))
  | .newBool x b _ => specMake t x (some (T.ofBool b))
  | .newCopy x y =>
    match t y with
    | none => .blocked
    | some m => specMake t x m
  | .newMove x y =>
    match t x, t y with
    | none, some m => return Function.update (Function.update t x (some m)) y (some (m.map T.moved))
    | _, _ => .blocked
  | .newConvert x v => specMake t x (v.map T.convert)
  | .destroy x =>
    match t x with
    | none => .blocked
    | some _ => return Function.update t x none
  | .copyAssign x y =>
    match t y with
    | none => .blocked
    | some m => specOn t x fun _ => m
  | .moveAssign x y =>
    if x = y then specOn t x (Option.map T.selfMoved)
    else
      match t x, t y with
      | some _, some m => return Function.update (Function.update t x (some m)) y (some (m.map T.moved))
      | _, _ => .blocked
  | .convertAssign x rhs => do
    requiring T.convertAssignable
    specOn t x fun _ => rhs.map T.convert
  | .reset x => specOn t x fun _ => none
  | .emplace x v => specOn t x fun _ => some v
  | .swap x y =>
    if x = y then specOn t x id
    else
      match t x, t y with
      | some m, some n => return Function.update (Function.update t x (some n)) y (some m)
      | _, _ => .blocked

end

/-! ## What becomes of the objects -/

theorem ids_update (opt : κ → Option (Optional τ)) (x : κ) (o : Option (Optional τ)) :
    ids (Function.update opt x o) =
      Function.update (ids opt) x (o.bind fun o => o.data.map Prod.fst) := by
  funext y
  by_cases h : y = x
  · subst h
    simp [ids]
  · simp [ids, Function.update_of_ne h]

theorem idle_update (h : ∀ y o, c.opt y = some o → o.containsValue = false → o.data = none)
    {o : Option (Optional τ)} (ho : ∀ p, o = some p → p.containsValue = false → p.data = none) (y : κ)
    (p : Optional τ) (hp : Function.update c.opt x o y = some p) (hc : p.containsValue = false) :
    p.data = none := by
  by_cases hy : y = x
  · subst hy
    rw [Function.update_self] at hp
    exact ho p hp hc
  · rw [Function.update_of_ne hy] at hp
    exact h y p hp hc

/-- Objects stay where they are. -/
theorem Tracked.keep (h : Tracked c) {o : Optional τ} (hid : o.data.map Prod.fst = ids c.opt x)
    (hc : o.containsValue = false → o.data = none) : Tracked (c.set x (o, c.objects)) := by
  refine ⟨?_, h.once, h.made, idle_update h.idle fun p hp => ?_⟩
  · show Exclusive (ids (Function.update c.opt x (some o))) _
    rw [ids_update, Option.bind_some, hid, Function.update_eq_self]
    exact h.exclusive
  · rw [← Option.some.inj hp]
    exact hc

/-- One is made where none is. -/
theorem Tracked.construct (h : Tracked c) (hid : ids c.opt x = none) (v : τ) :
    Tracked (c.set x (construct c.objects v)) := by
  refine ⟨?_, h.once, fun id hm => Nat.lt_succ_of_lt (h.made id hm), idle_update h.idle fun p hp => ?_⟩
  · show Exclusive (ids (Function.update c.opt x (some (Optional.construct c.objects v).1))) _
    rw [ids_update]
    refine h.exclusive.acquire hid (fun ha => Nat.lt_irrefl _ ha.1) fun id => ?_
    by_cases hm : id ∈ c.objects.destroyed
    · have hlt := h.made id hm
      simp [Alive, Optional.construct, hm, Nat.ne_of_lt hlt]
    · simp only [Alive, Config.set_objects, Optional.construct, hm, not_false_eq_true, and_true]
      omega
  · rw [← Option.some.inj hp]
    exact nofun

/-- The one that is there is destroyed. -/
theorem Tracked.destroy (h : Tracked c) {id : Nat} (hid : ids c.opt x = some id)
    {o : Option (Optional τ)}
    (ho : ∀ p, o = some p → p.data = none) :
    Tracked ⟨Function.update c.opt x o, { c.objects with destroyed := id :: c.objects.destroyed }⟩ := by
  obtain ⟨hlt, hm⟩ := h.exclusive.taken_of hid
  refine ⟨?_, List.nodup_cons.mpr ⟨hm, h.once⟩, ?_, idle_update h.idle fun p hp _ => ho p hp⟩
  · have hnone : (o.bind fun o => o.data.map Prod.fst) = none := by
      cases o with
      | none => rfl
      | some p => rw [Option.bind_some, ho p rfl, Option.map_none]
    show Exclusive (ids (Function.update c.opt x o)) _
    rw [ids_update, hnone]
    refine h.exclusive.drop fun r => ?_
    rw [hid, ne_eq, Option.some.injEq]
    simp only [Alive, List.mem_cons, not_or, and_assoc]
    exact and_congr_right fun _ =>
      ⟨fun hb => ⟨hb.2, fun he => hb.1 he.symm⟩, fun hb => ⟨fun he => hb.2 he.symm, hb.1⟩⟩
  · intro r hr
    rcases List.mem_cons.mp hr with he | hr
    · rw [he]
      exact hlt
    · exact h.made r hr

/-! ## What the parts of an operation do -/

namespace Agrees

theorem set (h : Agrees T c t) {r : Optional τ × Objects} {m : Option τ} (hr : Holds r.1 m)
    (ht : T.triviallyDestructible = false → Tracked (c.set x r)) :
    Agrees T (c.set x r) (Function.update t x (some m)) := by
  refine ⟨fun y => ?_, fun {y o n} ho hn => ?_, ht⟩
  · by_cases hy : y = x
    · subst hy
      simp [Config.set]
    · simp only [Config.set, Function.update_of_ne hy, h.isSome]
  · by_cases hy : y = x
    · subst hy
      simp only [Config.set, Function.update_self, Option.some.injEq] at ho hn
      exact ho ▸ hn ▸ hr
    · simp only [Config.set, Function.update_of_ne hy] at ho hn
      exact h.holds ho hn

/-- A `T` is made where none is. -/
theorem construct (h : Agrees T c t) (hx : ∀ o, c.opt x = some o → o.containsValue = false) (v : τ) :
    Agrees T (c.set x (construct c.objects v)) (Function.update t x (some (some v))) := by
  refine h.set (holds_construct _ v) fun ht => (h.tracked ht).construct ?_ v
  cases ho : c.opt x with
  | none => rw [ids, ho, Option.bind_none]
  | some o => exact (h.tracked ht).ids_none ho (hx o ho)

/-- The `T` that is there gets another value. -/
theorem replace (h : Agrees T c t) {o : Optional τ} {id : Nat} {u : τ} (hx : c.opt x = some o)
    (hd : o.data = some (id, u)) (v : τ) :
    Agrees T (c.set x (⟨some (id, v), true⟩, c.objects)) (Function.update t x (some (some v))) := by
  refine h.set holds_data fun ht => (h.tracked ht).keep ?_ nofun
  rw [ids, hx, Option.bind_some, hd]
  rfl

/-- An object without a `T` in it. -/
theorem clear (h : Agrees T c t) {o : Optional τ} (hc : o.containsValue = false)
    (hid : T.triviallyDestructible = false → o.data = none ∧ ids c.opt x = none) :
    Agrees T (c.set x (o, c.objects)) (Function.update t x (some none)) := by
  refine h.set (holds_empty hc) fun ht => ?_
  obtain ⟨hd, hi⟩ := hid ht
  exact (h.tracked ht).keep (by rw [hd, hi]; rfl) fun _ => hd

theorem reset (h : Agrees T c t) {o : Optional τ} (hx : c.opt x = some o) :
    ∃ r, Optional.reset T c.objects o = .next r ∧ r.1.containsValue = false ∧
      Agrees T (c.set x r) (Function.update t x (some none)) := by
  unfold Optional.reset
  cases htriv : T.triviallyDestructible with
  | true => exact ⟨_, rfl, rfl, h.clear rfl fun ht => by rw [htriv] at ht; cases ht⟩
  | false =>
    have htr := h.tracked htriv
    cases hc : o.containsValue with
    | false => exact ⟨_, rfl, hc, h.clear hc fun _ => ⟨htr.idle x o hx hc, htr.ids_none hx hc⟩⟩
    | true =>
      obtain ⟨m, hm, ho⟩ := h.spec_some hx
      obtain ⟨id, v, -, hd, hobj⟩ := ho.object hc
      refine ⟨_, by simp [Optional.destroy, hobj]; rfl, rfl, h.set (holds_empty rfl) fun _ => ?_⟩
      refine htr.destroy ?_ fun p hp => ?_
      · rw [ids, hx, Option.bind_some, hd]
        rfl
      · rw [← Option.some.inj hp]
        rfl

theorem put (h : Agrees T c t) {o : Optional τ} (hx : c.opt x = some o) (v : τ) :
    ∃ r, Optional.put c.objects o v = .next r ∧ Agrees T (c.set x r)
    (Function.update t x (some (some v))) := by
  unfold Optional.put
  cases hc : o.containsValue with
  | false =>
    refine ⟨_, rfl, h.construct (fun p hp => ?_) v⟩
    rw [hx, Option.some.injEq] at hp
    rwa [← hp]
  | true =>
    obtain ⟨m, hm, ho⟩ := h.spec_some hx
    obtain ⟨id, u, -, hd, hobj⟩ := ho.object hc
    refine ⟨(⟨some (id, v), true⟩, c.objects), ?_, h.replace hx hd v⟩
    simp [hobj]

/-- What is left where a value was moved out. -/
theorem leave (h : Agrees T c t) {o : Optional τ} {id : Nat} {v : τ} (hx : c.opt x = some o)
    (hc : o.containsValue = true) (hd : o.data = some (id, v)) (f : τ → τ) {m : Option τ}
    (hm : m = some v) :
    Agrees T (c.set x ({ o with data := some (id, f v) }, c.objects))
      (Function.update t x (some (m.map f))) := by
  rw [hm, hc]
  exact h.replace hx hd (f v)

/-- Nothing changes. -/
theorem same (h : Agrees T c t) {o : Optional τ} {m : Option τ} (hx : c.opt x = some o)
    (ht : t x = some m) :
    Agrees T (c.set x (o, c.objects)) (Function.update t x (some m)) := by
  have hc : c.set x (o, c.objects) = c := by
    rw [Config.set, ← hx, Function.update_eq_self]
  rw [hc, ← ht, Function.update_eq_self]
  exact h

end Agrees

/-! ## The steps -/

theorem make_alike (h : Agrees T c t) {m : Option τ} {f : Objects → Outcome (Optional τ × Objects)}
    (hf : c.opt x = none →
      ∃ r, f c.objects = .next r ∧ Agrees T (c.set x r) (Function.update t x (some m))) :
    Alike (Agrees T) (c.make x f) (specMake t x m) := by
  unfold Config.make specMake
  cases hx : c.opt x with
  | none =>
    rw [h.opt_none.mp hx]
    obtain ⟨r, hr, ha⟩ := hf hx
    simp only [hr, next_bind, pure_eq]
    exact ha
  | some o =>
    obtain ⟨m, hm, -⟩ := h.spec_some hx
    rw [hm]
    trivial

theorem on_alike (h : Agrees T c t) {f : Objects → Optional τ → Outcome (Optional τ × Objects)}
    {g : Option τ → Option τ} (hf : ∀ o m, c.opt x = some o → t x = some m → Holds o m →
      ∃ r, f c.objects o = .next r ∧ Agrees T (c.set x r) (Function.update t x (some (g m)))) :
    Alike (Agrees T) (c.on x f) (specOn t x g) := by
  unfold Config.on specOn
  cases hx : c.opt x with
  | none =>
    rw [h.opt_none.mp hx]
    trivial
  | some o =>
    obtain ⟨m, hm, ho⟩ := h.spec_some hx
    rw [hm]
    obtain ⟨r, hr, ha⟩ := hf o m hx hm ho
    simp only [hr, next_bind, pure_eq]
    exact ha

theorem onBoth_alike (h : Agrees T c t)
    {f : Objects → Optional τ → Optional τ → Outcome (Optional τ × Optional τ × Objects)}
    {g : Option τ → Option τ → Option τ × Option τ}
    (hf : ∀ o p m n, c.opt x = some o → c.opt y = some p → t x = some m → t y = some n → Holds o m →
      Holds p n → ∃ r, f c.objects o p = .next r ∧
        Agrees T ((c.set x (r.1, r.2.2)).set y (r.2.1, r.2.2))
          (Function.update (Function.update t x (some (g m n).1)) y (some (g m n).2))) :
    Alike (Agrees T) (c.onBoth x y f) (match t x, t y with
      | some m, some n =>
        return Function.update (Function.update t x (some (g m n).1)) y (some (g m n).2)
      | _, _ => .blocked) := by
  unfold Config.onBoth
  cases hx : c.opt x with
  | none =>
    rw [h.opt_none.mp hx]
    trivial
  | some o =>
    obtain ⟨m, hm, ho⟩ := h.spec_some hx
    cases hy : c.opt y with
    | none =>
      rw [hm, h.opt_none.mp hy]
      trivial
    | some p =>
      obtain ⟨n, hn, hp⟩ := h.spec_some hy
      obtain ⟨r, hr, ha⟩ := hf o p m n hx hy hm hn ho hp
      rw [hm, hn]
      simp only [hr, next_bind, pure_eq]
      exact ha

theorem copyConstructor_ok (h : Agrees T c t) {copy : Optional τ} {m : Option τ} (hm : Holds copy m)
    (hx : c.opt x = none) : ∃ r, copyConstructor T c.objects copy = .next r ∧
      Agrees T (c.set x r) (Function.update t x (some m)) := by
  have hfree : ∀ o, c.opt x = some o → o.containsValue = false := fun o ho => by
    rw [hx] at ho
    cases ho
  unfold copyConstructor
  cases htriv : T.triviallyCopyConstructible with
  | true =>
    refine ⟨_, rfl, h.set hm fun ht => ?_⟩
    rw [T.destructible_of_copy htriv] at ht
    cases ht
  | false =>
    cases hc : copy.containsValue with
    | false =>
      rw [hm.none_iff.mp hc]
      exact ⟨_, rfl, h.clear rfl fun _ => ⟨rfl, by rw [ids, hx, Option.bind_none]⟩⟩
    | true =>
      obtain ⟨id, v, hv, -, hobj⟩ := hm.object hc
      refine ⟨construct c.objects v, by simp [hobj], ?_⟩
      rw [hv]
      exact h.construct hfree v

theorem newMove_alike (h : Agrees T c t) (x y : κ) :
    Alike (Agrees T) (next T c (.newMove x y)) (spec T t (.newMove x y)) := by
  simp only [next, spec]
  cases hx : c.opt x with
  | some o =>
    obtain ⟨m, hm, -⟩ := h.spec_some hx
    rw [hm]
    trivial
  | none =>
    rw [h.opt_none.mp hx]
    cases hy : c.opt y with
    | none =>
      rw [h.opt_none.mp hy]
      trivial
    | some move =>
      obtain ⟨m, hm, ho⟩ := h.spec_some hy
      rw [hm]
      have hfree : ∀ o, c.opt x = some o → o.containsValue = false := fun o ho => by
        rw [hx] at ho
        cases ho
      have hyx : y ≠ x := by
        rintro rfl
        rw [hx] at hy
        cases hy
      have hkeep : ∀ r, (c.set x r).opt y = some move := fun r => by
        rw [Config.set_opt, Function.update_of_ne hyx, hy]
      simp only
      unfold moveConstructor
      cases htriv : T.triviallyMoveConstructible with
      | true =>
        have hd := T.destructible_of_move htriv
        have hnot : T.triviallyDestructible = false → False := fun ht => by
          rw [hd] at ht
          cases ht
        have hmoved : m.map T.moved = m := by
          cases m with
          | none => rfl
          | some v => exact congrArg some (T.moved_eq htriv v)
        rw [hmoved]
        exact (h.set (r := (move, c.objects)) ho fun ht => (hnot ht).elim).set ho
          fun ht => (hnot ht).elim
      | false =>
        cases hc : move.containsValue with
        | false =>
          have hnone := ho.none_iff.mp hc
          have hclear :=
            h.clear (x := x) (o := empty) rfl fun _ => ⟨rfl, by rw [ids, hx, Option.bind_none]⟩
          rw [hnone] at hm ⊢
          have hmy : Function.update t x (some none) y = some none :=
            by rw [Function.update_of_ne hyx, hm]
          exact hclear.same (hkeep _) hmy
        | true =>
          obtain ⟨id, v, hv, hd, hobj⟩ := ho.object hc
          simp only [hobj, hv, if_true, Bool.false_eq_true, if_false, next_bind, pure_eq]
          have hleave := (h.construct hfree v).leave (hkeep _) hc hd T.moved rfl
          rw [hc] at hleave
          exact hleave

theorem moveAssign_alike (h : Agrees T c t) (hxy : x ≠ y) :
    Alike (Agrees T) (c.onBoth x y (moveAssign T)) (match t x, t y with
      | some _, some n =>
        return Function.update (Function.update t x (some n)) y (some (n.map T.moved))
      | _, _ => .blocked) := by
  refine onBoth_alike (g := fun _ n => (n, n.map T.moved)) h fun o move m n hx hy hm hn ho hp => ?_
  have hkeep : ∀ r, (c.set x r).opt y = some move := fun r => by
    rw [Config.set_opt, Function.update_of_ne hxy.symm, hy]
  unfold moveAssign
  cases hc : move.containsValue with
  | false =>
    obtain ⟨r, hr, -, ha⟩ := h.reset hx
    have hnone := hp.none_iff.mp hc
    have hny : Function.update t x (some none) y = some none := by
      rw [Function.update_of_ne hxy.symm, hn, hnone]
    refine ⟨(r.1, move, r.2), by simp [hr], ?_⟩
    rw [hnone]
    exact ha.same (hkeep _) hny
  | true =>
    obtain ⟨id, v, hv, hd, hobj⟩ := hp.object hc
    obtain ⟨r, hr, ha⟩ := h.put hx v
    refine ⟨(r.1, { move with data := some (id, T.moved v) }, r.2), by simp [hobj, hr, hc], ?_⟩
    rw [hv]
    exact ha.leave (hkeep _) hc hd T.moved rfl

/-- One gives its `T` to the other, which has none. -/
theorem doMove_ok (h : Agrees T c t) (hxy : x ≠ y) {o p : Optional τ} {v : τ}
    (hx : c.opt x = some o) (hy : c.opt y = some p) (hc : o.containsValue = false)
    (hcp : p.containsValue = true) (hp : Holds p (some v)) :
    ∃ r, doMove c.objects p = .next r ∧ r.2.1.containsValue = false ∧
      Agrees T ((c.set x (r.1, r.2.2)).set y (r.2.1, r.2.2))
        (Function.update (Function.update t x (some (some v))) y (some none)) := by
  obtain ⟨id, u, hu, hd, hobj⟩ := hp.object hcp
  cases hu
  have hfree : ∀ q, c.opt x = some q → q.containsValue = false := fun q hq => by
    rw [hx, Option.some.injEq] at hq
    rwa [← hq]
  have hmade := h.construct hfree v
  have hkeep : (c.set x (construct c.objects v)).opt y = some p := by
    rw [Config.set_opt, Function.update_of_ne hxy.symm, hy]
  refine ⟨_, by simp [doMove, hobj, destroy]; rfl, rfl, ?_⟩
  refine (hmade.set (x := y) (r := (empty, { (construct c.objects v).2 with
    destroyed := id :: c.objects.destroyed })) (holds_empty rfl) fun ht => ?_)
  refine (hmade.tracked ht).destroy ?_ fun q hq => ?_
  · rw [ids, hkeep, Option.bind_some, hd]
    rfl
  · rw [← Option.some.inj hq]
    rfl

theorem swap_alike (h : Agrees T c t) (hxy : x ≠ y) :
    Alike (Agrees T) (c.onBoth x y swap) (match t x, t y with
      | some m, some n => return Function.update (Function.update t x (some n)) y (some m)
      | _, _ => .blocked) := by
  refine onBoth_alike (g := fun m n => (n, m)) h fun o rhs m n hx hy hm hn ho hp => ?_
  have hkeep : ∀ r, (c.set x r).opt y = some rhs := fun r => by
    rw [Config.set_opt, Function.update_of_ne hxy.symm, hy]
  unfold swap
  cases hcy : rhs.containsValue with
  | false =>
    have hn' := hp.none_iff.mp hcy
    cases hcx : o.containsValue with
    | false =>
      have hm' := ho.none_iff.mp hcx
      subst hn' hm'
      exact ⟨(o, rhs, c.objects), rfl, (h.same hx hm).same (hkeep _)
        (by rw [Function.update_of_ne hxy.symm, hn])⟩
    | true =>
      obtain ⟨v, hv⟩ : ∃ v, m = some v := by
        obtain ⟨-, v, hv, -⟩ := ho.object hcx
        exact ⟨v, hv⟩
      subst hn' hv
      obtain ⟨r, hr, -, ha⟩ := doMove_ok h hxy.symm hy hx hcy hcx ho
      refine ⟨(r.2.1, r.1, r.2.2), by simp [hr], ?_⟩
      simp only [Config.set, Function.update_comm hxy.symm] at ha ⊢
      exact ha
  | true =>
    obtain ⟨j, u, hu, hdy, hoy⟩ := hp.object hcy
    subst hu
    cases hcx : o.containsValue with
    | false =>
      have hm' := ho.none_iff.mp hcx
      subst hm'
      obtain ⟨r, hr, -, ha⟩ := doMove_ok h hxy hx hy hcx hcy hp
      exact ⟨r, by simp [hr], ha⟩
    | true =>
      obtain ⟨i, v, hv, hdx, hox⟩ := ho.object hcx
      subst hv
      refine ⟨(⟨some (i, u), true⟩, ⟨some (j, v), true⟩, c.objects), by simp [hox, hoy], ?_⟩
      exact (h.replace hx hdx u).replace (hkeep _) hdy v

theorem destroy_alike (h : Agrees T c t) (x : κ) :
    Alike (Agrees T) (next T c (.destroy x)) (spec T t (.destroy x)) := by
  simp only [next, spec]
  cases hx : c.opt x with
  | none =>
    rw [h.opt_none.mp hx]
    trivial
  | some o =>
    obtain ⟨m, hm, ho⟩ := h.spec_some hx
    rw [hm]
    have hgone : ∀ s, (T.triviallyDestructible = false → Tracked ⟨Function.update c.opt x none, s⟩) →
        Agrees T ⟨Function.update c.opt x none, s⟩ (Function.update t x none) := by
      intro s hs
      refine ⟨fun z => ?_, fun {z p n} hp hn => ?_, hs⟩
      · by_cases hz : z = x
        · subst hz
          simp
        · simp only [Function.update_of_ne hz, h.isSome]
      · by_cases hz : z = x
        · subst hz
          simp only [Function.update_self, reduceCtorEq] at hp
        · simp only [Function.update_of_ne hz] at hp hn
          exact h.holds hp hn
    simp only
    unfold destructor
    cases htriv : T.triviallyDestructible with
    | true => exact hgone _ fun ht => by rw [htriv] at ht; cases ht
    | false =>
      have htr := h.tracked htriv
      cases hc : o.containsValue with
      | false =>
        refine hgone _ fun _ => ⟨?_, htr.once, htr.made, idle_update htr.idle fun p hp => by cases hp⟩
        rw [ids_update, Option.bind_none, ← htr.ids_none hx hc, Function.update_eq_self]
        exact htr.exclusive
      | true =>
        obtain ⟨id, v, -, hd, hobj⟩ := ho.object hc
        have hid : ids c.opt x = some id := by
          rw [ids, hx, Option.bind_some, hd]
          rfl
        simp only [destroy, hobj, Bool.false_eq_true, if_true, if_false, next_bind, pure_eq]
        exact hgone _ fun _ => htr.destroy hid fun p hp => by cases hp

/-- What an `Optional<U>` converts to is what its value converts to: there is
one, and where `T` takes the `Optional<U>` itself, it makes the same of it. -/
def Converts (T : ObjectType τ υ) (v : Option υ) : Prop :=
  ∃ u, v = some u ∧ ∀ f, T.canGetValueFromOptional = some f → f v = T.convert u

/-- Where a step does what it does to options. Of two constructors one takes
its argument for the flag, and the other does not look at it. -/
def Sound (T : ObjectType τ υ) (s : Config κ τ × (κ → Option (Option τ))) : Act κ τ υ → Prop
  | .newBool x _ direct => s.1.opt x = none → direct = false
  | .newConvert x v => s.1.opt x = none → Converts T v
  | _ => True

theorem convertConstructor_ok (h : Agrees T c t) {v : Option υ} (hv : Converts T v) (hx : c.opt x = none) :
    ∃ r, convertConstructor T c.objects v = .next r ∧
      Agrees T (c.set x r) (Function.update t x (some (v.map T.convert))) := by
  obtain ⟨u, rfl, hsame⟩ := hv
  refine ⟨construct c.objects (T.convert u), ?_, h.construct (fun o ho => ?_) _⟩
  · unfold convertConstructor
    cases hget : T.canGetValueFromOptional with
    | none => rfl
    | some f => exact congrArg (fun v => Outcome.next (construct c.objects v)) (hsame f hget)
  · rw [hx] at ho
    cases ho

/-- What a conversion makes stands for an option only where that is its value. -/
theorem convertConstructor_converts {v : Option υ} {r : Optional τ × Objects}
    (hr : convertConstructor T c.objects v = .next r)
    (h : Agrees T (c.set x r) (Function.update t x (some (v.map T.convert)))) : Converts T v := by
  unfold convertConstructor at hr
  split at hr
  · next f hget =>
    cases hr
    have hholds := h.holds (x := x) (Function.update_self ..) (Function.update_self ..)
    obtain ⟨w, hw⟩ := Option.isSome_iff_exists.mp hholds.engaged.symm
    obtain ⟨u, rfl, rfl⟩ := Option.map_eq_some_iff.mp hw
    obtain ⟨id, hid⟩ := hholds.value _ hw
    refine ⟨u, rfl, fun g hg => ?_⟩
    rw [hget, Option.some.injEq] at hg
    rw [← hg]
    exact congrArg Prod.snd (Option.some.inj hid)
  · cases hr
  · next u hget => exact ⟨u, rfl, fun g hg => by rw [hget] at hg; cases hg⟩

theorem next_alike (h : Agrees T c t) (a : Act κ τ υ) (ha : Sound T (c, t) a) :
    Alike (Agrees T) (next T c a) (spec T t a) := by
  have hfree : ∀ {x}, c.opt x = none → ∀ o, c.opt x = some o → o.containsValue = false :=
    fun hx o ho => by
      rw [hx] at ho
      cases ho
  cases a with
  | new x =>
    simp only [next, spec]
    exact make_alike h fun hx =>
      ⟨(empty, c.objects), rfl, h.clear rfl fun _ => ⟨rfl, by rw [ids, hx, Option.bind_none]⟩⟩
  | newValue x v =>
    simp only [next, spec]
    exact make_alike h fun hx => ⟨construct c.objects v, rfl, h.construct (hfree hx) v⟩
  | newOther x u =>
    simp only [next, spec]
    exact make_alike h fun hx => ⟨construct c.objects (T.convert u), rfl, h.construct (hfree hx) _⟩
  | newBool x b direct =>
    simp only [next, spec]
    refine make_alike h fun hx => ?_
    cases ha hx
    exact ⟨construct c.objects (T.ofBool b), rfl, h.construct (hfree hx) _⟩
  | newCopy x y =>
    simp only [next, spec]
    cases hy : c.opt y with
    | none =>
      rw [h.opt_none.mp hy]
      trivial
    | some copy =>
      obtain ⟨m, hm, ho⟩ := h.spec_some hy
      rw [hm]
      exact make_alike h (copyConstructor_ok h ho)
  | newMove x y => exact newMove_alike h x y
  | newConvert x v =>
    simp only [next, spec]
    exact make_alike h fun hx => convertConstructor_ok h (ha hx) hx
  | destroy x => exact destroy_alike h x
  | copyAssign x y =>
    simp only [next, spec]
    cases hy : c.opt y with
    | none =>
      rw [h.opt_none.mp hy]
      trivial
    | some copy =>
      obtain ⟨n, hn, hp⟩ := h.spec_some hy
      rw [hn]
      refine on_alike h fun o m hx _ _ => ?_
      unfold copyAssign
      cases hc : copy.containsValue with
      | false =>
        obtain ⟨r, hr, -, ha⟩ := h.reset hx
        rw [hp.none_iff.mp hc]
        exact ⟨r, by simp [hr], ha⟩
      | true =>
        obtain ⟨id, v, hv, -, hobj⟩ := hp.object hc
        obtain ⟨r, hr, ha⟩ := h.put hx v
        rw [hv]
        exact ⟨r, by simp [hobj, hr], ha⟩
  | moveAssign x y =>
    simp only [next, spec]
    by_cases hxy : x = y
    · rw [if_pos hxy, if_pos hxy]
      refine on_alike h fun o m hx hm ho => ?_
      unfold selfMoveAssign
      cases hc : o.containsValue with
      | false =>
        obtain ⟨r, hr, -, ha⟩ := h.reset hx
        rw [ho.none_iff.mp hc]
        exact ⟨r, by simp [hr], ha⟩
      | true =>
        obtain ⟨id, v, hv, hd, hobj⟩ := ho.object hc
        refine ⟨({ o with data := some (id, T.selfMoved v) }, c.objects), ?_,
          h.leave hx hc hd T.selfMoved hv⟩
        simp [hobj, hc]
    · rw [if_neg hxy, if_neg hxy]
      exact moveAssign_alike h hxy
  | convertAssign x rhs =>
    simp only [next, spec]
    refine .requiring Iff.rfl fun _ => on_alike h fun o m hx _ _ => ?_
    cases rhs with
    | none =>
      obtain ⟨r, hr, -, ha⟩ := h.reset hx
      exact ⟨r, hr, ha⟩
    | some u => exact h.put hx _
  | reset x =>
    refine on_alike h fun o m hx _ _ => ?_
    obtain ⟨r, hr, -, ha⟩ := h.reset hx
    exact ⟨r, hr, ha⟩
  | emplace x v =>
    simp only [next, spec]
    refine on_alike h fun o m hx _ _ => ?_
    obtain ⟨r, hr, hc, ha⟩ := h.reset hx
    have hmade := ha.construct (x := x) (fun p hp => ?_) v
    · refine ⟨construct r.2 v, by simp [emplace, hr], ?_⟩
      simpa [Config.set] using hmade
    · rw [Config.set_opt, Function.update_self, Option.some.injEq] at hp
      rwa [← hp]
  | swap x y =>
    simp only [next, spec]
    by_cases hxy : x = y
    · rw [if_pos hxy, if_pos hxy]
      exact on_alike h fun o m hx hm _ => ⟨_, rfl, h.same hx hm⟩
    · rw [if_neg hxy, if_neg hxy]
      exact swap_alike h hxy

/-! ## Every run -/

/-- The objects and the options, side by side. -/
def step (T : ObjectType τ υ) (s : Config κ τ × (κ → Option (Option τ))) (a : Act κ τ υ) :
    Outcome (Config κ τ × (κ → Option (Option τ))) :=
  both (next T s.1 a) (spec T s.2 a)

/-- A `bool` that is taken for the flag does not make a value. -/
theorem not_agrees_ofBool (b : Bool) (v : τ) {s : Objects} :
    ¬Agrees T (c.set x (ofBool b, s)) (Function.update t x (some (some v))) := by
  intro h
  have hx : (c.set x (ofBool b, s)).opt x = some (ofBool b) := Function.update_self ..
  obtain ⟨id, hid⟩ := (h.holds hx (Function.update_self ..)).value v rfl
  cases hid

theorem sound_iff {s : Config κ τ × (κ → Option (Option τ))} (h : Agrees T s.1 s.2) (a : Act κ τ υ) :
    Sound T s a ↔ (step T s a).Ok fun d => Agrees T d.1 d.2 := by
  unfold step
  rw [ok_both]
  refine ⟨next_alike h a, fun hstep => ?_⟩
  cases a with
  | newBool x b direct =>
    intro hx
    by_contra hdirect
    have htrue : direct = true := by simpa using hdirect
    simp only [next, spec, Config.make, specMake, hx, h.opt_none.mp hx, htrue, if_true, pure_eq,
      next_bind] at hstep
    exact not_agrees_ofBool b _ hstep
  | newConvert x v =>
    intro hx
    simp only [next, spec, Config.make, specMake, hx, h.opt_none.mp hx] at hstep
    cases hr : convertConstructor T s.1.objects v with
    | next r =>
      rw [hr] at hstep
      exact convertConstructor_converts hr hstep
    | _ =>
      rw [hr] at hstep
      exact hstep.elim
  | _ => trivial

/-- **Optional objects refine options.** Each of them is engaged and holds a
value just as its option does, the objects made in the storages are destroyed
once each, and no assertion fails, along exactly those runs whose constructions
are `Sound`. -/
theorem refines_iff_sound (T : ObjectType τ υ) (as : List (Act κ τ υ)) :
    Runs.Along (step T) (fun _ _ d => Agrees T d.1 d.2) (init, fun _ => none) as ↔
      Runs.Meets (step T) (Sound T) (init, fun _ => none) as :=
  Runs.along_iff_meets (I := fun s => Agrees T s.1 s.2) (D := fun _ _ => True)
    (fun _ a h _ => sound_iff h a) (fun _ _ _ _ _ _ h => h) init_agrees (Runs.meets_true as)

/-- A type with a destructor of its own, to which `bool` converts. -/
def counted : ObjectType Nat Nat where
  triviallyDestructible := false
  triviallyCopyConstructible := false
  triviallyMoveConstructible := false
  moved _ := 0
  selfMoved := id
  convert := id
  ofBool := Bool.toNat
  canGetValueFromOptional := none
  isOptionalAssignable := false
  destructible_of_copy := nofun
  destructible_of_move := nofun
  moved_eq := nofun

/-- `bool`, which is made of an `Optional<int>` and not only of an `int`. -/
def flag : ObjectType Bool Int where
  triviallyDestructible := true
  triviallyCopyConstructible := true
  triviallyMoveConstructible := true
  moved := id
  selfMoved := id
  convert := (· ≠ 0)
  ofBool := id
  canGetValueFromOptional := some Option.isSome
  isOptionalAssignable := false
  destructible_of_copy _ := rfl
  destructible_of_move _ := rfl
  moved_eq _ _ := rfl

/-- `Optional<T> x(false)` is empty; `Optional<T> x(true)` has no `T`, and
cannot be destroyed; an empty `Optional<U>` does not convert; and an
`Optional<bool>` of an `Optional<int>` says whether that is engaged. -/
theorem not_refines :
    (∃ s, Runs.run (step counted) (init, fun _ => none) [.newBool () false true] = .next s ∧
      s.2 () = some (some 0) ∧ (s.1.opt ()).map containsValue = some false) ∧
    (∃ s, Runs.run (step counted) (init, fun _ => none) [.newBool () true true] = .next s ∧
      s.2 () = some (some 1) ∧ (s.1.opt ()).bind data = none) ∧
    Runs.run (step counted) (init, fun _ => none) [.newBool () true true, .destroy ()] = .failed ∧
    Runs.run (step counted) (init, fun _ => none) [.newConvert () none] = .failed ∧
    (∃ s, Runs.run (step flag) (init, fun _ => none) [.newConvert () (some 0)] = .next s ∧
      s.2 () = some (some false) ∧ (s.1.opt ()).bind data = some (0, true)) ∧
    (∃ s, Runs.run (step flag) (init, fun _ => none) [.newConvert () none] = .next s ∧
      s.2 () = some none ∧ (s.1.opt ()).map containsValue = some true) :=
  ⟨⟨_, rfl, rfl, rfl⟩, ⟨_, rfl, rfl, rfl⟩, rfl, rfl, ⟨_, rfl, rfl, rfl⟩, ⟨_, rfl, rfl, rfl⟩⟩

end Optional
