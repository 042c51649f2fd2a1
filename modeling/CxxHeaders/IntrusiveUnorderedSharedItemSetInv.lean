/-
What all operations of the set keep: the use counts are right, the keys in the
container differ, and an item owns nothing but itself.
-/
import CxxHeaders.IntrusiveUnorderedSharedItemSet
import CxxHeaders.UseCounts

open Outcome

namespace IntrusiveUnorderedSharedItemSet

variable {η ι κ : Type} {key : ι → κ}

/-! ## The container -/

section
variable {container : List ι} {x y : ι}

theorem nodup_erase [DecidableEq ι] (h : (container.map key).Nodup) (x : ι) :
    ((container.erase x).map key).Nodup :=
  h.sublist (List.erase_sublist.map key)

variable [DecidableEq κ]

theorem of_findEqual_some (h : findEqual key container x = some y) : y ∈ container ∧ key y = key x := by
  unfold findEqual at h
  have hp := List.find?_some h
  exact ⟨List.mem_of_find?_eq_some h, of_decide_eq_true hp⟩

theorem of_findEqual_none (h : findEqual key container x = none) : ∀ y ∈ container, key y ≠ key x := by
  intro y hy he
  exact List.find?_eq_none.mp h y hy (decide_eq_true he)

theorem nodup_insertUnique (h : (container.map key).Nodup) (x : ι) :
    ((insertUnique key container x).1.map key).Nodup := by
  unfold insertUnique
  split
  next => exact h
  next hnone =>
    refine List.nodup_cons.mpr ⟨fun hmem => ?_, h⟩
    obtain ⟨y, hy, he⟩ := List.mem_map.mp hmem
    exact of_findEqual_none hnone y hy he

theorem nodup_eraseEqual [DecidableEq ι] (h : (container.map key).Nodup) (x : ι) :
    ((eraseEqual key container x).map key).Nodup := by
  unfold eraseEqual
  split
  next => exact nodup_erase h _
  next => exact h

end

/-! ## Shared pointers -/

variable [DecidableEq ι] {s : IntrusiveUnorderedSharedItemSet η ι}

/-- The use counts are those of the users' pointers, the items' own ones, and
these temporary ones. -/
def Pointers (s : IntrusiveUnorderedSharedItemSet η ι) (temps : List ι) : Prop :=
  Counted (Sum.elim s.ptr s.selfPtr) temps s.uses

section
variable (p : Option ι)

@[simp] theorem drop_container : (s.drop p).container = s.container := by cases p <;> rfl
@[simp] theorem drop_selfPtr : (s.drop p).selfPtr = s.selfPtr := by cases p <;> rfl
@[simp] theorem drop_ptr : (s.drop p).ptr = s.ptr := by cases p <;> rfl
@[simp] theorem drop_destroyed : (s.drop p).destroyed = s.destroyed := by cases p <;> rfl

end

theorem drop_uses {x : ι} (h : s.uses x ≠ 0) (y : ι) :
    s.uses y = (s.drop (some x)).uses y + if y = x then 1 else 0 := by
  by_cases hy : y = x
  · subst hy
    simp only [drop, Function.update_self, if_true]
    omega
  · simp only [drop, Function.update_of_ne hy, if_neg hy, Nat.add_zero]

theorem Pointers.drop {p : Option ι} {temps : List ι} (h : s.Pointers (p.toList ++ temps)) :
    (s.drop p).Pointers temps := by
  cases p with
  | none => exact h
  | some x =>
    have hreleased := Counted.release (show Counted _ (x :: temps) _ from h) List.mem_cons_self
    rwa [List.erase_cons_head] at hreleased

/-! ## What all operations keep -/

variable (key) in
structure Inv (s : IntrusiveUnorderedSharedItemSet η ι) : Prop where
  keys : (s.container.map key).Nodup
  self_eq : ∀ x y, s.selfPtr x = some y → y = x
  pointers : s.Pointers []
  gone : s.destroyed = true → s.container = []

theorem inv_start : Inv key (start : IntrusiveUnorderedSharedItemSet η ι) where
  keys := List.nodup_nil
  self_eq x y h := by cases h
  pointers := by
    have hnone : Sum.elim (fun _ : η => (none : Option ι)) (fun _ : ι => none) = fun _ => none := by
      funext h
      cases h <;> rfl
    show Counted (Sum.elim (fun _ => none) fun _ => none) [] fun _ => 0
    rw [hnone]
    exact Counted.nobody
  gone _ := rfl

theorem Inv.nodup (h : Inv key s) : s.container.Nodup := h.keys.of_map

theorem self_eq_update_none (h : ∀ x y, s.selfPtr x = some y → y = x) (z : ι) :
    ∀ x y, Function.update s.selfPtr z none x = some y → y = x := by
  intro x y hx
  by_cases hz : x = z
  · rw [hz, Function.update_self] at hx
    cases hx
  · rw [Function.update_of_ne hz] at hx
    exact h x y hx

theorem self_eq_update_some (h : ∀ x y, s.selfPtr x = some y → y = x) (z : ι) :
    ∀ x y, Function.update s.selfPtr z (some z) x = some y → y = x := by
  intro x y hx
  by_cases hz : x = z
  · rw [hz, Function.update_self] at hx
    cases hx
    exact hz.symm
  · rw [Function.update_of_ne hz] at hx
    exact h x y hx

theorem self_eq_foldl {l : List ι} (h : ∀ x y, s.selfPtr x = some y → y = x) :
    ∀ x y, (l.foldl disposer s).selfPtr x = some y → y = x := by
  induction l generalizing s with
  | nil => exact h
  | cons z l ih =>
    refine ih fun x y hx => ?_
    rw [disposer, drop_selfPtr] at hx
    exact self_eq_update_none h z x y hx

theorem foldl_container (l : List ι) (s : IntrusiveUnorderedSharedItemSet η ι) :
    (l.foldl disposer s).container = s.container := by
  induction l generalizing s with
  | nil => rfl
  | cons x l ih => exact (ih _).trans (drop_container _)

theorem Inv.selfPtr_of_dead (h : Inv key s) {x : ι} (hx : s.uses x = 0) : s.selfPtr x = none := by
  cases hp : s.selfPtr x with
  | none => rfl
  | some y =>
    obtain rfl := h.self_eq x y hp
    exact absurd hx (Counted.ne_zero h.pointers (show Sum.elim s.ptr s.selfPtr (.inr y) = some y from hp))

theorem insert_fst [DecidableEq κ] (s : IntrusiveUnorderedSharedItemSet η ι) (v : ι) :
    (s.insert key v).1 = { s with container := (insertUnique key s.container v).1 }.putPtr v v := rfl

/-! ## The pointers -/

variable [DecidableEq η] {temps : List ι}

theorem Pointers.takePtr (h : s.Pointers temps) (x : ι) :
    (s.takePtr x).1.Pointers ((s.selfPtr x).toList ++ temps) := by
  show Counted (Sum.elim s.ptr (Function.update s.selfPtr x none)) _ _
  rw [← Sum.update_elim_inr]
  cases hp : s.selfPtr x with
  | none => rwa [Function.update_eq_self_iff.mpr (show none = Sum.elim s.ptr s.selfPtr (.inr x) from hp.symm)]
  | some y => exact Counted.drop h hp

/-- A user's pointer is on its way out. -/
theorem Pointers.out (h : s.Pointers temps) (k : η) :
    Pointers { s with ptr := Function.update s.ptr k none } ((s.ptr k).toList ++ temps) := by
  show Counted (Sum.elim (Function.update s.ptr k none) s.selfPtr) _ _
  rw [← Sum.update_elim_inl]
  cases hp : s.ptr k with
  | none => rwa [Function.update_eq_self_iff.mpr (show none = Sum.elim s.ptr s.selfPtr (.inl k) from hp.symm)]
  | some y => exact Counted.drop h hp

theorem Pointers.copy (h : s.Pointers temps) {k : η} (hk : s.ptr k = none) (x : ι) :
    Pointers { s with
      uses := Function.update s.uses x (s.uses x + 1)
      ptr := Function.update s.ptr k (some x) } temps := by
  show Counted (Sum.elim (Function.update s.ptr k (some x)) s.selfPtr) _ _
  rw [← Sum.update_elim_inl]
  exact Counted.copy h (show Sum.elim s.ptr s.selfPtr (.inl k) = none from hk) x

theorem Pointers.disposer (h : s.Pointers temps) (x : ι) : (s.disposer x).Pointers temps :=
  (h.takePtr x).drop

theorem Pointers.foldl_disposer {l : List ι} (h : s.Pointers temps) :
    (l.foldl IntrusiveUnorderedSharedItemSet.disposer s).Pointers temps := by
  induction l generalizing s with
  | nil => exact h
  | cons x l ih => exact ih (h.disposer x)

/-- A user's pointer becomes the item's own one. -/
theorem Pointers.putPtr (h : s.Pointers []) {k : η} {v : ι} (hk : s.ptr k = some v) (x : ι) :
    Pointers ({ s with ptr := Function.update s.ptr k none }.putPtr x v) [] := by
  have hswap := Counted.swap (h.takePtr x) (.inl k) (.inr x)
  have hown : Sum.elim (s.takePtr x).1.ptr (s.takePtr x).1.selfPtr (.inr x) = none := Function.update_self ..
  have huser : Sum.elim (s.takePtr x).1.ptr (s.takePtr x).1.selfPtr (.inl k) = some v := hk
  rw [hown, huser, Sum.update_elim_inl, Sum.update_elim_inr] at hswap
  simp only [IntrusiveUnorderedSharedItemSet.takePtr, Function.update_idem] at hswap
  exact Pointers.drop hswap

/-- An item's own pointer becomes a user's one. -/
theorem Pointers.take (h : s.Pointers []) {k : η} (hk : s.ptr k = none) (x : ι) :
    Pointers { s with
      selfPtr := Function.update s.selfPtr x none
      ptr := Function.update s.ptr k (s.selfPtr x) } [] := by
  have hswap := Counted.swap h (.inl k) (.inr x)
  have huser : Sum.elim s.ptr s.selfPtr (.inl k) = none := hk
  rw [huser, Sum.update_elim_inl, Sum.update_elim_inr] at hswap
  exact hswap

theorem Inv.eraseIt (h : Inv key s) (x : ι) : Inv key (s.eraseIt x) where
  keys := by
    rw [IntrusiveUnorderedSharedItemSet.eraseIt, disposer, drop_container]
    exact nodup_erase h.keys x
  self_eq := by
    rw [IntrusiveUnorderedSharedItemSet.eraseIt, disposer, drop_selfPtr]
    exact self_eq_update_none h.self_eq x
  pointers := (show Pointers { s with container := s.container.erase x } [] from h.pointers).disposer x
  gone hd := by
    rw [IntrusiveUnorderedSharedItemSet.eraseIt, disposer, drop_destroyed] at hd
    rw [IntrusiveUnorderedSharedItemSet.eraseIt, disposer, drop_container]
    show s.container.erase x = []
    rw [h.gone hd]
    rfl

/-- The pointer that is taken goes to a user. -/
theorem Inv.take (h : Inv key s) {k : η} (hk : s.ptr k = none) (x : ι) {container : List ι}
    (hkeys : (container.map key).Nodup) (hgone : s.destroyed = true → container = []) :
    Inv key { s with
      container
      selfPtr := Function.update s.selfPtr x none
      ptr := Function.update s.ptr k (s.selfPtr x) } where
  keys := hkeys
  self_eq := self_eq_update_none h.self_eq x
  pointers := h.pointers.take hk x
  gone := hgone

variable [DecidableEq κ]

theorem Inv.insert (h : Inv key s) {k : η} {v : ι} (hk : s.ptr k = some v) (hlive : ¬s.destroyed = true) :
    Inv key ({ s with ptr := Function.update s.ptr k none }.insert key v).1 where
  keys := by
    rw [insert_fst, putPtr, drop_container]
    exact nodup_insertUnique h.keys v
  self_eq := by
    rw [insert_fst, putPtr, drop_selfPtr]
    exact self_eq_update_some h.self_eq v
  pointers := Pointers.putPtr (s := { s with container := (insertUnique key s.container v).1 }) h.pointers hk v
  gone hd := by
    rw [insert_fst, putPtr, drop_destroyed] at hd
    exact absurd hd hlive

theorem next_inv (s : IntrusiveUnorderedSharedItemSet η ι) (a : Act η ι) (h : Inv key s) :
    (next key s a).Ok (Inv key) := by
  cases a with
  | make k x =>
    simp only [next, ok_bind, ok_requiring, pure_eq, ok_next]
    intro hx hk
    have hself : Function.update s.selfPtr x none = s.selfPtr :=
      Function.update_eq_self_iff.mpr (h.selfPtr_of_dead hx).symm
    rw [hself]
    exact ⟨h.keys, h.self_eq, h.pointers.copy hk x, h.gone⟩
  | copy k j =>
    cases hp : s.ptr k with
    | none => simp only [next, hp, ok_blocked]
    | some x =>
      simp only [next, hp, ok_bind, ok_requiring, pure_eq, ok_next]
      intro hj
      exact ⟨h.keys, h.self_eq, h.pointers.copy hj x, h.gone⟩
  | drop k =>
    simp only [next, pure_eq, ok_next]
    refine ⟨?_, ?_, ?_, ?_⟩
    · rw [drop_container]
      exact h.keys
    · rw [drop_selfPtr]
      exact h.self_eq
    · have hout := h.pointers.out k
      exact hout.drop
    · rw [drop_destroyed, drop_container]
      exact h.gone
  | insert k =>
    cases hp : s.ptr k with
    | none => simp only [next, hp, ok_blocked]
    | some v =>
      simp only [next, hp, ok_bind, ok_requiring, pure_eq, ok_next]
      exact h.insert hp
  | eraseIt x =>
    simp only [next, ok_bind, ok_requiring, pure_eq, ok_next]
    exact fun _ => h.eraseIt x
  | eraseRef x =>
    simp only [next, ok_bind, ok_requiring, pure_eq, ok_next]
    intro _ _
    unfold eraseRef
    split
    next => exact h.eraseIt _
    next => exact h
  | takeIt x k =>
    simp only [next, ok_bind, ok_requiring, pure_eq, ok_next]
    intro _ hk
    refine h.take hk x (nodup_erase h.keys x) fun hd => ?_
    show s.container.erase x = []
    rw [h.gone hd]
    rfl
  | takeRef x k =>
    simp only [next, ok_bind, ok_requiring, pure_eq, ok_next]
    intro hlive _ hk
    exact h.take hk x (nodup_eraseEqual h.keys x) fun hd => absurd hd hlive
  | retrieveSharedPtr x k =>
    cases hp : s.selfPtr x with
    | none => simpa only [next, hp, pure_eq, ok_next] using h
    | some y =>
      simp only [next, hp, ok_bind, ok_requiring, pure_eq, ok_next]
      intro hk
      exact ⟨h.keys, h.self_eq, h.pointers.copy hk y, h.gone⟩
  | destroy =>
    simp only [next, ok_bind, ok_requiring, pure_eq, ok_next]
    intro _
    refine ⟨?_, self_eq_foldl h.self_eq, ?_, fun _ => foldl_container ..⟩
    · rw [clearAndDispose, foldl_container]
      exact List.nodup_nil
    · exact Pointers.foldl_disposer (s := { s with container := [], destroyed := true }) h.pointers

end IntrusiveUnorderedSharedItemSet
