/-
An item owns itself exactly while it is linked, as long as no other item that
is equal to it is: `insert` makes an item its own owner also where it is not
linked, and `take(ref)` gives back the pointer of the item at hand, while it
unlinks the one that is equal to it.
-/
import CxxHeaders.IntrusiveUnorderedSharedItemSetInv

open Outcome

namespace IntrusiveUnorderedSharedItemSet

variable {η ι κ : Type} {key : ι → κ}

/-- The items linked are those that own themselves. -/
def Agree (s : IntrusiveUnorderedSharedItemSet η ι) : Prop := ∀ x, (s.selfPtr x).isSome ↔ x ∈ s.container

/-- And so they are alive; while of the others nobody but the users keeps any
alive. -/
structure Owned (s : IntrusiveUnorderedSharedItemSet η ι) : Prop where
  agree : s.Agree
  alive : ∀ x ∈ s.container, s.uses x ≠ 0
  dead : ∀ x ∉ s.container, (∀ h, s.ptr h ≠ some x) → s.uses x = 0

variable (key) in
/-- No other item that is equal to this one is linked. -/
def Alone (container : List ι) (x : ι) : Prop := ∀ y ∈ container, key y = key x → y = x

variable (key) in
/-- The action, if it is possible, does not confuse equal items. -/
def Fits (s : IntrusiveUnorderedSharedItemSet η ι) : Act η ι → Prop
  | .insert h => ∀ v, s.ptr h = some v → Alone key s.container v
  | .takeRef x h => s.uses x ≠ 0 → s.ptr h = none → Alone key s.container x
  | _ => True

variable {s : IntrusiveUnorderedSharedItemSet η ι} {container : List ι} {x : ι}

/-! ## The container -/

theorem not_mem_of_not_alone (hkeys : (container.map key).Nodup) (h : ¬Alone key container x) :
    x ∉ container :=
  fun hx => h fun _ hy he => List.inj_on_of_nodup_map hkeys hy hx he

section
variable [DecidableEq κ]

theorem mem_insertUnique (h : Alone key container x) (y : ι) :
    y ∈ (insertUnique key container x).1 ↔ y = x ∨ y ∈ container := by
  unfold insertUnique
  split
  next z hz =>
    obtain ⟨hmem, he⟩ := of_findEqual_some hz
    obtain rfl := h z hmem he
    exact ⟨.inr, fun hy => hy.elim (fun he => he ▸ hmem) id⟩
  next => exact List.mem_cons

/-- An item that is equal to another one is not linked. -/
theorem insertUnique_of_not_alone (h : ¬Alone key container x) :
    (insertUnique key container x).1 = container := by
  unfold insertUnique
  split
  next => rfl
  next hnone => exact absurd (fun y hy he => absurd he (of_findEqual_none hnone y hy)) h

theorem eraseEqual_of_alone [DecidableEq ι] (h : Alone key container x) : eraseEqual key container x = container.erase x := by
  unfold eraseEqual
  split
  next y hy =>
    obtain ⟨hmem, he⟩ := of_findEqual_some hy
    rw [h y hmem he]
  next hnone =>
    exact (List.erase_of_not_mem fun hx => of_findEqual_none hnone x hx rfl).symm

/-- The item that is equal to this one is erased in its place. -/
theorem eraseEqual_of_not_alone [DecidableEq ι] (hkeys : (container.map key).Nodup) (h : ¬Alone key container x) :
    ∃ y, y ≠ x ∧ y ∈ container ∧ y ∉ eraseEqual key container x := by
  unfold Alone at h
  push Not at h
  obtain ⟨y, hy, he, hne⟩ := h
  refine ⟨y, hne, hy, ?_⟩
  unfold eraseEqual
  split
  next z hz =>
    obtain ⟨hmem, hz⟩ := of_findEqual_some hz
    obtain rfl : z = y := List.inj_on_of_nodup_map hkeys hmem hy (hz.trans he.symm)
    exact hkeys.of_map.not_mem_erase
  next hnone => exact absurd he (of_findEqual_none hnone y hy)

end

variable [DecidableEq ι]

/-- What erasing releases, and what taking returns: exactly the items removed. -/
def Hands (s t : IntrusiveUnorderedSharedItemSet η ι) : Act η ι → Prop
  | .eraseIt _ | .eraseRef _ | .destroy =>
    ∀ x, s.uses x = t.uses x + if x ∈ s.container ∧ x ∉ t.container then 1 else 0
  | .takeIt _ h | .takeRef _ h =>
    (∀ x, t.ptr h = some x ↔ x ∈ s.container ∧ x ∉ t.container) ∧ t.uses = s.uses
  | _ => True

def Holds (s : IntrusiveUnorderedSharedItemSet η ι) (a : Act η ι) (t : IntrusiveUnorderedSharedItemSet η ι) :
    Prop :=
  Owned t ∧ Hands s t a

theorem Inv.selfPtr_eq_iff (h : Inv key s) (ha : s.Agree) (x y : ι) :
    s.selfPtr x = some y ↔ y ∈ s.container ∧ y = x := by
  constructor
  · intro hp
    obtain rfl := h.self_eq x y hp
    exact ⟨(ha y).mp (by rw [hp]; rfl), rfl⟩
  · rintro ⟨hy, rfl⟩
    obtain ⟨z, hz⟩ := Option.isSome_iff_exists.mp ((ha y).mpr hy)
    rw [hz, h.self_eq y z hz]

theorem Inv.selfPtr_of_mem (h : Inv key s) (ha : s.Agree) (hx : x ∈ s.container) : s.selfPtr x = some x :=
  (h.selfPtr_eq_iff ha x x).mpr ⟨hx, rfl⟩

theorem Inv.owned (h : Inv key s) (ha : s.Agree) : s.Owned where
  agree := ha
  alive x hx := by
    have hp : Sum.elim s.ptr s.selfPtr (.inr x) = some x := h.selfPtr_of_mem ha hx
    exact Counted.ne_zero h.pointers hp
  dead x hx hnobody := by
    refine (Counted.zero_iff h.pointers x).mpr ⟨fun k hk => ?_, List.not_mem_nil⟩
    cases k with
    | inl k => exact hnobody k hk
    | inr y =>
      have hx' := (h.selfPtr_eq_iff ha y x).mp hk
      exact hx hx'.1

theorem removed_iff (h : container.Nodup) (x y : ι) :
    y ∈ container ∧ y ∉ container.erase x ↔ y ∈ container ∧ y = x := by
  rw [h.mem_erase_iff]
  by_cases hy : y = x <;> simp [hy]

theorem agree_erase (h : Inv key s) (ha : s.Agree) (x y : ι) :
    (Function.update s.selfPtr x none y).isSome ↔ y ∈ s.container.erase x := by
  rw [h.nodup.mem_erase_iff]
  by_cases hy : y = x
  · simp [hy]
  · simp [hy, ha y]

/-! ## Erasing -/

theorem eraseIt_selfPtr (s : IntrusiveUnorderedSharedItemSet η ι) (x : ι) :
    (s.eraseIt x).selfPtr = Function.update s.selfPtr x none := drop_selfPtr _

theorem eraseIt_container (s : IntrusiveUnorderedSharedItemSet η ι) (x : ι) :
    (s.eraseIt x).container = s.container.erase x := drop_container _

theorem eraseIt_agree (h : Inv key s) (ha : s.Agree) : (s.eraseIt x).Agree := by
  intro y
  rw [eraseIt_selfPtr, eraseIt_container]
  exact agree_erase h ha x y

theorem disposer_uses (hself : s.selfPtr x = some x) (hx : s.uses x ≠ 0) (y : ι) :
    s.uses y = (s.disposer x).uses y + if y = x then 1 else 0 := by
  unfold disposer
  rw [show (s.takePtr x).2 = some x from hself]
  exact drop_uses (s := (s.takePtr x).1) hx y

theorem eraseIt_uses (h : Inv key s) (ha : s.Agree) (hx : x ∈ s.container) (y : ι) :
    s.uses y = (s.eraseIt x).uses y + if y ∈ s.container ∧ y ∉ (s.eraseIt x).container then 1 else 0 := by
  rw [eraseIt_container]
  have huses := disposer_uses (s := { s with container := s.container.erase x }) (h.selfPtr_of_mem ha hx)
    ((h.owned ha).alive x hx) y
  have hiff : (y ∈ s.container ∧ y ∉ s.container.erase x) ↔ y = x := by
    rw [removed_iff h.nodup]
    exact and_iff_right_of_imp fun he => he ▸ hx
  simp only [hiff]
  exact huses

theorem foldl_selfPtr (l : List ι) (s : IntrusiveUnorderedSharedItemSet η ι) (y : ι) :
    (l.foldl disposer s).selfPtr y = if y ∈ l then none else s.selfPtr y := by
  induction l generalizing s with
  | nil => rfl
  | cons x l ih =>
    rw [List.foldl_cons, ih, disposer, drop_selfPtr, takePtr]
    by_cases hl : y ∈ l
    · rw [if_pos hl, if_pos (List.mem_cons_of_mem x hl)]
    · by_cases hy : y = x
      · simp [hy]
      · simp [hy, hl]

theorem foldl_uses {l : List ι} (hl : l.Nodup) (hself : ∀ x ∈ l, s.selfPtr x = some x)
    (huses : ∀ x ∈ l, s.uses x ≠ 0) (y : ι) :
    s.uses y = (l.foldl disposer s).uses y + if y ∈ l then 1 else 0 := by
  induction l generalizing s with
  | nil => rfl
  | cons x l ih =>
    obtain ⟨hx, hl⟩ := List.nodup_cons.mp hl
    have hfirst := disposer_uses (hself x List.mem_cons_self) (huses x List.mem_cons_self)
    have hne : ∀ z ∈ l, z ≠ x := fun z hz he => hx (he ▸ hz)
    have hself' : ∀ z ∈ l, (s.disposer x).selfPtr z = some z := by
      intro z hz
      rw [disposer, drop_selfPtr]
      exact (Function.update_of_ne (hne z hz) ..).trans (hself z (List.mem_cons_of_mem x hz))
    have huses' : ∀ z ∈ l, (s.disposer x).uses z ≠ 0 := by
      intro z hz
      have hz' := hfirst z
      rw [if_neg (hne z hz), Nat.add_zero] at hz'
      exact hz' ▸ huses z (List.mem_cons_of_mem x hz)
    rw [hfirst y, ih hl hself' huses', List.foldl_cons]
    by_cases hy : y = x
    · simp [hy, hx]
    · simp [hy]

theorem clearAndDispose_container (s : IntrusiveUnorderedSharedItemSet η ι) :
    s.clearAndDispose.container = [] := foldl_container ..

theorem clearAndDispose_agree (ha : s.Agree) : s.clearAndDispose.Agree := by
  intro y
  rw [clearAndDispose_container, clearAndDispose, foldl_selfPtr]
  by_cases hy : y ∈ s.container
  · simp [hy]
  · simpa [hy] using (ha y).not.mpr hy

theorem clearAndDispose_uses (h : Inv key s) (ha : s.Agree) (y : ι) :
    s.uses y = s.clearAndDispose.uses y +
      if y ∈ s.container ∧ y ∉ s.clearAndDispose.container then 1 else 0 := by
  have huses := foldl_uses (s := { s with container := [], destroyed := true }) h.nodup
    (fun x => h.selfPtr_of_mem ha) (h.owned ha).alive y
  simp only [clearAndDispose_container, List.not_mem_nil, not_false_eq_true, and_true]
  exact huses

/-! ## Inserting -/

section
variable [DecidableEq κ]

theorem insert_agree (ha : s.Agree) {v : ι} (hv : Alone key s.container v) : (s.insert key v).1.Agree := by
  intro y
  rw [insert_fst, putPtr, drop_selfPtr, drop_container]
  show (Function.update s.selfPtr v (some v) y).isSome ↔ y ∈ (insertUnique key s.container v).1
  rw [mem_insertUnique hv]
  by_cases hy : y = v
  · simp [hy]
  · simp [hy, ha y]

/-- An item that is equal to a linked one owns itself in vain. -/
theorem insert_not_agree (hkeys : (s.container.map key).Nodup) {v : ι} (hv : ¬Alone key s.container v) :
    ¬(s.insert key v).1.Agree := by
  intro hagree
  have hiff := hagree v
  rw [insert_fst, putPtr, drop_selfPtr, drop_container] at hiff
  have hself : (Function.update s.selfPtr v (some v) v).isSome = true := by rw [Function.update_self]; rfl
  have hmem : v ∈ (insertUnique key s.container v).1 := hiff.mp hself
  rw [insertUnique_of_not_alone hv] at hmem
  exact not_mem_of_not_alone hkeys hv hmem

end

/-! ## Runs -/

variable [DecidableEq η]

/-- What is taken, if it is linked, goes to the user; else nothing does. -/
theorem take_holds (h : Inv key s) (ha : s.Agree) {k : η} {t : IntrusiveUnorderedSharedItemSet η ι}
    (ht : Inv key t) (hcontainer : t.container = s.container.erase x)
    (hself : t.selfPtr = Function.update s.selfPtr x none)
    (hptr : t.ptr = Function.update s.ptr k (s.selfPtr x)) (huses : t.uses = s.uses) :
    Owned t ∧ (∀ y, t.ptr k = some y ↔ y ∈ s.container ∧ y ∉ t.container) ∧ t.uses = s.uses := by
  refine ⟨ht.owned fun y => ?_, fun y => ?_, huses⟩
  · rw [hself, hcontainer]
    exact agree_erase h ha x y
  · rw [hptr, hcontainer, Function.update_self, removed_iff h.nodup, h.selfPtr_eq_iff ha]

variable [DecidableEq κ]

theorem fits_iff (s : IntrusiveUnorderedSharedItemSet η ι) (a : Act η ι) (h : Inv key s) (ha : s.Agree) :
    Fits key s a ↔ (next key s a).Ok (Holds s a) := by
  have hinv := next_inv s a h
  cases a with
  | make k x =>
    refine iff_of_true trivial ?_
    simp only [next, ok_bind, ok_requiring, pure_eq, ok_next] at hinv ⊢
    intro hx hk
    refine ⟨(hinv hx hk).owned fun y => ?_, trivial⟩
    have hself : Function.update s.selfPtr x none = s.selfPtr :=
      Function.update_eq_self_iff.mpr (h.selfPtr_of_dead hx).symm
    rw [hself]
    exact ha y
  | copy k j =>
    refine iff_of_true trivial ?_
    cases hp : s.ptr k with
    | none => simp only [next, hp, ok_blocked]
    | some x =>
      simp only [next, hp, ok_bind, ok_requiring, pure_eq, ok_next] at hinv ⊢
      exact fun hj => ⟨(hinv hj).owned ha, trivial⟩
  | drop k =>
    refine iff_of_true trivial ?_
    simp only [next, pure_eq, ok_next] at hinv ⊢
    refine ⟨hinv.owned fun y => ?_, trivial⟩
    rw [drop_selfPtr, drop_container]
    exact ha y
  | insert k =>
    cases hp : s.ptr k with
    | none => simp [Fits, next, hp]
    | some v =>
      simp only [Fits, next, hp, ok_bind, ok_requiring, pure_eq, ok_next, Option.some.injEq, forall_eq'] at hinv ⊢
      constructor
      · intro hv hlive
        exact ⟨(hinv hlive).owned (insert_agree (s := { s with ptr := Function.update s.ptr k none }) ha hv), trivial⟩
      · intro hholds
        by_contra hv
        have hlive : ¬s.destroyed = true := by
          intro hd
          refine hv fun y hy => ?_
          rw [h.gone hd] at hy
          cases hy
        exact insert_not_agree (s := { s with ptr := Function.update s.ptr k none }) h.keys hv
          (hholds hlive).1.agree
  | eraseIt x =>
    refine iff_of_true trivial ?_
    simp only [next, ok_bind, ok_requiring, pure_eq, ok_next] at hinv ⊢
    exact fun hx => ⟨(hinv hx).owned (eraseIt_agree h ha), eraseIt_uses h ha hx⟩
  | eraseRef x =>
    refine iff_of_true trivial ?_
    simp only [next, ok_bind, ok_requiring, pure_eq, ok_next] at hinv ⊢
    intro hlive hx
    have hinv := hinv hlive hx
    unfold eraseRef at hinv ⊢
    split at hinv
    next y hy => exact ⟨hinv.owned (eraseIt_agree h ha), eraseIt_uses h ha (of_findEqual_some hy).1⟩
    next hnone =>
      refine ⟨h.owned ha, fun y => ?_⟩
      rw [if_neg fun hboth => hboth.2 hboth.1, Nat.add_zero]
  | takeIt x k =>
    refine iff_of_true trivial ?_
    simp only [next, ok_bind, ok_requiring, pure_eq, ok_next] at hinv ⊢
    exact fun hx hk => take_holds h ha (hinv hx hk) rfl rfl rfl rfl
  | takeRef x k =>
    simp only [Fits, next, ok_bind, ok_requiring, pure_eq, ok_next] at hinv ⊢
    constructor
    · intro hfits hlive hx hk
      exact take_holds h ha (hinv hlive hx hk) (eraseEqual_of_alone (hfits hx hk)) rfl rfl rfl
    · intro hholds hx hk
      by_contra halone
      obtain ⟨y, hne, hy, hgone⟩ := eraseEqual_of_not_alone h.keys halone
      have hlive : ¬s.destroyed = true := by
        intro hd
        rw [h.gone hd] at hy
        cases hy
      have hself : (Function.update s.selfPtr x none y).isSome = true := by
        rw [Function.update_of_ne hne]
        exact (ha y).mpr hy
      exact hgone (((hholds hlive hx hk).1.agree y).mp hself)
  | retrieveSharedPtr x k =>
    refine iff_of_true trivial ?_
    cases hp : s.selfPtr x with
    | none =>
      simp only [next, hp, pure_eq, ok_next]
      exact ⟨h.owned ha, trivial⟩
    | some y =>
      simp only [next, hp, ok_bind, ok_requiring, pure_eq, ok_next] at hinv ⊢
      exact fun hk => ⟨(hinv hk).owned ha, trivial⟩
  | destroy =>
    refine iff_of_true trivial ?_
    simp only [next, ok_bind, ok_requiring, pure_eq, ok_next] at hinv ⊢
    exact fun hlive => ⟨(hinv hlive).owned (clearAndDispose_agree ha), clearAndDispose_uses h ha⟩

/-- **The items linked own themselves and no others do, and who removes an item
releases it or gets its pointer**, exactly in the runs that neither insert nor
take by reference an item of which an equal other one is linked. -/
theorem owned_iff_fits (key : ι → κ) (as : List (Act η ι)) :
    Runs.Along (next key) Holds start as ↔ Runs.Meets (next key) (Fits key) start as := by
  refine Runs.along_iff_meets (I := fun s => Inv key s ∧ s.Agree) (D := fun _ _ => True)
    (fun s a h _ => fits_iff s a h.1 h.2) (fun s a t h _ ht hholds => ⟨?_, hholds.1.agree⟩)
    ⟨inv_start, fun x => by simp [start]⟩ (Runs.meets_true as)
  exact (next_inv s a h.1).of_next ht

/-- Of two equal items, both are inserted. -/
def insertTwice : List (Act Nat Nat) := [.make 0 0, .make 1 1, .insert 0, .insert 1]

/-- The second one is not linked, and owns itself. -/
theorem owned_fails : ¬Runs.Along (next fun _ : Nat => ()) Holds start insertTwice := by
  rintro ⟨-, -, -, hlast, -⟩
  have hself := hlast.1.agree 1
  revert hself
  decide

end IntrusiveUnorderedSharedItemSet
