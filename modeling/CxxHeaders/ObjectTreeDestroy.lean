/-
What the destruction of one object leaves (`destroyObject_returns`).

`Subtrees` is the order in which the objects below a `ParentNode` are
destroyed. The loop of a destructor runs while the nodes above have their
mutexes locked, and sets that still hold the nodes they have freed: so of the
state only what is below is known, and all else is left as it is (`Gone`).
-/
import CxxHeaders.ObjectTree

open Outcome

theorem Objects.Distinct.inj {ι ν : Type} {O : Objects ι ν} (h : O.Distinct) {j k : ν}
    (he : O.realChild j = O.realChild k) : j = k :=
  Option.some.inj (((h _ j).mpr he).symm.trans ((h _ k).mpr rfl))

namespace ObjectTree

variable {ι ν : Type} {O : Objects ι ν} {s t u : ObjectTree ι ν} {x p : ι} {k : ν} {l : List ι}
  {childNodes : List ν}

/-- The objects destroyed if the nodes `ks` of the parent `x` are freed, where
no more than so many are below each other. -/
inductive Subtrees (O : Objects ι ν) (s : ObjectTree ι ν) : Nat → ι → List ν → List ι → Prop
  | nil (depth : Nat) (x : ι) : Subtrees O s depth x [] []
  | cons {depth : Nat} {x : ι} {k : ν} {childNodes ks : List ν} {l l' : List ι} :
    s.childNode k = some ⟨some x⟩ → s.parentNode (O.realChild k) = some ⟨false, childNodes⟩ →
    Subtrees O s depth (O.realChild k) childNodes l → Subtrees O s (depth + 1) x ks l' →
    Subtrees O s (depth + 1) x (k :: ks) (l ++ O.realChild k :: l')

/-- The states agree on what belongs to these objects. -/
structure Agree (O : Objects ι ν) (s t : ObjectTree ι ν) (l : List ι) : Prop where
  childNode : ∀ k, O.realChild k ∈ l → t.childNode k = s.childNode k
  parentNode : ∀ y ∈ l, t.parentNode y = s.parentNode y

theorem Agree.trans {l' : List ι} (hst : Agree O s t l) (htu : Agree O t u l') (hsub : ∀ y ∈ l', y ∈ l) :
    Agree O s u l' where
  childNode k hk := (htu.childNode k hk).trans (hst.childNode k (hsub _ hk))
  parentNode y hy := (htu.parentNode y hy).trans (hst.parentNode y (hsub y hy))

def parentOf (O : Objects ι ν) (s : ObjectTree ι ν) (x : ι) : Option ι :=
  (O.nodeOf x).bind fun k => (s.childNode k).bind ChildNode.parent

theorem setChildNode_of_ne [LinearOrder ν] {j : ν} (h : j ≠ k) (n : Option (ChildNode ι)) :
    (s.setChildNode k n).childNode j = s.childNode j := Function.update_of_ne h ..

theorem agree_setChildNode [LinearOrder ν] (hk : O.realChild k ∉ l) (n : Option (ChildNode ι)) :
    Agree O s (s.setChildNode k n) l where
  childNode _ hj := setChildNode_of_ne (fun he => hk (by rwa [← he])) n
  parentNode _ _ := rfl

theorem lock_eq (h : s.parentNode p = some ⟨false, childNodes⟩) : s.lock p = .next ⟨true, childNodes⟩ := by
  simp [lock, h, asserting]

variable [DecidableEq ι]

/-- All that belongs to these objects is destroyed, and nothing else changes. -/
structure Gone (O : Objects ι ν) (s t : ObjectTree ι ν) (l : List ι) : Prop where
  childNode : ∀ k, t.childNode k = if O.realChild k ∈ l then none else s.childNode k
  parentNode : ∀ y, t.parentNode y = if y ∈ l then none else s.parentNode y
  created : t.created = s.created
  destroyed : t.destroyed = s.destroyed ++ l

theorem Gone.agree {l' : List ι} (h : Gone O s t l) (hl : ∀ y ∈ l', y ∉ l) : Agree O s t l' where
  childNode k hk := (h.childNode k).trans (if_neg (hl _ hk))
  parentNode y hy := (h.parentNode y).trans (if_neg (hl y hy))

def ParentNode.forget (O : Objects ι ν) (x : ι) (n : ParentNode ν) : ParentNode ν :=
  { n with childNodes := n.childNodes.filter fun j => O.realChild j ≠ x }

/-- The same where one of the objects was registered with its parent. -/
structure Destroyed (O : Objects ι ν) (s t : ObjectTree ι ν) (x : ι) (l : List ι) : Prop where
  childNode : ∀ k, t.childNode k = if O.realChild k ∈ l then none else s.childNode k
  parentNode : ∀ y, t.parentNode y =
    if y ∈ l then none
    else if parentOf O s x = some y then (s.parentNode y).map (ParentNode.forget O x)
    else s.parentNode y
  created : t.created = s.created
  destroyed : t.destroyed = s.destroyed ++ l

theorem Destroyed.gone (h : Destroyed O s t x l) (hx : parentOf O s x = none) : Gone O s t l where
  childNode := h.childNode
  parentNode y := by
    rw [h.parentNode y, hx, if_neg (Option.some_ne_none y).symm]
  created := h.created
  destroyed := h.destroyed

/-! ## The two nodes of an object -/

/-- The node of the object, if it has one, is registered with its parent, if it
has one. -/
def Registered (O : Objects ι ν) (s : ObjectTree ι ν) (x : ι) : Prop :=
  ∀ k, O.nodeOf x = some k → ∃ parent, s.childNode k = some ⟨parent⟩ ∧
    ∀ p ∈ parent, ∃ childNodes, s.parentNode p = some ⟨false, childNodes⟩ ∧ childNodes.Nodup ∧ k ∈ childNodes

/-- What `~ChildNode()` does. -/
structure Unregistered (O : Objects ι ν) (s t : ObjectTree ι ν) (x : ι) : Prop where
  childNode : ∀ k, t.childNode k = if O.realChild k = x then none else s.childNode k
  parentNode : ∀ y, t.parentNode y =
    if parentOf O s x = some y then (s.parentNode y).map (ParentNode.forget O x) else s.parentNode y
  created : t.created = s.created
  destroyed : t.destroyed = s.destroyed

/-- What `~ParentNode()` does. -/
structure Freed (O : Objects ι ν) (s t : ObjectTree ι ν) (x : ι) (l : List ι) : Prop where
  childNode : ∀ k, t.childNode k = if O.realChild k ∈ l then none else s.childNode k
  parentNode : ∀ y, t.parentNode y = if y ∈ l ∨ y = x then none else s.parentNode y
  created : t.created = s.created
  destroyed : t.destroyed = s.destroyed ++ l

/-- The `ChildNode` is destroyed first. -/
theorem Unregistered.freed (ht : Unregistered O s t x) (hu : Freed O t u x l) :
    Destroyed O s { u with destroyed := u.destroyed ++ [x] } x (l ++ [x]) where
  childNode k := by
    show u.childNode k = _
    rw [hu.childNode k, ht.childNode k]
    by_cases hk : O.realChild k = x <;> simp [hk]
  parentNode y := by
    show u.parentNode y = _
    rw [hu.parentNode y, ht.parentNode y]
    simp
  created := hu.created.trans ht.created
  destroyed := by
    show u.destroyed ++ [x] = _
    rw [hu.destroyed, ht.destroyed, List.append_assoc]

section
variable (hO : O.Distinct) (ht : Freed O s t x l) (hnot : x ∉ l)
include hO ht hnot

theorem Freed.node_eq (hk : O.nodeOf x = some k) : t.childNode k = s.childNode k := by
  rw [ht.childNode k, if_neg ((hO x k).mp hk ▸ hnot)]

theorem Freed.parentOf_eq : parentOf O t x = parentOf O s x := by
  cases hk : O.nodeOf x with
  | none => simp [parentOf, hk]
  | some k => simp [parentOf, hk, Freed.node_eq hO ht hnot hk]

/-- Freeing the children leaves the object itself registered. -/
theorem Freed.registered (h : Registered O s x)
    (hparent : ∀ p, parentOf O s x = some p → p ∉ l ∧ p ≠ x) : Registered O t x := by
  intro k hk
  obtain ⟨parent, hn, hp⟩ := h k hk
  refine ⟨parent, (Freed.node_eq hO ht hnot hk).trans hn, fun p hmem => ?_⟩
  obtain ⟨childNodes, hpn, hrest⟩ := hp p hmem
  have hof : parentOf O s x = some p := by
    obtain rfl : parent = some p := hmem
    simp [parentOf, hk, hn]
  refine ⟨childNodes, ?_, hrest⟩
  rw [ht.parentNode p, if_neg (not_or.mpr (hparent p hof)), hpn]

/-- The `ParentNode` is destroyed first. -/
theorem Freed.unregistered (hu : Unregistered O t u x) :
    Destroyed O s { u with destroyed := u.destroyed ++ [x] } x (l ++ [x]) where
  childNode k := by
    show u.childNode k = _
    rw [hu.childNode k, ht.childNode k]
    by_cases hk : O.realChild k = x <;> simp [hk]
  parentNode y := by
    show u.parentNode y = _
    rw [hu.parentNode y, ht.parentNode y, Freed.parentOf_eq hO ht hnot]
    by_cases hy : y ∈ l ∨ y = x
    · simp [hy]
    · simp [hy]
  created := hu.created.trans ht.created
  destroyed := by
    show u.destroyed ++ [x] = _
    rw [hu.destroyed, ht.destroyed, List.append_assoc]

end

variable [LinearOrder ν]

/-! ## The methods -/

theorem registerChild_eq (h : s.parentNode p = some ⟨false, childNodes⟩) (hO : O.Distinct)
    (hk : k ∉ childNodes) :
    s.registerChild O p k =
      .next (s.setParentNode p (some ⟨false, childNodes.orderedInsert (· ≤ ·) k⟩)) := by
  have hreal : O.realChild k ∉ childrenNoLock O ⟨true, childNodes⟩ := by
    intro hmem
    obtain ⟨j, hj, he⟩ := List.mem_map.mp hmem
    exact hk (hO.inj he ▸ hj)
  simp only [registerChild, lock_eq h, next_bind, asserting_true hk, asserting_true hreal, pure_eq]
  rfl

theorem erase_eq_filter (hO : O.Distinct) (hnodup : childNodes.Nodup) :
    childNodes.erase k = childNodes.filter fun j => O.realChild j ≠ O.realChild k := by
  rw [hnodup.erase_eq_filter]
  refine List.filter_congr fun j _ => ?_
  by_cases hj : j = k
  · simp [hj]
  · have hne : O.realChild j ≠ O.realChild k := fun he => hj (hO.inj he)
    simp [hj, hne]

theorem unregisterChild_eq (h : s.parentNode p = some ⟨false, childNodes⟩) (hO : O.Distinct)
    (hnodup : childNodes.Nodup) (hk : k ∈ childNodes) :
    s.unregisterChild O p k =
      .next (s.setParentNode p (some (ParentNode.forget O (O.realChild k) ⟨false, childNodes⟩))) := by
  have hreal : O.realChild k ∉ childrenNoLock O ⟨true, childNodes.erase k⟩ := by
    rw [erase_eq_filter hO hnodup]
    simp [childrenNoLock]
  simp only [unregisterChild, lock_eq h, next_bind, asserting_true hk, asserting_true hreal, pure_eq]
  rw [erase_eq_filter hO hnodup]
  rfl

theorem destroyChildNode_returns (hO : O.Distinct) (h : Registered O s x) :
    (s.destroyChildNode O x).Returns fun t => Unregistered O s t x := by
  unfold destroyChildNode
  cases hx : O.nodeOf x with
  | none =>
    have hne : ∀ k, O.realChild k ≠ x := fun k hk => by
      rw [(hO x k).mpr hk] at hx
      cases hx
    have hparent : parentOf O s x = none := by simp [parentOf, hx]
    exact ⟨fun k => (if_neg (hne k)).symm, fun y => by simp [hparent], rfl, rfl⟩
  | some k =>
    have hreal : O.realChild k = x := (hO x k).mp hx
    have hupdate : ∀ j, Function.update s.childNode k none j =
        if O.realChild j = x then none else s.childNode j := by
      intro j
      by_cases hj : j = k
      · rw [hj, Function.update_self, if_pos hreal]
      · rw [Function.update_of_ne hj, if_neg fun he => hj (hO.inj (he.trans hreal.symm))]
    obtain ⟨parent, hk, hparent⟩ := h k hx
    have hparentOf : parentOf O s x = parent := by simp [parentOf, hx, hk]
    cases parent with
    | none =>
      simp only [unregister, hk, next_bind, pure_eq, returns_next]
      exact ⟨hupdate, fun y => by simp [hparentOf, setChildNode], rfl, rfl⟩
    | some p =>
      obtain ⟨childNodes, hp, hnodup, hmem⟩ := hparent p rfl
      simp only [unregister, hk, unregisterChild_eq hp hO hnodup hmem, next_bind, pure_eq, returns_next]
      refine ⟨fun j => ?_, fun y => ?_, rfl, rfl⟩
      · rw [← hupdate j]
        simp only [setChildNode, setParentNode, Function.update_idem]
      · rw [hparentOf, hreal]
        by_cases hy : p = y
        · subst hy
          simp [setChildNode, setParentNode, hp]
        · simp [setChildNode, setParentNode, hy, Ne.symm hy]

theorem destroyParentNode_returns {childDestructor : ObjectTree ι ν → ι → Outcome (ObjectTree ι ν)}
    (hx : s.parentNode x = some ⟨false, childNodes⟩)
    (hloop : (freeChildren O childDestructor x childNodes childNodes
      (s.setParentNode x (some ⟨true, childNodes⟩))).Returns fun t =>
        Gone O (s.setParentNode x (some ⟨true, childNodes⟩)) t l) :
    (s.destroyParentNode O childDestructor x).Returns fun t => Freed O s t x l := by
  unfold destroyParentNode
  rw [lock_eq hx, next_bind, returns_bind]
  refine hloop.mono fun t ht => ?_
  rw [pure_eq, returns_next]
  refine ⟨ht.childNode, fun y => ?_, ht.created, ht.destroyed⟩
  by_cases hy : y = x
  · rw [if_pos (.inr hy), hy]
    exact Function.update_self ..
  · have hlocked := ht.parentNode y
    simp only [setParentNode, Function.update_of_ne hy] at hlocked ⊢
    rw [hlocked]
    simp [hy]

/-! ## Objects -/

/-- **One object is destroyed**, whichever of its nodes is destroyed first. -/
theorem destroyObject_returns (hO : O.Distinct) {depth : Nat}
    (hx : s.parentNode x = some ⟨false, childNodes⟩) (hregistered : Registered O s x) (hnot : x ∉ l)
    (hparent : ∀ p, parentOf O s x = some p → p ∉ l ∧ p ≠ x)
    (hloop : ∀ t, Agree O s t l → t.parentNode x = some ⟨true, childNodes⟩ →
      (freeChildren O (destroyObject O depth) x childNodes childNodes t).Returns fun u => Gone O t u l) :
    (destroyObject O (depth + 1) s x).Returns fun t => Destroyed O s t x (l ++ [x]) := by
  have hne : ∀ {y}, y ∈ l → y ≠ x := fun hy he => hnot (he ▸ hy)
  unfold destroyObject
  split
  · simp only [returns_bind, pure_eq, returns_next]
    refine (destroyChildNode_returns hO hregistered).mono fun t ht => ?_
    have htx : t.parentNode x = some ⟨false, childNodes⟩ := by
      rw [ht.parentNode x, if_neg fun h => (hparent x h).2 rfl, hx]
    have hagree : Agree O s (t.setParentNode x (some ⟨true, childNodes⟩)) l := by
      constructor
      · exact fun k hk => (ht.childNode k).trans (if_neg (hne hk))
      · intro y hy
        simp only [setParentNode, Function.update_of_ne (hne hy)]
        exact (ht.parentNode y).trans (if_neg fun h => (hparent y h).1 hy)
    refine (destroyParentNode_returns htx (hloop _ hagree (Function.update_self ..))).mono fun u hu => ?_
    exact ht.freed hu
  · simp only [returns_bind, pure_eq, returns_next]
    have hagree : Agree O s (s.setParentNode x (some ⟨true, childNodes⟩)) l := by
      constructor
      · exact fun _ _ => rfl
      · exact fun y hy => Function.update_of_ne (hne hy) ..
    refine (destroyParentNode_returns hx (hloop _ hagree (Function.update_self ..))).mono fun t ht => ?_
    have hregistered' := Freed.registered hO ht hnot hregistered hparent
    refine (destroyChildNode_returns hO hregistered').mono fun u hu => ?_
    exact Freed.unregistered hO ht hnot hu

/-! ## Subtrees -/

/-- A node is freed, its object destroyed, and then the rest of the objects. -/
theorem Gone.free (hk : O.realChild k = x) (ht : Gone O (s.setChildNode k (some ⟨none⟩)) t (l ++ [x]))
    {l' : List ι} (hu : Gone O t u l') : Gone O s u (l ++ x :: l') where
  childNode j := by
    rw [hu.childNode j, ht.childNode j]
    by_cases hj : O.realChild j = x
    · simp [hj]
    · have hne : j ≠ k := fun he => hj (he ▸ hk)
      simp [setChildNode, hj, hne, ← ite_or, or_comm]
  parentNode y := by
    rw [hu.parentNode y, ht.parentNode y]
    by_cases hy : y ∈ l'
    · simp [hy]
    · simp [hy, setChildNode]
  created := hu.created.trans ht.created
  destroyed := by
    rw [hu.destroyed, ht.destroyed]
    simp [setChildNode]

/-- An object whose node has been freed by its parent. -/
theorem destroyFreed_returns (hO : O.Distinct) (depth : Nat) (hk : s.childNode k = some ⟨none⟩)
    (hx : s.parentNode (O.realChild k) = some ⟨false, childNodes⟩) (hnot : O.realChild k ∉ l)
    (hloop : ∀ t, Agree O s t l → t.parentNode (O.realChild k) = some ⟨true, childNodes⟩ →
      (freeChildren O (destroyObject O depth) (O.realChild k) childNodes childNodes t).Returns
        fun u => Gone O t u l) :
    (destroyObject O (depth + 1) s (O.realChild k)).Returns
      fun t => Gone O s t (l ++ [O.realChild k]) := by
  have hnode : O.nodeOf (O.realChild k) = some k := (hO _ k).mpr rfl
  have hparent : parentOf O s (O.realChild k) = none := by simp [parentOf, hnode, hk]
  have hregistered : Registered O s (O.realChild k) := by
    intro j hj
    obtain rfl : k = j := Option.some.inj (hnode.symm.trans hj)
    exact ⟨none, hk, fun p hp => by cases hp⟩
  refine (destroyObject_returns hO hx hregistered hnot (fun p hp => ?_) hloop).mono fun t ht => ht.gone hparent
  rw [hparent] at hp
  cases hp

/-- **The loop of a destructor.** By induction on the subtrees: the recursion
goes on with the first child's own children, and the loop with the rest. -/
theorem freeChildren_returns (hO : O.Distinct) {depth : Nat} {ks : List ν} (h : Subtrees O s depth x ks l)
    (hnodup : l.Nodup) (hx : x ∉ l) {childNodes : List ν} (hagree : Agree O s t l)
    (hlocked : t.parentNode x = some ⟨true, childNodes⟩) :
    (freeChildren O (destroyObject O depth) x childNodes ks t).Returns fun u => Gone O t u l := by
  induction h generalizing t childNodes with
  | nil => exact ⟨fun k => by simp, fun y => by simp, rfl, by simp⟩
  | @cons depth x k ks' ks l l' hk hp _ _ ih ih' =>
    obtain ⟨hl, hcl, hdisjoint⟩ := List.nodup_append'.mp hnodup
    obtain ⟨hc, hl'⟩ := List.nodup_cons.mp hcl
    have hcnot : O.realChild k ∉ l := fun hmem => hdisjoint hmem List.mem_cons_self
    have hxl : x ∉ l ∧ x ≠ O.realChild k ∧ x ∉ l' := by simpa using hx
    have htk : t.childNode k = some ⟨some x⟩ := by rw [hagree.childNode k (by simp), hk]
    have hfreed : t.freeByParent O k = .next (t.setChildNode k (some ⟨none⟩), O.realChild k) := by
      simp only [freeByParent, htk]
    have hchild := destroyFreed_returns hO (s := t.setChildNode k (some ⟨none⟩)) depth
      (Function.update_self ..) ((hagree.parentNode _ (by simp)).trans hp) hcnot fun u hu hulocked => by
        have htu := (agree_setChildNode hcnot (some ⟨none⟩)).trans hu fun _ hy => hy
        exact ih hl hcnot (hagree.trans htu fun y hy => List.mem_append_left _ hy) hulocked
    unfold freeChildren
    rw [hfreed, next_bind, returns_bind]
    refine hchild.mono fun u hu => ?_
    have hstill : u.parentNode x = some ⟨true, childNodes⟩ := by
      rw [hu.parentNode x, if_neg (by simp [hxl.1, hxl.2.1])]
      exact hlocked
    have hrest : ∀ y ∈ l', y ∉ l ++ [O.realChild k] := by
      intro y hy hmem
      rcases List.mem_append.mp hmem with hmem | hmem
      · exact hdisjoint hmem (List.mem_cons_of_mem _ hy)
      · exact hc (List.mem_singleton.mp hmem ▸ hy)
    have htu := (agree_setChildNode hc (some ⟨none⟩)).trans (hu.agree hrest) fun _ hy => hy
    have hagree' := hagree.trans htu fun y hy => List.mem_append_right _ (List.mem_cons_of_mem _ hy)
    simp only [hstill, Option.map_some, asserting_trivial, next_bind]
    exact (ih' hl' hxl.2.2 hagree' hstill).mono fun v hv => Gone.free rfl hu hv

end ObjectTree
