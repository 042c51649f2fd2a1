/-
Parents and children know each other, whatever is created and destroyed, and
nothing is destroyed twice.
-/
import CxxHeaders.ObjectTreeForest

open Outcome Relation

namespace ObjectTree

variable {ι ν : Type} {O : Objects ι ν} {s t : ObjectTree ι ν} {x y p : ι} {k : ν} {l : List ι}
  [DecidableEq ι]

/-! ## Destroying -/

theorem Destroyed.of_childNode (ht : Destroyed O s t x l) {m : ChildNode ι} (hk : t.childNode k = some m) :
    O.realChild k ∉ l ∧ s.childNode k = some m := by
  rw [ht.childNode k] at hk
  split at hk
  · cases hk
  · next hnot => exact ⟨hnot, hk⟩

theorem Destroyed.alive_iff (ht : Destroyed O s t x l) (y : ι) :
    (t.parentNode y).isSome ↔ (s.parentNode y).isSome ∧ y ∉ l := by
  rw [ht.parentNode y]
  split
  · next hy => simp [hy]
  · next hy =>
    split <;> simp [hy]

section
variable (hO : O.Distinct) (h : Inv O s) (hmem : ∀ y, y ∈ l ↔ ReflTransGen (HasParent O s) y x)
  (ht : Destroyed O s t x l)
include hO h hmem

/-- Of the children of a parent that is left, only the object itself is gone. -/
theorem Destroyed.child_mem_iff {n : ParentNode ν} (hp : s.parentNode p = some n) (hpl : p ∉ l)
    (hk : k ∈ n.childNodes) : O.realChild k ∈ l ↔ O.realChild k = x := by
  have hkp := (h.children p n hp k).mp hk
  constructor
  · intro hkl
    rcases ((hmem _).mp hkl).cases_head with he | ⟨q, hq, hqx⟩
    · exact he
    · obtain rfl := hasParent_unique hO hq ⟨k, rfl, hkp⟩
      exact absurd ((hmem q).mpr hqx) hpl
  · intro he
    rw [he]
    exact (hmem x).mpr .refl

include ht

theorem Destroyed.of_parentNode {n : ParentNode ν} (hp : t.parentNode p = some n) :
    ∃ m, s.parentNode p = some m ∧ n.locked = m.locked ∧ n.childNodes.Sublist m.childNodes ∧
      ∀ k, k ∈ n.childNodes ↔ k ∈ m.childNodes ∧ O.realChild k ∉ l := by
  rw [ht.parentNode p] at hp
  split at hp
  · cases hp
  · next hpl =>
    split at hp
    · obtain ⟨m, hm, rfl⟩ := Option.map_eq_some_iff.mp hp
      refine ⟨m, hm, rfl, List.filter_sublist, fun k => ?_⟩
      rw [ParentNode.forget, List.mem_filter]
      refine and_congr_right fun hk => ?_
      rw [Destroyed.child_mem_iff hO h hmem hm hpl hk, decide_eq_true_iff]
    · next hof =>
      refine ⟨n, hp, rfl, List.Sublist.refl _, fun k => (and_iff_left_of_imp fun hk => ?_).symm⟩
      rw [Destroyed.child_mem_iff hO h hmem hp hpl hk]
      exact fun he => hof ((hasParent_iff hO).mp ⟨k, he, (h.children p n hp k).mp hk⟩)

theorem Destroyed.inv (hx : (s.parentNode x).isSome) (hl : l.Nodup) : Inv O t where
  nodup p n hp := by
    obtain ⟨m, hm, -, hsub, -⟩ := Destroyed.of_parentNode hO h hmem ht hp
    exact (h.nodup p m hm).sublist hsub
  children p n hp k := by
    obtain ⟨m, hm, -, -, hiff⟩ := Destroyed.of_parentNode hO h hmem ht hp
    rw [hiff, h.children p m hm, ht.childNode k]
    split
    · next hkl => simp [hkl]
    · next hkl => simp [hkl]
  parent_alive k p hk := by
    obtain ⟨hnot, hk⟩ := ht.of_childNode hk
    refine (ht.alive_iff p).mpr ⟨h.parent_alive k p hk, fun hp => hnot ?_⟩
    exact (hmem _).mpr (.head ⟨k, rfl, hk⟩ ((hmem p).mp hp))
  once y := by
    rw [ht.created, ht.destroyed, h.once y, List.count_append, hl.count]
    by_cases hy : y ∈ l
    · have hsy : (s.parentNode y).isSome := h.alive_of_below hx ((hmem y).mp hy)
      have hty : ¬(t.parentNode y).isSome := fun hty => ((ht.alive_iff y).mp hty).2 hy
      rw [if_pos hsy, if_neg hty, if_pos hy]
    · have hiff : (t.parentNode y).isSome ↔ (s.parentNode y).isSome := by simp [ht.alive_iff, hy]
      simp only [hiff, if_neg hy, Nat.add_zero]
  unlocked p n hp := by
    obtain ⟨m, hm, hlocked, -⟩ := Destroyed.of_parentNode hO h hmem ht hp
    rw [hlocked, h.unlocked p m hm]
  node_iff k := by
    rw [ht.alive_iff, ht.childNode k]
    split
    · next hkl => simp [hkl]
    · next hkl => simp [hkl, h.node_iff k]
  ranked := by
    obtain ⟨rank, hrank, hbound⟩ := h.ranked
    refine ⟨rank, ?_, fun y hy => ?_⟩
    · rintro y p ⟨k, hk, hp⟩
      exact hrank y p ⟨k, hk, (ht.of_childNode hp).2⟩
    · rw [ht.created]
      exact hbound y ((ht.alive_iff y).mp hy).1

end

/-- The object and all that are below it are destroyed, each of them once, and
no others are; and no parent that is left knows it. -/
def Destroys (O : Objects ι ν) (s t : ObjectTree ι ν) (x : ι) : Prop :=
  (∃ l, t.destroyed = s.destroyed ++ l ∧ l.Nodup ∧ (∀ y, y ∈ l ↔ ReflTransGen (HasParent O s) y x) ∧
    (∀ y, (t.parentNode y).isSome ↔ (s.parentNode y).isSome ∧ y ∉ l) ∧
    ∀ k, t.childNode k = if O.realChild k ∈ l then none else s.childNode k) ∧
  ∀ p n k, t.parentNode p = some n → O.realChild k = x → k ∉ n.childNodes

theorem Destroyed.destroys (hl : l.Nodup) (hmem : ∀ y, y ∈ l ↔ ReflTransGen (HasParent O s) y x)
    (ht : Destroyed O s t x l) (hinv : Consistent t) : Destroys O s t x := by
  refine ⟨⟨l, ht.destroyed, hl, hmem, ht.alive_iff, ht.childNode⟩, fun p n k hp hk hmemk => ?_⟩
  have hkp := (hinv.children p n hp k).mp hmemk
  rw [ht.childNode k, hk, if_pos ((hmem x).mpr .refl)] at hkp
  cases hkp

theorem Inv.destroy [LinearOrder ν] (h : Inv O s) (hO : O.Distinct) (hx : (s.parentNode x).isSome) :
    (destroyObject O (s.created.length + 1) s x).Returns fun t => ∃ l, l.Nodup ∧
      (∀ y, y ∈ l ↔ ReflTransGen (HasParent O s) y x) ∧ Destroyed O s t x l := by
  obtain ⟨rank, hrank, hbound⟩ := h.ranked
  obtain ⟨childNodes, hn⟩ := h.parentNode_eq hx
  have hchild : ∀ k ∈ childNodes, s.childNode k = some ⟨some x⟩ := fun k => (h.children x _ hn k).mp
  obtain ⟨l, hl⟩ := h.subtrees hrank hbound s.created.length (x := x) (by omega) hchild
  have hnodup := hl.nodup hO h.toConsistent hrank (h.nodup x _ hn) hchild
  have hbelow : ∀ {y}, y ∈ l → ∃ z, HasParent O s z x ∧ ReflTransGen (HasParent O s) y z := by
    intro y hy
    obtain ⟨k, hk, hyk⟩ := (hl.mem_iff h.toConsistent y).mp hy
    exact ⟨_, ⟨k, rfl, hchild k hk⟩, hyk⟩
  have hxl : x ∉ l := by
    intro hmem
    obtain ⟨z, hz, hxz⟩ := hbelow hmem
    exact Ancestors.not_below_child hrank hz hxz
  have hmem : ∀ y, y ∈ l ++ [x] ↔ ReflTransGen (HasParent O s) y x := by
    intro y
    rw [List.mem_append, List.mem_singleton, ReflTransGen.cases_tail_iff, or_comm, eq_comm]
    refine or_congr_right ⟨fun hy => ?_, ?_⟩
    · obtain ⟨z, hz, hyz⟩ := hbelow hy
      exact ⟨z, hyz, hz⟩
    · rintro ⟨z, hyz, k, rfl, hk⟩
      exact (hl.mem_iff h.toConsistent y).mpr ⟨k, (h.children x _ hn k).mpr hk, hyz⟩
  have hparent : ∀ p, parentOf O s x = some p → p ∉ l ∧ p ≠ x := by
    intro p hp
    have hup := (hasParent_iff hO).mpr hp
    have hnot : p ∉ l ++ [x] := fun hpl =>
      Nat.not_lt.mpr (Ancestors.rank_le hrank ((hmem p).mp hpl)) (hrank x p hup)
    simpa using hnot
  refine (destroyObject_returns hO hn (h.registered hO hx) hxl hparent fun t ht hlocked =>
    freeChildren_returns hO hl hnodup hxl ht hlocked).mono fun t ht => ⟨_, ?_, hmem, ht⟩
  exact List.nodup_append'.mpr ⟨hnodup, List.nodup_singleton x, by simpa using hxl⟩

/-! ## Creating -/

variable [LinearOrder ν]

def ParentNode.enter (O : Objects ι ν) (x : ι) (n : ParentNode ν) : ParentNode ν :=
  match O.nodeOf x with
  | none => n
  | some k => { n with childNodes := n.childNodes.orderedInsert (· ≤ ·) k }

/-- The object is new, and its parent knows it. -/
structure Created (O : Objects ι ν) (s t : ObjectTree ι ν) (x : ι) (parent : Option ι) : Prop where
  childNode : ∀ k, t.childNode k = if O.realChild k = x then some ⟨parent⟩ else s.childNode k
  parentNode : ∀ y, t.parentNode y =
    if y = x then some ⟨false, []⟩
    else if parent = some y then (s.parentNode y).map (ParentNode.enter O x)
    else s.parentNode y
  created : t.created = s.created ++ [x]
  destroyed : t.destroyed = s.destroyed

/-- `ChildNode(parent, realChild)` -/
theorem newChildNode_returns (hO : O.Distinct) {parent : Option ι}
    (hnone : O.nodeOf x = none → parent = none)
    (hparent : ∀ p ∈ parent, ∃ childNodes, s.parentNode p = some ⟨false, childNodes⟩ ∧
      ∀ k ∈ childNodes, O.realChild k ≠ x) :
    (s.newChildNode O x parent).Returns fun t =>
      (∀ k, t.childNode k = if O.realChild k = x then some ⟨parent⟩ else s.childNode k) ∧
      (∀ y, t.parentNode y =
        if parent = some y then (s.parentNode y).map (ParentNode.enter O x) else s.parentNode y) ∧
      t.created = s.created ∧ t.destroyed = s.destroyed := by
  unfold newChildNode
  cases hx : O.nodeOf x with
  | none =>
    obtain rfl := hnone hx
    have hne : ∀ k, O.realChild k ≠ x := fun k hk => by
      rw [(hO x k).mpr hk] at hx
      cases hx
    exact ⟨fun k => (if_neg (hne k)).symm, fun y => by simp, rfl, rfl⟩
  | some k =>
    have hreal : O.realChild k = x := (hO x k).mp hx
    have hupdate : ∀ j, Function.update s.childNode k (some ⟨parent⟩) j =
        if O.realChild j = x then some ⟨parent⟩ else s.childNode j := by
      intro j
      by_cases hj : j = k
      · rw [hj, Function.update_self, if_pos hreal]
      · rw [Function.update_of_ne hj, if_neg fun he => hj (hO.inj (he.trans hreal.symm))]
    cases parent with
    | none => exact ⟨hupdate, fun y => by simp [setChildNode], rfl, rfl⟩
    | some p =>
      obtain ⟨childNodes, hp, hnot⟩ := hparent p rfl
      have hk : k ∉ childNodes := fun hmem => hnot k hmem hreal
      simp only [registerChild_eq (s := s.setChildNode k (some ⟨some p⟩)) hp hO hk, returns_next]
      refine ⟨hupdate, fun y => ?_, rfl, rfl⟩
      by_cases hy : y = p
      · subst hy
        simp [setChildNode, setParentNode, hp, ParentNode.enter, hx]
      · simp [setChildNode, setParentNode, hy, Ne.symm hy]

theorem createObject_returns (hO : O.Distinct) {parent : Option ι} (h : Inv O s)
    (hx : (s.parentNode x).isNone) (hmay : MayHave O s x parent) :
    (s.createObject O x parent).Returns fun t => Created O s t x parent := by
  have hdead : ¬(s.parentNode x).isSome := by simpa using hx
  have hnone : O.nodeOf x = none → parent = none := by
    intro hnode
    cases parent with
    | none => rfl
    | some p => simp [MayHave, hnode] at hmay
  have hparent : ∀ p ∈ parent, p ≠ x ∧ ∃ childNodes, s.parentNode p = some ⟨false, childNodes⟩ ∧
      ∀ k ∈ childNodes, O.realChild k ≠ x := by
    rintro p ⟨⟩
    obtain ⟨childNodes, hp⟩ := h.parentNode_eq hmay.1
    refine ⟨fun he => hdead (he ▸ hmay.1), childNodes, hp, fun k hk he => ?_⟩
    exact hdead (he ▸ h.alive_of_hasParent ⟨k, rfl, (h.children p _ hp k).mp hk⟩)
  unfold createObject
  split
  · simp only [returns_bind, pure_eq, returns_next]
    refine (newChildNode_returns hO (s := s.setParentNode x (some ⟨false, []⟩)) hnone fun p hp => ?_).mono ?_
    · obtain ⟨hne, childNodes, hn, hnot⟩ := hparent p hp
      exact ⟨childNodes, (Function.update_of_ne hne ..).trans hn, hnot⟩
    · rintro t ⟨hchild, hset, hcreated, hdestroyed⟩
      refine ⟨hchild, fun y => ?_, by rw [hcreated]; rfl, hdestroyed⟩
      rw [hset y]
      by_cases hy : y = x
      · subst hy
        have hne : parent ≠ some y := fun he => (hparent y he).1 rfl
        simp [hne, setParentNode]
      · simp [hy, setParentNode]
  · simp only [returns_bind, pure_eq, returns_next]
    refine (newChildNode_returns hO hnone fun p hp => (hparent p hp).2).mono ?_
    rintro t ⟨hchild, hset, hcreated, hdestroyed⟩
    refine ⟨hchild, fun y => ?_, by rw [← hcreated]; rfl, hdestroyed⟩
    by_cases hy : y = x
    · rw [if_pos hy, hy]
      exact Function.update_self ..
    · rw [if_neg hy, ← hset y]
      exact Function.update_of_ne hy ..

theorem Created.alive_iff {parent : Option ι} (ht : Created O s t x parent) (y : ι) :
    (t.parentNode y).isSome ↔ y = x ∨ (s.parentNode y).isSome := by
  rw [ht.parentNode y]
  split
  · next hy => simp [hy]
  · next hy =>
    split <;> simp [hy]

theorem Created.parentNode_self {parent : Option ι} (ht : Created O s t x parent) :
    t.parentNode x = some ⟨false, []⟩ := by
  rw [ht.parentNode x, if_pos rfl]

section
variable {parent : Option ι} (hO : O.Distinct) (h : Inv O s) (hx : (s.parentNode x).isNone)
  (hmay : MayHave O s x parent) (ht : Created O s t x parent)
include hO h hx hmay ht

/-- A parent has the set that it had, and the new node if it is the parent of
this. -/
theorem Created.of_parentNode {n : ParentNode ν} (hp : t.parentNode p = some n) (hne : p ≠ x) :
    ∃ m, s.parentNode p = some m ∧ n.locked = m.locked ∧ n.childNodes.Nodup ∧
      ∀ k, k ∈ n.childNodes ↔ (parent = some p ∧ O.realChild k = x) ∨ k ∈ m.childNodes := by
  rw [ht.parentNode p, if_neg hne] at hp
  split at hp
  · next hof =>
    obtain ⟨m, hm, rfl⟩ := Option.map_eq_some_iff.mp hp
    subst hof
    obtain ⟨k, hk⟩ := Option.isSome_iff_exists.mp hmay.2
    have hreal : ∀ j, O.realChild j = x ↔ j = k := fun j => by
      rw [← hO x j, hk, Option.some.injEq, eq_comm]
    have hnot : k ∉ m.childNodes := by
      intro hmem
      have hkp := (h.children p m hm k).mp hmem
      rw [h.no_node hx ((hreal k).mpr rfl)] at hkp
      cases hkp
    refine ⟨m, hm, ?_, ?_, fun j => ?_⟩
    · simp [ParentNode.enter, hk]
    · simp only [ParentNode.enter, hk]
      exact (List.perm_orderedInsert _ k m.childNodes).nodup_iff.mpr
        (List.nodup_cons.mpr ⟨hnot, h.nodup p m hm⟩)
    · simp [ParentNode.enter, hk, hreal]
  · next hof => exact ⟨n, hp, rfl, h.nodup p n hp, fun k => by simp [hof]⟩

omit hO in
/-- The new object is ranked behind all others. -/
theorem Created.ranked : ∃ rank : ι → Nat, (∀ y p, HasParent O t y p → rank p < rank y) ∧
    ∀ x, (t.parentNode x).isSome → rank x < t.created.length := by
  obtain ⟨rank, hrank, hbound⟩ := h.ranked
  refine ⟨Function.update rank x s.created.length, ?_, fun y hy => ?_⟩
  · rintro y p ⟨k, rfl, hk⟩
    rw [ht.childNode k] at hk
    split at hk
    · next hkx =>
      obtain rfl : parent = some p := by simpa using hk
      have hpx : p ≠ x := fun he => hmay.ne hx (congrArg some he)
      rw [hkx, Function.update_self, Function.update_of_ne hpx]
      exact hbound p hmay.1
    · next hkx =>
      have hpx : p ≠ x := fun he => h.not_referred hx (he ▸ hk)
      rw [Function.update_of_ne hkx, Function.update_of_ne hpx]
      exact hrank _ p ⟨k, rfl, hk⟩
  · rw [ht.created, List.length_append, List.length_singleton]
    by_cases hyx : y = x
    · rw [hyx, Function.update_self]
      exact Nat.lt_succ_self _
    · rw [Function.update_of_ne hyx]
      exact Nat.lt_succ_of_lt (hbound y (((ht.alive_iff y).mp hy).resolve_left hyx))

theorem Created.inv : Inv O t where
  nodup p n hp := by
    by_cases hpx : p = x
    · rw [hpx, ht.parentNode_self] at hp
      cases hp
      exact List.nodup_nil
    · obtain ⟨m, -, -, hnodup, -⟩ := Created.of_parentNode hO h hx hmay ht hp hpx
      exact hnodup
  children p n hp k := by
    rw [ht.childNode k]
    by_cases hpx : p = x
    · rw [hpx, ht.parentNode_self] at hp
      cases hp
      subst hpx
      refine iff_of_false List.not_mem_nil ?_
      split
      · simpa using hmay.ne hx
      · exact h.not_referred hx
    · obtain ⟨m, hm, -, -, hiff⟩ := Created.of_parentNode hO h hx hmay ht hp hpx
      rw [hiff, h.children p m hm]
      split
      · next hk => simp [hk, h.no_node hx hk]
      · next hk => simp [hk]
  parent_alive k p hk := by
    rw [ht.childNode k] at hk
    rw [ht.alive_iff]
    split at hk
    · obtain rfl : parent = some p := by simpa using hk
      exact .inr hmay.1
    · exact .inr (h.parent_alive k p hk)
  once y := by
    rw [ht.created, ht.destroyed, List.count_append, h.once y]
    by_cases hy : y = x
    · subst hy
      have hty : (t.parentNode y).isSome := (ht.alive_iff y).mpr (.inl rfl)
      rw [Option.isNone_iff_eq_none.mp hx, if_neg (by simp), if_pos hty, List.count_singleton_self]
    · have hiff : (t.parentNode y).isSome ↔ (s.parentNode y).isSome := by simp [ht.alive_iff, hy]
      simp only [hiff, List.count_singleton, beq_iff_eq, Ne.symm hy, if_false, Nat.add_zero]
  unlocked p n hp := by
    by_cases hpx : p = x
    · rw [hpx, ht.parentNode_self] at hp
      cases hp
      rfl
    · obtain ⟨m, hm, hlocked, -⟩ := Created.of_parentNode hO h hx hmay ht hp hpx
      rw [hlocked, h.unlocked p m hm]
  node_iff k := by
    rw [ht.alive_iff, ht.childNode k]
    split
    · next hk => simp [hk]
    · next hk => simp [hk, h.node_iff k]
  ranked := Created.ranked h hx hmay ht

end

/-! ## Runs -/

/-- A new object has the parent it is given, and nothing else changes hands. -/
def Creates (O : Objects ι ν) (s t : ObjectTree ι ν) (x : ι) (parent : Option ι) : Prop :=
  t.destroyed = s.destroyed ∧ (t.parentNode x).isSome ∧
    ∀ k, t.childNode k = if O.realChild k = x then some ⟨parent⟩ else s.childNode k

def Holds (O : Objects ι ν) (s : ObjectTree ι ν) (a : Act ι) (t : ObjectTree ι ν) : Prop :=
  Consistent t ∧ match a with
    | .create x parent => Creates O s t x parent
    | .destroy x => Destroys O s t x

theorem next_holds (hO : O.Distinct) (s : ObjectTree ι ν) (a : Act ι) (h : Inv O s) :
    (next O s a).Ok fun t => Holds O s a t ∧ Inv O t := by
  cases a with
  | create x parent =>
    simp only [next, ok_bind, ok_requiring]
    intro hx hmay
    refine ((createObject_returns hO h hx hmay).mono fun t ht => ?_).ok
    have hinv := Created.inv hO h hx hmay ht
    refine ⟨⟨hinv.toConsistent, ht.destroyed, ?_, ht.childNode⟩, hinv⟩
    rw [ht.parentNode_self]
    rfl
  | destroy x =>
    simp only [next, ok_bind, ok_requiring]
    intro hx
    refine ((h.destroy hO hx).mono fun t => ?_).ok
    rintro ⟨l, hl, hmem, ht⟩
    have hinv := Destroyed.inv hO h hmem ht hx hl
    exact ⟨⟨hinv.toConsistent, ht.destroys hl hmem hinv.toConsistent⟩, hinv⟩

/-- **Parents and children know each other, and destroy each other once**, with
no assertion failing, in every run. -/
theorem owns (hO : O.Distinct) (as : List (Act ι)) : Runs.Along (next O) (Holds O) start as :=
  Runs.Along.of_invariant (next_holds hO) as inv_start

/-- Every object has the node of its number, which is declared behind the
`ParentNode` in every other object. -/
def numbered : Objects Nat Nat := ⟨id, some, fun x => x % 2 = 0⟩

theorem owns_numbered :
    Runs.Along (next numbered) (Holds numbered) start
      [.create 0 none, .create 1 (some 0), .create 2 (some 1), .create 3 (some 1), .destroy 3, .destroy 0] :=
  owns (fun x k => by simp [numbered, eq_comm]) _

end ObjectTree
