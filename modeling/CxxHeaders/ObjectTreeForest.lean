/-
The objects as a forest: a parent is older than its children, which ranks all
objects (`Inv.ranked`). So the recursion of a destructor ends (`Inv.subtrees`),
and no object is met twice on its way (`Subtrees.nodup`).
-/
import CxxHeaders.Ancestors
import CxxHeaders.ObjectTreeDestroy

open Outcome Relation

namespace ObjectTree

variable {ι ν : Type} {O : Objects ι ν} {s t : ObjectTree ι ν} {x y p : ι} {k : ν} {l : List ι}

/-- The parent of the object `y` is `p`. -/
def HasParent (O : Objects ι ν) (s : ObjectTree ι ν) (y p : ι) : Prop :=
  ∃ k, O.realChild k = y ∧ s.childNode k = some ⟨some p⟩

theorem hasParent_unique (hO : O.Distinct) : Relator.RightUnique (HasParent O s) := by
  rintro y p q ⟨j, hj, hp⟩ ⟨k, hk, hq⟩
  obtain rfl := hO.inj (hj.trans hk.symm)
  rw [hp] at hq
  cases hq
  rfl

theorem hasParent_iff (hO : O.Distinct) : HasParent O s y p ↔ parentOf O s y = some p := by
  unfold HasParent parentOf
  constructor
  · rintro ⟨k, hk, hp⟩
    simp [(hO y k).mpr hk, hp]
  · intro h
    simp only [Option.bind_eq_some_iff] at h
    obtain ⟨k, hk, ⟨parent⟩, hn, rfl⟩ := h
    exact ⟨k, (hO y k).mp hk, hn⟩

theorem MayHave.ne {parent : Option ι} (h : MayHave O s x parent) (hx : (s.parentNode x).isNone) :
    parent ≠ some x := by
  rintro rfl
  have halive := h.1
  rw [Option.isNone_iff_eq_none.mp hx] at halive
  cases halive

variable [DecidableEq ι]

/-- The set of a parent is that of the nodes that refer to it; no node refers to
a parent that does not exist; and what is created is destroyed once, or still
exists. -/
structure Consistent (s : ObjectTree ι ν) : Prop where
  nodup : ∀ p n, s.parentNode p = some n → n.childNodes.Nodup
  children : ∀ p n, s.parentNode p = some n → ∀ k, k ∈ n.childNodes ↔ s.childNode k = some ⟨some p⟩
  parent_alive : ∀ k p, s.childNode k = some ⟨some p⟩ → (s.parentNode p).isSome
  once : ∀ x, s.created.count x = s.destroyed.count x + if (s.parentNode x).isSome then 1 else 0

structure Inv (O : Objects ι ν) (s : ObjectTree ι ν) : Prop extends Consistent s where
  unlocked : ∀ p n, s.parentNode p = some n → n.locked = false
  node_iff : ∀ k, (s.childNode k).isSome ↔ (s.parentNode (O.realChild k)).isSome
  ranked : ∃ rank : ι → Nat, (∀ y p, HasParent O s y p → rank p < rank y) ∧
    ∀ x, (s.parentNode x).isSome → rank x < s.created.length

theorem inv_start : Inv O (start : ObjectTree ι ν) where
  nodup p n h := by cases h
  children p n h := by cases h
  parent_alive k p h := by cases h
  once x := rfl
  unlocked p n h := by cases h
  node_iff k := Iff.rfl
  ranked := by
    refine ⟨fun _ => 0, ?_, fun x h => by cases h⟩
    rintro y p ⟨k, -, h⟩
    cases h

namespace Inv

theorem alive_of_hasParent (h : Inv O s) (hy : HasParent O s y p) : (s.parentNode y).isSome := by
  obtain ⟨k, rfl, hk⟩ := hy
  exact (h.node_iff k).mp (by rw [hk]; rfl)

theorem alive_of_below (h : Inv O s) (hx : (s.parentNode x).isSome) (hy : ReflTransGen (HasParent O s) y x) :
    (s.parentNode y).isSome := by
  rcases hy.cases_head with rfl | ⟨p, hp, -⟩
  · exact hx
  · exact h.alive_of_hasParent hp

/-- Nothing is left of an object that does not exist. -/
theorem no_node (h : Inv O s) (hx : (s.parentNode x).isNone) (hk : O.realChild k = x) :
    s.childNode k = none := by
  refine Option.not_isSome_iff_eq_none.mp fun hnode => ?_
  have halive := (h.node_iff k).mp hnode
  rw [hk, Option.isNone_iff_eq_none.mp hx] at halive
  cases halive

theorem not_referred (h : Inv O s) (hx : (s.parentNode x).isNone) : s.childNode k ≠ some ⟨some x⟩ := by
  intro hk
  have halive := h.parent_alive k x hk
  rw [Option.isNone_iff_eq_none.mp hx] at halive
  cases halive

theorem parentNode_eq (h : Inv O s) (hx : (s.parentNode x).isSome) :
    ∃ childNodes, s.parentNode x = some ⟨false, childNodes⟩ := by
  obtain ⟨⟨locked, childNodes⟩, hn⟩ := Option.isSome_iff_exists.mp hx
  obtain rfl : locked = false := h.unlocked x _ hn
  exact ⟨childNodes, hn⟩

theorem registered (h : Inv O s) (hO : O.Distinct) (hx : (s.parentNode x).isSome) : Registered O s x := by
  intro k hk
  obtain rfl := (hO x k).mp hk
  obtain ⟨⟨parent⟩, hn⟩ := Option.isSome_iff_exists.mp ((h.node_iff k).mpr hx)
  refine ⟨parent, hn, ?_⟩
  rintro p ⟨⟩
  obtain ⟨childNodes, hp⟩ := h.parentNode_eq (h.parent_alive k p hn)
  exact ⟨childNodes, hp, h.nodup p _ hp, (h.children p _ hp k).mpr hn⟩

/-! ## The objects below -/

/-- The ranks are all less than the number of objects, so the depth ends. -/
theorem subtrees (h : Inv O s) {rank : ι → Nat} (hrank : ∀ y p, HasParent O s y p → rank p < rank y)
    (hbound : ∀ x, (s.parentNode x).isSome → rank x < s.created.length) (depth : Nat) {x : ι}
    (hdepth : s.created.length ≤ depth + rank x + 1) {ks : List ν}
    (hks : ∀ k ∈ ks, s.childNode k = some ⟨some x⟩) : ∃ l, Subtrees O s depth x ks l := by
  induction depth generalizing x ks with
  | zero =>
    cases ks with
    | nil => exact ⟨[], .nil 0 x⟩
    | cons k ks =>
      have hk : HasParent O s (O.realChild k) x := ⟨k, rfl, hks k List.mem_cons_self⟩
      have hlt := hrank _ _ hk
      have hlt' := hbound _ (h.alive_of_hasParent hk)
      omega
  | succ depth ih =>
    induction ks with
    | nil => exact ⟨[], .nil (depth + 1) x⟩
    | cons k ks ihks =>
      have hk : HasParent O s (O.realChild k) x := ⟨k, rfl, hks k List.mem_cons_self⟩
      have hlt := hrank _ _ hk
      obtain ⟨childNodes, hn⟩ := h.parentNode_eq (h.alive_of_hasParent hk)
      obtain ⟨l, hl⟩ := ih (x := O.realChild k) (by omega) fun j => (h.children _ _ hn j).mp
      obtain ⟨l', hl'⟩ := ihks fun j hj => hks j (List.mem_cons_of_mem k hj)
      exact ⟨_, .cons (hks k List.mem_cons_self) hn hl hl'⟩

end Inv

theorem Subtrees.mem_iff (hs : Consistent s) {depth : Nat} {ks : List ν} (h : Subtrees O s depth x ks l)
    (y : ι) : y ∈ l ↔ ∃ k ∈ ks, ReflTransGen (HasParent O s) y (O.realChild k) := by
  induction h with
  | nil => simp
  | @cons depth x k childNodes ks l l' hk hn _ _ ih ih' =>
    have hbelow : ReflTransGen (HasParent O s) y (O.realChild k) ↔ y = O.realChild k ∨ y ∈ l := by
      rw [ReflTransGen.cases_tail_iff, ih, eq_comm]
      refine or_congr_right ⟨?_, ?_⟩
      · rintro ⟨z, hyz, j, rfl, hj⟩
        exact ⟨j, (hs.children _ _ hn j).mpr hj, hyz⟩
      · rintro ⟨j, hj, hyj⟩
        exact ⟨_, hyj, j, rfl, (hs.children _ _ hn j).mp hj⟩
    simp only [List.mem_append, List.mem_cons, ih', exists_eq_or_imp, hbelow]
    exact or_left_comm.trans or_assoc.symm

/-- Nothing is destroyed twice. -/
theorem Subtrees.nodup (hO : O.Distinct) (hs : Consistent s) {rank : ι → Nat}
    (hrank : ∀ y p, HasParent O s y p → rank p < rank y) {depth : Nat} {ks : List ν}
    (h : Subtrees O s depth x ks l) (hks : ks.Nodup) (hchild : ∀ k ∈ ks, s.childNode k = some ⟨some x⟩) :
    l.Nodup := by
  induction h with
  | nil => exact List.nodup_nil
  | @cons depth x k childNodes ks l l' hk hn hsub hsub' ih ih' =>
    obtain ⟨hknot, hks⟩ := List.nodup_cons.mp hks
    have hchild' : ∀ j ∈ ks, s.childNode j = some ⟨some x⟩ := fun j hj => hchild j (List.mem_cons_of_mem k hj)
    have hparent : HasParent O s (O.realChild k) x := ⟨k, rfl, hk⟩
    have hbelow : ∀ {y}, y ∈ l → ReflTransGen (HasParent O s) y (O.realChild k) := by
      intro y hy
      obtain ⟨j, hj, hyj⟩ := (hsub.mem_iff hs y).mp hy
      exact hyj.tail ⟨j, rfl, (hs.children _ _ hn j).mp hj⟩
    -- The siblings and what is below them are apart.
    have hapart : ∀ {y}, ReflTransGen (HasParent O s) y (O.realChild k) → y ∉ l' := by
      intro y hy hmem
      obtain ⟨j, hj, hyj⟩ := (hsub'.mem_iff hs y).mp hmem
      have he := Ancestors.siblings_apart (hasParent_unique hO) hrank hparent ⟨j, rfl, hchild' j hj⟩ hy hyj
      exact hknot (hO.inj he ▸ hj)
    have hself : O.realChild k ∉ l := by
      intro hmem
      obtain ⟨j, hj, hyj⟩ := (hsub.mem_iff hs _).mp hmem
      exact Ancestors.not_below_child hrank ⟨j, rfl, (hs.children _ _ hn j).mp hj⟩ hyj
    refine List.nodup_append.mpr ⟨?_, List.nodup_cons.mpr ⟨hapart .refl, ih' hks hchild'⟩, ?_⟩
    · exact ih (hs.nodup _ _ hn) fun j => (hs.children _ _ hn j).mp
    · rintro y hy z hz rfl
      rcases List.mem_cons.mp hz with rfl | hz
      · exact hself hy
      · exact hapart (hbelow hy) hz

end ObjectTree
