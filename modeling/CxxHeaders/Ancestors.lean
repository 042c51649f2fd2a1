/-
Forests, given by the relation of a node to its parent. Nobody has two parents,
and `rank` grows from a parent to its children: so nobody is its own ancestor,
and what is below one of two siblings is not below the other.
-/
import Mathlib.Logic.Relation
import Mathlib.Order.Basic

namespace Ancestors

open Relation

variable {ι : Type*} {parent : ι → ι → Prop} {rank : ι → Nat} {c d x y : ι}

theorem rank_le (hrank : ∀ y p, parent y p → rank p < rank y) (h : ReflTransGen parent y x) :
    rank x ≤ rank y := by
  induction h with
  | refl => exact Nat.le_refl _
  | tail _ hp ih => exact Nat.le_of_lt (Nat.lt_of_lt_of_le (hrank _ _ hp) ih)

theorem not_below_child (hrank : ∀ y p, parent y p → rank p < rank y) (hc : parent c x) :
    ¬ReflTransGen parent x c := by
  intro h
  exact Nat.not_lt.mpr (rank_le hrank h) (hrank c x hc)

theorem eq_of_below (hunique : Relator.RightUnique parent) (hrank : ∀ y p, parent y p → rank p < rank y)
    (hc : parent c x) (hd : parent d x) (h : ReflTransGen parent c d) : c = d := by
  rcases h.cases_head with he | ⟨e, he, hed⟩
  · exact he
  · obtain rfl := hunique he hc
    exact absurd hed (not_below_child hrank hd)

theorem siblings_apart (hunique : Relator.RightUnique parent) (hrank : ∀ y p, parent y p → rank p < rank y)
    (hc : parent c x) (hd : parent d x) (hyc : ReflTransGen parent y c) (hyd : ReflTransGen parent y d) :
    c = d := by
  rcases hyc.total_of_right_unique hunique hyd with h | h
  · exact eq_of_below hunique hrank hc hd h
  · exact (eq_of_below hunique hrank hd hc h).symm

end Ancestors
