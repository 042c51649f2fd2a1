/-
Shared pointers and their use counts. Pointers are in places (`ptr`), or are
temporary, on their way out (`temps`); `uses` counts the pointers to each
object. What copying, moving, swapping, dropping and releasing pointers leaves
of this.
-/
import Mathlib.Data.Set.Card
import Mathlib.Logic.Equiv.Basic

variable {η ρ : Type*} [DecidableEq ρ]

/-- `uses` counts the pointers. -/
structure Counted (ptr : η → Option ρ) (temps : List ρ) (uses : ρ → Nat) : Prop where
  finite : ∀ r, {h | ptr h = some r}.Finite
  count : ∀ r, uses r = {h | ptr h = some r}.ncard + temps.count r

namespace Counted

variable {ptr : η → Option ρ} {temps : List ρ} {uses : ρ → Nat} {h : η} {r : ρ}

theorem nobody : Counted (fun _ : η => none) [] fun _ : ρ => 0 where
  finite r := by simp
  count r := by simp

theorem zero_iff (hc : Counted ptr temps uses) (r : ρ) :
    uses r = 0 ↔ (∀ h, ptr h ≠ some r) ∧ r ∉ temps := by
  rw [hc.count r, Nat.add_eq_zero_iff, Set.ncard_eq_zero (hc.finite r), List.count_eq_zero,
    Set.eq_empty_iff_forall_notMem]
  rfl

theorem ne_zero (hc : Counted ptr temps uses) (hp : ptr h = some r) : uses r ≠ 0 :=
  fun he => ((hc.zero_iff r).mp he).1 h hp

/-- The pointers change places. -/
theorem comp_equiv (hc : Counted ptr temps uses) (e : Equiv.Perm η) : Counted (ptr ∘ e) temps uses where
  finite r := (hc.finite r).preimage e.injective.injOn
  count r := by
    have hpre : {h | (ptr ∘ e) h = some r} = e.symm '' {h | ptr h = some r} := by
      rw [e.symm.image_eq_preimage_symm]
      rfl
    rw [hc.count r, hpre, Set.ncard_image_of_injective _ e.symm.injective]

/-- A temporary pointer goes. -/
theorem release (hc : Counted ptr temps uses) (hr : r ∈ temps) :
    Counted ptr (temps.erase r) (Function.update uses r (uses r - 1)) where
  finite := hc.finite
  count s := by
    by_cases hs : s = r
    · have hpos : 0 < temps.count r := List.count_pos_iff.mpr hr
      rw [hs, Function.update_self, List.count_erase_self, hc.count r]
      omega
    · rw [Function.update_of_ne hs, List.count_erase_of_ne hs]
      exact hc.count s

variable [DecidableEq η]

theorem swap (hc : Counted ptr temps uses) (h k : η) :
    Counted (Function.update (Function.update ptr h (ptr k)) k (ptr h)) temps uses := by
  rw [← Equiv.comp_swap_eq_update]
  exact hc.comp_equiv _

/-- A pointer is copied into an empty place. -/
theorem copy (hc : Counted ptr temps uses) (hfree : ptr h = none) (r : ρ) :
    Counted (Function.update ptr h (some r)) temps (Function.update uses r (uses r + 1)) := by
  have hself : {k | Function.update ptr h (some r) k = some r} = insert h {k | ptr k = some r} := by
    ext k
    by_cases hk : k = h
    · simp [hk]
    · simp [hk]
  have hothers : ∀ s, s ≠ r → {k | Function.update ptr h (some r) k = some s} = {k | ptr k = some s} := by
    intro s hs
    ext k
    by_cases hk : k = h
    · simp [hk, hfree, Ne.symm hs]
    · simp [Function.update_of_ne hk]
  constructor
  · intro s
    by_cases hs : s = r
    · rw [hs, hself]
      exact (hc.finite r).insert h
    · rw [hothers s hs]
      exact hc.finite s
  · intro s
    by_cases hs : s = r
    · have hnot : h ∉ {k | ptr k = some r} := by simp [hfree]
      rw [hs, hself, Function.update_self, Set.ncard_insert_of_notMem hnot (hc.finite r), hc.count r]
      omega
    · rw [hothers s hs, Function.update_of_ne hs]
      exact hc.count s

/-- A place is emptied, and the pointer in it is on its way out. -/
theorem drop (hc : Counted ptr temps uses) (hp : ptr h = some r) :
    Counted (Function.update ptr h none) (r :: temps) uses := by
  have hself : {k | Function.update ptr h none k = some r} = {k | ptr k = some r} \ {h} := by
    ext k
    by_cases hk : k = h
    · simp [hk]
    · simp [hk]
  have hothers : ∀ s, s ≠ r → {k | Function.update ptr h none k = some s} = {k | ptr k = some s} := by
    intro s hs
    ext k
    by_cases hk : k = h
    · simp [hk, hp, Ne.symm hs]
    · simp [Function.update_of_ne hk]
  constructor
  · intro s
    by_cases hs : s = r
    · rw [hs, hself]
      exact (hc.finite r).subset Set.sdiff_subset
    · rw [hothers s hs]
      exact hc.finite s
  · intro s
    by_cases hs : s = r
    · have hmem : h ∈ {k | ptr k = some r} := hp
      have hpos : 0 < {k | ptr k = some r}.ncard := (Set.ncard_pos (hc.finite r)).mpr ⟨h, hmem⟩
      rw [hs, hself, List.count_cons_self, Set.ncard_sdiff_singleton_of_mem hmem, hc.count r]
      omega
    · rw [hothers s hs, List.count_cons_of_ne (Ne.symm hs)]
      exact hc.count s

end Counted
