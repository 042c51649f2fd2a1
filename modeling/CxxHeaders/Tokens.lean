/-
Tokens in stacks, no token in two places. A token is pushed if no stack holds
it, and after it is popped no stack does.
-/
import Mathlib.Data.List.Basic
import Mathlib.Logic.Function.Basic

namespace Tokens

variable {ι α : Type} [DecidableEq ι]

def Held (toks : ι → List α) (k : α) : Prop := ∃ t, k ∈ toks t

structure Unique (toks : ι → List α) : Prop where
  nodup : ∀ t, (toks t).Nodup
  apart : ∀ t t' k, k ∈ toks t → k ∈ toks t' → t = t'

variable {toks : ι → List α} {t : ι} {k j : α} {rest : List α}

theorem held_push : Held (Function.update toks t (k :: toks t)) j ↔ j = k ∨ Held toks j := by
  constructor
  · intro h
    obtain ⟨u, hu⟩ := h
    by_cases hut : u = t
    · rw [hut, Function.update_self] at hu
      rcases List.mem_cons.mp hu with rfl | hmem
      · exact .inl rfl
      · exact .inr ⟨t, hmem⟩
    · rw [Function.update_of_ne hut] at hu
      exact .inr ⟨u, hu⟩
  · intro h
    rcases h with rfl | ⟨u, hu⟩
    · exact ⟨t, by rw [Function.update_self]; exact List.mem_cons_self⟩
    · by_cases hut : u = t
      · subst hut
        exact ⟨u, by rw [Function.update_self]; exact List.mem_cons_of_mem k hu⟩
      · exact ⟨u, by rwa [Function.update_of_ne hut]⟩

theorem Unique.push (h : Unique toks) (hk : ¬Held toks k) :
    Unique (Function.update toks t (k :: toks t)) where
  nodup u := by
    by_cases hut : u = t
    · rw [hut, Function.update_self]
      exact List.nodup_cons.mpr ⟨fun hmem => hk ⟨t, hmem⟩, h.nodup t⟩
    · rw [Function.update_of_ne hut]
      exact h.nodup u
  apart u v i hu hv := by
    by_cases hut : u = t <;> by_cases hvt : v = t
    · rw [hut, hvt]
    · subst hut
      rw [Function.update_self] at hu
      rw [Function.update_of_ne hvt] at hv
      rcases List.mem_cons.mp hu with rfl | hmem
      · exact absurd ⟨v, hv⟩ hk
      · exact h.apart u v i hmem hv
    · subst hvt
      rw [Function.update_of_ne hut] at hu
      rw [Function.update_self] at hv
      rcases List.mem_cons.mp hv with rfl | hmem
      · exact absurd ⟨u, hu⟩ hk
      · exact h.apart u v i hu hmem
    · rw [Function.update_of_ne hut] at hu
      rw [Function.update_of_ne hvt] at hv
      exact h.apart u v i hu hv

theorem mem_of_mem_pop (ht : toks t = k :: rest) {u : ι} (hu : j ∈ Function.update toks t rest u) :
    j ∈ toks u := by
  by_cases hut : u = t
  · subst hut
    rw [Function.update_self] at hu
    rw [ht]
    exact List.mem_cons_of_mem k hu
  · rwa [Function.update_of_ne hut] at hu

theorem Unique.pop (h : Unique toks) (ht : toks t = k :: rest) :
    Unique (Function.update toks t rest) where
  nodup u := by
    by_cases hut : u = t
    · subst hut
      rw [Function.update_self]
      exact (List.nodup_cons.mp (ht ▸ h.nodup u)).2
    · rw [Function.update_of_ne hut]
      exact h.nodup u
  apart u v i hu hv := h.apart u v i (mem_of_mem_pop ht hu) (mem_of_mem_pop ht hv)

/-- What is popped was there once. -/
theorem Unique.ne_of_mem_pop (h : Unique toks) (ht : toks t = k :: rest) {u : ι}
    (hu : j ∈ Function.update toks t rest u) : j ≠ k := by
  intro hjk
  subst hjk
  have htop : j ∈ toks t := ht ▸ List.mem_cons_self
  have hut := h.apart u t j (mem_of_mem_pop ht hu) htop
  subst hut
  rw [Function.update_self] at hu
  exact (List.nodup_cons.mp (ht ▸ h.nodup u)).1 hu

theorem Unique.held_pop (hu : Unique toks) (ht : toks t = k :: rest) :
    Held (Function.update toks t rest) j ↔ Held toks j ∧ j ≠ k := by
  constructor
  · intro h
    obtain ⟨u, hj⟩ := h
    exact ⟨⟨u, mem_of_mem_pop ht hj⟩, hu.ne_of_mem_pop ht hj⟩
  · intro h
    obtain ⟨⟨u, hj⟩, hne⟩ := h
    by_cases hut : u = t
    · subst hut
      rw [ht] at hj
      refine ⟨u, ?_⟩
      rw [Function.update_self]
      exact (List.mem_cons.mp hj).resolve_left hne
    · exact ⟨u, by rwa [Function.update_of_ne hut]⟩

end Tokens
