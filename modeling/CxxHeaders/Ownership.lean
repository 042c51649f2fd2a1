/-
Resources with one owner each: `own` says what each party owns, if anything,
and `taken` which resources have an owner at all. How the two change together
when a resource is acquired, dropped or handed over.
-/
import Mathlib.Logic.Equiv.Defs
import Mathlib.Logic.Function.Basic

variable {η ρ : Type*}

theorem of_update_none [DecidableEq η] {own : η → Option ρ} {h k : η} {r : ρ}
    (hk : Function.update own h none k = some r) : k ≠ h ∧ own k = some r := by
  by_cases hkh : k = h
  · rw [hkh, Function.update_self] at hk
    cases hk
  · rw [Function.update_of_ne hkh] at hk
    exact ⟨hkh, hk⟩

theorem of_update_some [DecidableEq η] {own : η → Option ρ} {h k : η} {r s : ρ}
    (hk : Function.update own h (some r) k = some s) : (k = h ∧ s = r) ∨ (k ≠ h ∧ own k = some s) := by
  by_cases hkh : k = h
  · rw [hkh, Function.update_self, Option.some.injEq] at hk
    exact .inl ⟨hkh, hk.symm⟩
  · rw [Function.update_of_ne hkh] at hk
    exact .inr ⟨hkh, hk⟩

theorem exists_update_some [DecidableEq η] {own : η → Option ρ} {h : η} (hfree : own h = none)
    (r s : ρ) :
    (∃ k, Function.update own h (some r) k = some s) ↔ s = r ∨ ∃ k, own k = some s := by
  constructor
  · intro hboth
    obtain ⟨k, hk⟩ := hboth
    rcases of_update_some hk with ⟨-, hs⟩ | ⟨-, hk⟩
    · exact .inl hs
    · exact .inr ⟨k, hk⟩
  · intro hcases
    rcases hcases with rfl | ⟨k, hk⟩
    · exact ⟨h, Function.update_self ..⟩
    · have hkh : k ≠ h := fun he => by
        rw [he, hfree] at hk
        cases hk
      exact ⟨k, (Function.update_of_ne hkh _ _).trans hk⟩

/-- What is taken has exactly one owner, and nothing else has one. -/
structure Exclusive (own : η → Option ρ) (taken : ρ → Prop) : Prop where
  unique : ∀ {h k r}, own h = some r → own k = some r → h = k
  owned_iff : ∀ r, taken r ↔ ∃ h, own h = some r

namespace Exclusive

variable {own : η → Option ρ} {taken taken' : ρ → Prop}

theorem nobody (h : ∀ r, ¬taken r) : Exclusive (fun _ : η => none) taken :=
  ⟨nofun, fun r => ⟨fun hr => absurd hr (h r), nofun⟩⟩

theorem taken_of (hx : Exclusive own taken) {h : η} {r : ρ} (ho : own h = some r) : taken r :=
  (hx.owned_iff r).mpr ⟨h, ho⟩

theorem congr (hx : Exclusive own taken) (ht : ∀ r, taken' r ↔ taken r) : Exclusive own taken' :=
  ⟨hx.unique, fun r => (ht r).trans (hx.owned_iff r)⟩

/-- The parties change places. -/
theorem comp_equiv (hx : Exclusive own taken) (e : Equiv.Perm η) : Exclusive (own ∘ e) taken :=
  ⟨fun hh hk => e.injective (hx.unique hh hk), fun r => (hx.owned_iff r).trans e.surjective.exists⟩

variable [DecidableEq η]

/-- A free party acquires what nobody has. -/
theorem acquire (hx : Exclusive own taken) {h : η} {r : ρ} (hfree : own h = none) (hr : ¬taken r)
    (ht : ∀ s, taken' s ↔ s = r ∨ taken s) : Exclusive (Function.update own h (some r)) taken' := by
  have hnot : ∀ {k}, own k ≠ some r := fun hk => hr (hx.taken_of hk)
  constructor
  · intro j k s hj hk
    rcases of_update_some hj with ⟨hjh, hs⟩ | ⟨-, hj⟩ <;> rcases of_update_some hk with ⟨hkh, hs'⟩ | ⟨-, hk⟩
    · rw [hjh, hkh]
    · exact absurd (hs ▸ hk) hnot
    · exact absurd (hs' ▸ hj) hnot
    · exact hx.unique hj hk
  · intro s
    rw [ht, hx.owned_iff, exists_update_some hfree]

/-- A party gives up what it owns, and nobody has it then. -/
theorem drop (hx : Exclusive own taken) {h : η} (ht : ∀ s, taken' s ↔ taken s ∧ own h ≠ some s) :
    Exclusive (Function.update own h none) taken' := by
  constructor
  · intro j k s hj hk
    exact hx.unique (of_update_none hj).2 (of_update_none hk).2
  · intro s
    rw [ht, hx.owned_iff]
    constructor
    · intro hboth
      obtain ⟨⟨k, hk⟩, hne⟩ := hboth
      exact ⟨k, (Function.update_of_ne (fun he : k = h => hne (he ▸ hk)) _ _).trans hk⟩
    · intro hboth
      obtain ⟨k, hk⟩ := hboth
      obtain ⟨hkh, hk⟩ := of_update_none hk
      exact ⟨⟨k, hk⟩, fun hs => hkh (hx.unique hk hs)⟩

/-- A party hands what it owns to one that owns nothing. -/
theorem transfer (hx : Exclusive own taken) {h k : η} (hne : h ≠ k) (hfree : own h = none) :
    Exclusive (Function.update (Function.update own h (own k)) k none) taken := by
  cases hk : own k with
  | none =>
    have hh : Function.update own h none = own := Function.update_eq_self_iff.mpr hfree.symm
    have hkk : Function.update own k none = own := Function.update_eq_self_iff.mpr hk.symm
    rw [hh, hkk]
    exact hx
  | some r =>
    have hdrop : Exclusive (Function.update own k none) fun s => taken s ∧ s ≠ r :=
      hx.drop fun s => by rw [hk, ne_eq, ne_eq, Option.some.injEq, eq_comm]
    rw [Function.update_comm hne]
    refine hdrop.acquire ?_ (fun hr => hr.2 rfl) fun s => ?_
    · rw [Function.update_of_ne hne]
      exact hfree
    · by_cases hs : s = r
      · simp [hs, hx.taken_of hk]
      · simp [hs]

end Exclusive
