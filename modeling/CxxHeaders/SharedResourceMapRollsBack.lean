/-
What `getResource` leaves of an exception. The two allocations before there is
a resource are rolled back. But a resource is constructed in a constructor that
is `noexcept`, and where the control block cannot be allocated the deleter is
called, which locks the mutex that the thread has locked (`rolls_back_iff`).
-/
import CxxHeaders.SharedResourceMapThrows

open Outcome Throwing

namespace SharedResourceMapThrows

variable {κ : Type}

/-! ## Rules -/

theorem ends_modifyMap {f : SharedResourceMap κ → SharedResourceMap κ} {c : Call κ}
    {Q : Unit → Call κ → Prop} {E : Fault → Call κ → Prop} :
    Ends (modifyMap f) c Q E ↔ Q () { c with map := f c.map } :=
  Iff.rfl

theorem ends_lockGuard {x : Calling κ Unit} {c : Call κ} {Q : Unit → Call κ → Prop}
    {E : Fault → Call κ → Prop} : Ends (lockGuard x) c Q E ↔ c.locked = false ∧
      Ends x { c with locked := true } (fun _ d => Q () { d with locked := false })
        fun e d => E e { d with locked := false } := by
  unfold lockGuard
  simp

theorem ends_mayThrow {fault : Option Fault} {f : Fault} {c : Call κ} {Q : Unit → Call κ → Prop}
    {E : Fault → Call κ → Prop} :
    Ends (mayThrow fault f) c Q E ↔ (fault = some f → E f c) ∧ (fault ≠ some f → Q () c) := by
  unfold mayThrow
  split
  · next h => simp [h]
  · next h => simp [h]

variable [DecidableEq κ]

/-- The deleter cannot be called by a thread that has locked the mutex. -/
theorem not_ends_deleter {v : Nat} {c : Call κ} (hl : c.locked = true) (hi : c.map.inner = true)
    {Q : Unit → Call κ → Prop} {E : Fault → Call κ → Prop} : ¬Ends (deleter v) c Q E := by
  unfold deleter
  simp [hi, ends_lockGuard, hl]

theorem ends_createShared {fault : Option Fault} {v : Nat} {c : Call κ} (hl : c.locked = true)
    (hi : c.map.inner = true) {Q : Unit → Call κ → Prop} {E : Fault → Call κ → Prop} :
    Ends (createShared fault v) c Q E ↔
      fault ≠ some .controlBlock ∧ Q () { c with map := c.map.createShared v } := by
  unfold createShared
  simp only [ends_bind, ends_tryCatch, ends_mayThrow, not_ends_deleter hl hi, ends_modifyMap, imp_false]
  exact and_congr_right fun h => forall_prop_of_true h

theorem not_ends_createShared {v : Nat} {c : Call κ} (hl : c.locked = true) (hi : c.map.inner = true)
    {Q : Unit → Call κ → Prop} {E : Fault → Call κ → Prop} :
    ¬Ends (createShared (some .controlBlock) v) c Q E := by
  rw [ends_createShared hl hi]
  exact fun h => h.1 rfl

/-- The entry that was emplaced is erased. -/
theorem erase_emplaceEntry {s : SharedResourceMap κ} {key : κ} (h : s.data key = none) :
    (emplaceEntry s key).erase key = s := by
  have hdata : Function.update (Function.update s.data key (some s.made)) key none = s.data := by
    rw [Function.update_idem, Function.update_eq_self_iff, h]
  unfold SharedResourceMap.erase emplaceEntry
  rw [hdata]

/-- Where nothing is thrown this is the `getResource` that knows of no faults. -/
theorem getResource_eq {s : SharedResourceMap κ} (hmap : s.map = true) (key : κ) :
    Ends (getResource none key) ⟨s, false⟩ (fun _ c => c = ⟨s.getResource key, false⟩) fun _ _ => False := by
  have hi : s.inner = true := by simp [SharedResourceMap.inner, hmap]
  have hnone : ∀ {f : Fault} {p : Prop}, none = some f → p := fun h => absurd h.symm (Option.some_ne_none _)
  have hcreate : ∀ {v : Nat} {c : Call κ} {Q : Unit → Call κ → Prop} {E : Fault → Call κ → Prop},
      c.locked = true → c.map.map = true → Q () { c with map := c.map.createShared v } →
      Ends (createShared none v) c Q E := by
    intro v c Q E hl hm hq
    exact (ends_createShared hl (by simp [SharedResourceMap.inner, hm])).mpr ⟨hnone, hq⟩
  unfold getResource SharedResourceMap.getResource
  simp only [ends_lockGuard, ends_bind, ends_get, true_and]
  cases hd : s.data key with
  | some v =>
    cases hw : (s.valueObj v).weakPtr with
    | none =>
      simp only [hw]
      exact hcreate rfl hmap rfl
    | some f =>
      simp only [hw]
      split
      · exact hcreate rfl hmap rfl
      · exact ends_modifyMap.mpr rfl
  | none =>
    simp only [ends_bind, ends_mayThrow, ends_modifyMap, ends_tryCatch, ends_noexcept]
    refine ⟨hnone, fun _ => ⟨hnone, fun _ => ⟨hnone, fun _ => hcreate rfl hmap rfl⟩⟩⟩

/-! ## What is left -/

/-- `fault` is something that can be thrown: there is no entry, or its handles
are gone. -/
def Throws (s : SharedResourceMap κ) (key : κ) (fault : Fault) : Prop :=
  match s.data key with
  | some v => fault = .controlBlock ∧ s.expired v = true
  | none => True

/-- The exception reaches the caller; the mutex is unlocked, the entries are
what they were, and what was made was destroyed. -/
def RollsBack (s : SharedResourceMap κ) (fault : Fault) (x : Calling κ Unit) : Prop :=
  Ends x ⟨s, false⟩ (fun _ _ => False) fun e c => e = fault ∧ c.locked = false ∧ c.map.data = s.data ∧
    ∀ v, s.made ≤ v → v < c.map.made → 0 < c.map.destroyed v

/-- **An exception in `getResource` is rolled back exactly if it is thrown by
the allocation of the entry or of the `ValueObj_`.** -/
theorem rolls_back_iff {s : SharedResourceMap κ} (hmap : s.map = true) {key : κ} {fault : Fault}
    (h : Throws s key fault) :
    RollsBack s fault (getResource (some fault) key) ↔ fault = .entry ∨ fault = .valueObj := by
  have hi : s.inner = true := by simp [SharedResourceMap.inner, hmap]
  unfold RollsBack getResource
  unfold Throws at h
  simp only [ends_lockGuard, ends_bind, ends_get]
  cases hd : s.data key with
  | some v =>
    rw [hd] at h
    obtain ⟨rfl, hexp⟩ := h
    have hnot : ∀ {Q E}, ¬Ends (createShared (some .controlBlock) v) (⟨s, true⟩ : Call κ) Q E :=
      not_ends_createShared rfl hi
    cases hw : (s.valueObj v).weakPtr with
    | none => simp [hw, hnot]
    | some f =>
      have hzero : (s.block f).useCount = 0 := by simpa [SharedResourceMap.expired, hw] using hexp
      simp [hw, hzero, hnot]
  | none =>
    have hnot : ∀ {Q E}, ¬Ends (createShared (some .controlBlock) s.made)
        (⟨makeValueObj (emplaceEntry s key) key, true⟩ : Call κ) Q E :=
      not_ends_createShared rfl (by simp [SharedResourceMap.inner, makeValueObj, emplaceEntry, hmap])
    simp only [ends_bind, ends_mayThrow, ends_modifyMap, ends_tryCatch, ends_noexcept, ends_throw]
    have hnew : ∀ v, s.made ≤ v → v < s.made → 0 < s.destroyed v := fun v hv hlt => by omega
    cases fault with
    | entry => simpa using hnew
    | valueObj => simpa [erase_emplaceEntry hd] using hnew
    | construction => simp
    | controlBlock => simp [hnot]

/-- The entry of a first resource cannot be allocated. -/
theorem rolls_back_iff_entry :
    RollsBack (.new fun _ => ⟨0, none⟩) .entry (getResource (some .entry) (0 : Nat)) :=
  (rolls_back_iff (s := .new fun _ => ⟨0, none⟩) rfl trivial).mpr (.inl rfl)

/-- Its constructor throws. -/
theorem throwing_constructor_ends : Throws (.new fun _ => ⟨0, none⟩) (0 : Nat) .construction ∧
    ¬RollsBack (.new fun _ => ⟨0, none⟩) .construction (getResource (some .construction) (0 : Nat)) :=
  ⟨trivial, fun h => h⟩

end SharedResourceMapThrows
