/-
What an LRU cache is for, without lists of elements or weak pointers: which
keys were used most recently, which value each of them was last given, and
whether somebody has held that value all along.
-/
import CxxHeaders.LRU
import Mathlib.Data.List.Dedup

open Outcome

namespace LRU

/-- `mru` has every key used since the last `clear`, the last one used first.
A key that was given a value is `lapsed` once there was a moment, since it was
last used, at which nobody held that value. -/
structure Spec (κ ν : Type) where
  limit : Nat
  mru : List κ
  last : κ → Option ν
  lapsed : κ → Bool
  held : ν → Nat
  created : ν → Bool
  returned : Option ν

namespace Spec

variable {κ ν : Type}

section

variable [DecidableEq κ] [DecidableEq ν]

/-- The keys whose values the cache holds. -/
def strong (s : Spec κ ν) : List κ := s.mru.take s.limit

def alive (s : Spec κ ν) (v : ν) : Bool := 0 < s.held v || s.strong.any fun k => s.last k = some v

/-- What `get` returns. -/
def lookup (s : Spec κ ν) (key : κ) : Option ν :=
  if key ∈ s.strong ∨ s.lapsed key = false then s.last key else none

/-- The end of a step: some values may not be held any more. -/
def settle (s : Spec κ ν) : Spec κ ν :=
  { s with lapsed := fun k => s.lapsed k || (k ∉ s.strong && (s.last k).any fun v => !s.alive v) }

def use (s : Spec κ ν) (key : κ) (v : ν) : Spec κ ν :=
  { s with
    mru := key :: s.mru.erase key, last := Function.update s.last key (some v),
    lapsed := Function.update s.lapsed key false }

def next (s : Spec κ ν) : Act κ ν → Outcome (Spec κ ν)
  | .create v => do
    requiring ¬s.created v
    return { s with held := Function.update s.held v 1, created := Function.update s.created v true }.settle
  | .copy v => do
    requiring (0 < s.held v)
    return { s with held := Function.update s.held v (s.held v + 1) }.settle
  | .drop v => do
    requiring (0 < s.held v)
    return { s with held := Function.update s.held v (s.held v - 1) }.settle
  | .insert key value =>
    match value with
    -- Null pointers are no values.
    | none => .blocked
    | some v => do
      requiring (0 < s.held v)
      return (s.use key v).settle
  | .get key =>
    match s.lookup key with
    | none => return { s with returned := none }
    | some v =>
      return { s.use key v with
        held := Function.update s.held v (s.held v + 1), returned := some v }.settle
  | .clear => return { s with mru := [], last := fun _ => none, lapsed := fun _ => false }

def init (limit : Nat) : Spec κ ν := ⟨limit, [], fun _ => none, fun _ => false, fun _ => 0, fun _ => false, none⟩

end

/-! ## Which keys are strong -/

variable {s : Spec κ ν} {key : κ} {v : ν}

section

variable [DecidableEq κ]

/-- Only the first `n + 1` keys decide what the first `n` others are. -/
theorem take_erase (list : List κ) (n : Nat) :
    ((list.take (n + 1)).erase key).take n = (list.erase key).take n := by
  induction list generalizing n with
  | nil => rfl
  | cons k list ih =>
    rw [List.take_succ_cons, List.erase_cons, List.erase_cons]
    split
    next => rw [List.take_take, Nat.min_self]
    next =>
      match n with
      | 0 => rfl
      | n + 1 => rw [List.take_succ_cons, List.take_succ_cons, ih]

theorem strong_use (h : 0 < s.limit) :
    (s.use key v).strong = (key :: s.strong.erase key).take s.limit := by
  unfold strong use
  match hl : s.limit with
  | 0 => omega
  | n + 1 => rw [List.take_succ_cons, List.take_succ_cons, take_erase]

theorem mem_strong_use (h : 0 < s.limit) {k : κ} (hk : k ∈ (s.use key v).strong) :
    k = key ∨ k ∈ s.strong := by
  rw [strong_use h] at hk
  rcases List.mem_cons.mp (List.mem_of_mem_take hk) with hk | hk
  · exact .inl hk
  · exact .inr (List.mem_of_mem_erase hk)

end

/-! ## What holds in every state -/

variable [DecidableEq ν]

/-- A value that lapsed is gone for good, since no pointer to it can be made. -/
structure Sane (s : Spec κ ν) : Prop where
  pos : 0 < s.limit
  nodup : s.mru.Nodup
  strong : ∀ k ∈ s.strong, s.lapsed k = false
  lapsed : ∀ k v, s.last k = some v → s.lapsed k = true → s.alive v = false
  held : ∀ v, 0 < s.held v → s.created v
  last : ∀ k v, s.last k = some v → s.created v

/-- Nothing is left for `settle` to find. -/
def Settled (s : Spec κ ν) : Prop := ∀ k v, k ∉ s.strong → s.last k = some v → s.lapsed k = false → s.alive v

theorem alive_iff : s.alive v ↔ 0 < s.held v ∨ ∃ k ∈ s.strong, s.last k = some v := by
  simp [alive]

theorem alive_of_held (h : 0 < s.held v) : s.alive v := alive_iff.mpr (.inl h)

/-- A value that is alive gets another holder. -/
theorem alive_of_update (hv : s.alive v) {m : Nat} {w : ν} (hw : 0 < Function.update s.held v m w) :
    s.alive w := by
  by_cases hwv : w = v
  · exact hwv ▸ hv
  · rw [Function.update_of_ne hwv] at hw
    exact alive_of_held hw

theorem Sane.created (h : Sane s) (ha : s.alive v) : s.created v := by
  rcases alive_iff.mp ha with hv | ⟨k, -, hk⟩
  · exact h.held v hv
  · exact h.last k v hk

/-- The values have other holders. Who holds one held it before, or it is new. -/
theorem Sane.rehold (h : Sane s) {held : ν → Nat} {created : ν → Bool} (returned : Option ν)
    (hc : ∀ v, s.created v → created v)
    (hheld : ∀ v, 0 < held v → s.alive v ∨ s.created v = false ∧ created v) :
    Sane { s with held := held, created := created, returned := returned } := by
  refine ⟨h.pos, h.nodup, h.strong, fun k v hv hl => ?_, fun v hv => ?_,
    fun k v hv => hc v (h.last k v hv)⟩
  · have hdead : s.alive v = false := h.lapsed k v hv hl
    refine Bool.eq_false_iff.mpr fun ha => Bool.eq_false_iff.mp hdead ?_
    rcases alive_iff.mp ha with hv' | hk
    · exact (hheld v hv').resolve_right fun hnew => by simp [h.last k v hv] at hnew
    · exact alive_iff.mpr (.inr hk)
  · rcases hheld v hv with ha | ⟨-, hv⟩
    · exact hc v (h.created ha)
    · exact hv

variable [DecidableEq κ]

@[simp] theorem strong_settle (s : Spec κ ν) : s.settle.strong = s.strong := rfl
@[simp] theorem alive_settle (s : Spec κ ν) : s.settle.alive = s.alive := rfl

theorem Settled.alive_of_lookup (h : Settled s) (hv : s.lookup key = some v) : s.alive v := by
  unfold lookup at hv
  split at hv
  next hk =>
    by_cases hstrong : key ∈ s.strong
    · exact alive_iff.mpr (.inr ⟨key, hstrong, hv⟩)
    · exact h key v hstrong hv (hk.resolve_left hstrong)
  next => cases hv

theorem Sane.settle (h : Sane s) : Sane s.settle := by
  refine ⟨h.pos, h.nodup, fun k hk => ?_, fun k v hv hl => ?_, h.held, h.last⟩
  · rw [strong_settle] at hk
    simp [Spec.settle, h.strong k hk, hk]
  · have hv : s.last k = some v := hv
    simp only [Spec.settle, hv, Bool.or_eq_true, Bool.and_eq_true, Option.any_some] at hl
    rw [alive_settle]
    rcases hl with hl | ⟨-, hl⟩
    · exact h.lapsed k v hv hl
    · simpa using hl

theorem settled_settle (s : Spec κ ν) : Settled s.settle := by
  intro k v hk hv hl
  rw [strong_settle] at hk
  have hv : s.last k = some v := hv
  rw [alive_settle]
  simp only [Spec.settle, hk, hv, Bool.or_eq_false_iff] at hl
  simpa using hl.2

/-- A key is given a value that is alive. -/
theorem Sane.use (h : Sane s) (ha : s.alive v) : Sane (s.use key v) := by
  have halive : ∀ w, (s.use key v).alive w → s.alive w := fun w hw => by
    rcases alive_iff.mp hw with hw | ⟨k, hk, hw⟩
    · exact alive_iff.mpr (.inl hw)
    by_cases hkk : k = key
    · simp only [Spec.use, hkk, Function.update_self, Option.some.injEq] at hw
      exact hw ▸ ha
    · simp only [Spec.use, Function.update_of_ne hkk] at hw
      exact alive_iff.mpr (.inr ⟨k, (mem_strong_use h.pos hk).resolve_left hkk, hw⟩)
  refine ⟨h.pos, ?_, fun k hk => ?_, fun k w hw hl => ?_, h.held, fun k w hw => ?_⟩
  · exact List.nodup_cons.mpr ⟨fun hk => (h.nodup.mem_erase_iff.mp hk).1 rfl, h.nodup.erase _⟩
  all_goals by_cases hkk : k = key
  · simp [Spec.use, hkk]
  · simpa [Spec.use, hkk] using h.strong k ((mem_strong_use h.pos hk).resolve_left hkk)
  · simp [Spec.use, hkk] at hl
  · simp only [Spec.use, Function.update_of_ne hkk] at hw hl
    exact Bool.eq_false_iff.mpr fun hw' => Bool.eq_false_iff.mp (h.lapsed k w hw hl) (halive w hw')
  · simp only [Spec.use, hkk, Function.update_self, Option.some.injEq] at hw
    exact hw ▸ h.created ha
  · simp only [Spec.use, Function.update_of_ne hkk] at hw
    exact h.last k w hw

end Spec

end LRU
