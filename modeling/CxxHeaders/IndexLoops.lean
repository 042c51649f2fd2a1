/-
Searches in loops over an unsigned index, which wraps around: upwards below or
through a bound, and downwards in the three ways there are to write it. Each
finds the least or the greatest index that passes the test, and looks at no
index out of its range.
-/
import CxxHeaders.Runs
import Mathlib.Tactic.Linarith

open Outcome

namespace IndexLoop

variable {w : Nat}

/-- The least index there is, or none. -/
def Least (S : Nat → Prop) : Option (BitVec w) → Prop
  | none => ∀ j, ¬S j
  | some i => S i.toNat ∧ ∀ j, S j → i.toNat ≤ j

/-- The greatest index there is, or none. -/
def Greatest (S : Nat → Prop) : Option (BitVec w) → Prop
  | none => ∀ j, ¬S j
  | some i => S i.toNat ∧ ∀ j, S j → j ≤ i.toNat

variable (test : BitVec w → Outcome Bool)

/-- `for (; i < bound; ++i) if (test(i)) return i;` -/
def below (bound : BitVec w) : Nat → BitVec w → Outcome (Option (BitVec w))
  | 0, _ => .blocked
  | fuel + 1, i =>
    if i < bound then do
      if ← test i then return some i else below bound fuel (i + 1)
    else return none

/-- `for (; i <= bound; ++i) if (test(i)) return i;` -/
def through (bound : BitVec w) : Nat → BitVec w → Outcome (Option (BitVec w))
  | 0, _ => .blocked
  | fuel + 1, i =>
    if i ≤ bound then do
      if ← test i then return some i else through bound fuel (i + 1)
    else return none

/-- `for (; i--;) if (test(i)) return i;` -/
def under : Nat → BitVec w → Outcome (Option (BitVec w))
  | 0, _ => .blocked
  | fuel + 1, i =>
    if i ≠ 0 then do
      let i := i - 1
      if ← test i then return some i else under fuel i
    else return none

/-- `for (;; --i) { if (test(i)) return i; if (i <= 0) break; }` -/
def downTo : Nat → BitVec w → Outcome (Option (BitVec w))
  | 0, _ => .blocked
  | fuel + 1, i => do
    if ← test i then return some i
    else if i ≤ 0 then return none
    else downTo fuel (i - 1)

/-- `for (;; --i) if (test(i)) return i;` -/
def endless : Nat → BitVec w → Outcome (BitVec w)
  | 0, _ => .blocked
  | fuel + 1, i => do
    if ← test i then return i else endless fuel (i - 1)

/-! ## Indices -/

variable {i : BitVec w}

theorem toNat_add_one (h : i.toNat + 1 < 2 ^ w) : (i + 1).toNat = i.toNat + 1 := by
  rw [BitVec.toNat_add, BitVec.ofNat_eq_ofNat, BitVec.toNat_ofNat, Nat.add_mod_mod, Nat.mod_eq_of_lt h]

theorem toNat_ne_zero (h : i ≠ 0) : i.toNat ≠ 0 := fun hz => h (BitVec.eq_of_toNat_eq (by simpa using hz))

theorem toNat_sub_one (h : i ≠ 0) : (i - 1).toNat = i.toNat - 1 := by
  have hpos := toNat_ne_zero h
  have hlt := i.isLt
  have hw : 1 < 2 ^ w := by omega
  have hone : (1 : BitVec w).toNat = 1 := by
    rw [BitVec.ofNat_eq_ofNat, BitVec.toNat_ofNat, Nat.mod_eq_of_lt hw]
  have hle : (1 : BitVec w) ≤ i := by
    rw [BitVec.le_def, hone]
    omega
  rw [BitVec.toNat_sub_of_le hle, hone]

/-! ## The least and the greatest -/

variable {S T : Nat → Prop} {r : Option (BitVec w)}

theorem Least.congr (h : Least S r) (hst : ∀ j, S j ↔ T j) : Least T r := by
  have heq : S = T := funext fun j => propext (hst j)
  exact heq ▸ h

theorem Greatest.congr (h : Greatest S r) (hst : ∀ j, S j ↔ T j) : Greatest T r := by
  have heq : S = T := funext fun j => propext (hst j)
  exact heq ▸ h

/-- An index that fails the test is not among those to be found. -/
theorem iff_of_failed {n : Nat} (hn : ¬T n) (hsub : ∀ j, S j → T j) (hrest : ∀ j, T j → j ≠ n → S j) (j : Nat) :
    S j ↔ T j := by
  refine ⟨hsub j, fun hj => hrest j hj ?_⟩
  rintro rfl
  exact hn hj

/-! ## Loops -/

variable {test} {p : Nat → Bool} {bound : BitVec w}

theorem below_returns (fuel : Nat) (htest : ∀ j, i ≤ j → j < bound → test j = .next (p j.toNat))
    (hfuel : bound.toNat - i.toNat < fuel) :
    (below test bound fuel i).Returns (Least fun j => i.toNat ≤ j ∧ j < bound.toNat ∧ p j = true) := by
  induction fuel generalizing i with
  | zero => omega
  | succ fuel ih =>
    unfold below
    split
    · next hlt =>
      rw [htest i (BitVec.le_refl i) hlt, next_bind]
      rw [BitVec.lt_def] at hlt
      have hbound := bound.isLt
      have hsucc := toNat_add_one (i := i) (by omega)
      split
      · next hp => exact ⟨⟨Nat.le_refl _, hlt, hp⟩, fun j hj => hj.1⟩
      · next hp =>
        have hrest := ih (i := i + 1)
          (fun j hj => htest j (by rw [BitVec.le_def] at hj ⊢; omega)) (by omega)
        refine hrest.mono fun r hr => hr.congr (iff_of_failed (n := i.toNat) (fun h => hp h.2.2) ?_ ?_)
        · exact fun j hj => ⟨by omega, hj.2⟩
        · exact fun j hj hne => ⟨by have := hj.1; omega, hj.2⟩
    · next hge =>
      rw [BitVec.lt_def] at hge
      exact fun j hj => hge (Nat.lt_of_le_of_lt hj.1 hj.2.1)

/-- The bound is not the greatest index, or the loop would not end. -/
theorem through_returns (fuel : Nat) (hbound : bound.toNat + 1 < 2 ^ w)
    (htest : ∀ j, i ≤ j → j ≤ bound → test j = .next (p j.toNat))
    (hfuel : bound.toNat + 1 - i.toNat < fuel) :
    (through test bound fuel i).Returns (Least fun j => i.toNat ≤ j ∧ j ≤ bound.toNat ∧ p j = true) := by
  induction fuel generalizing i with
  | zero => omega
  | succ fuel ih =>
    unfold through
    split
    · next hle =>
      rw [htest i (BitVec.le_refl i) hle, next_bind]
      rw [BitVec.le_def] at hle
      have hsucc := toNat_add_one (i := i) (by omega)
      split
      · next hp => exact ⟨⟨Nat.le_refl _, hle, hp⟩, fun j hj => hj.1⟩
      · next hp =>
        have hrest := ih (i := i + 1)
          (fun j hj => htest j (by rw [BitVec.le_def] at hj ⊢; omega)) (by omega)
        refine hrest.mono fun r hr => hr.congr (iff_of_failed (n := i.toNat) (fun h => hp h.2.2) ?_ ?_)
        · exact fun j hj => ⟨by omega, hj.2⟩
        · exact fun j hj hne => ⟨by have := hj.1; omega, hj.2⟩
    · next hgt =>
      rw [BitVec.le_def] at hgt
      exact fun j hj => hgt (Nat.le_trans hj.1 hj.2.1)

theorem under_returns (fuel : Nat) (htest : ∀ j, j < i → test j = .next (p j.toNat))
    (hfuel : i.toNat < fuel) :
    (under test fuel i).Returns (Greatest fun j => j < i.toNat ∧ p j = true) := by
  induction fuel generalizing i with
  | zero => omega
  | succ fuel ih =>
    unfold under
    split
    · next hne =>
      have hpos := toNat_ne_zero hne
      have hpred := toNat_sub_one hne
      dsimp only
      rw [htest (i - 1) (by rw [BitVec.lt_def]; omega), next_bind]
      split
      · next hp => exact ⟨⟨by omega, hp⟩, fun j hj => by omega⟩
      · next hp =>
        have hrest := ih (i := i - 1)
          (fun j hj => htest j (by rw [BitVec.lt_def] at hj ⊢; omega)) (by omega)
        refine hrest.mono fun r hr => hr.congr (iff_of_failed (n := (i - 1).toNat) (fun h => hp h.2) ?_ ?_)
        · exact fun j hj => ⟨by omega, hj.2⟩
        · exact fun j hj hne => ⟨by have := hj.1; omega, hj.2⟩
    · next hzero =>
      intro j hj
      rw [not_not.mp hzero] at hj
      simp at hj

theorem downTo_returns (fuel : Nat) (htest : ∀ j, j ≤ i → test j = .next (p j.toNat))
    (hfuel : i.toNat < fuel) :
    (downTo test fuel i).Returns (Greatest fun j => j ≤ i.toNat ∧ p j = true) := by
  induction fuel generalizing i with
  | zero => omega
  | succ fuel ih =>
    unfold downTo
    rw [htest i (BitVec.le_refl i), next_bind]
    split
    · next hp => exact ⟨⟨Nat.le_refl _, hp⟩, fun j hj => hj.1⟩
    · next hp =>
      split
      · next hzero =>
        intro j hj
        have hi : i.toNat = 0 := by simpa [BitVec.le_def] using hzero
        exact hp ((show j = i.toNat by omega) ▸ hj.2)
      · next hne =>
        have hne : i ≠ 0 := fun h => hne (h ▸ BitVec.le_refl _)
        have hpos := toNat_ne_zero hne
        have hpred := toNat_sub_one hne
        have hrest := ih (i := i - 1)
          (fun j hj => htest j (by rw [BitVec.le_def] at hj ⊢; omega)) (by omega)
        refine hrest.mono fun r hr => hr.congr (iff_of_failed (n := i.toNat) (fun h => hp h.2) ?_ ?_)
        · exact fun j hj => ⟨by omega, hj.2⟩
        · exact fun j hj hne => ⟨by have := hj.1; omega, hj.2⟩

/-- It ends where there is an index to be found, and does not pass it. -/
theorem endless_returns (fuel : Nat) (htest : ∀ j, j ≤ i → test j = .next (p j.toNat))
    (hex : ∃ j ≤ i.toNat, p j = true) (hfuel : i.toNat < fuel) :
    (endless test fuel i).Returns fun r => Greatest (fun j => j ≤ i.toNat ∧ p j = true) (some r) := by
  induction fuel generalizing i with
  | zero => omega
  | succ fuel ih =>
    unfold endless
    rw [htest i (BitVec.le_refl i), next_bind]
    obtain ⟨k, hk, hpk⟩ := hex
    split
    · next hp => exact ⟨⟨Nat.le_refl _, hp⟩, fun j hj => hj.1⟩
    · next hp =>
      have hki : k ≠ i.toNat := fun he => hp (he ▸ hpk)
      have hne : i ≠ 0 := by
        rintro rfl
        simp at hk hki
        omega
      have hpred := toNat_sub_one hne
      have hrest := ih (i := i - 1)
        (fun j hj => htest j (by rw [BitVec.le_def] at hj ⊢; omega)) ⟨k, by omega, hpk⟩ (by omega)
      refine hrest.mono fun r hr => hr.congr (iff_of_failed (n := i.toNat) (fun h => hp h.2) ?_ ?_)
      · exact fun j hj => ⟨by omega, hj.2⟩
      · exact fun j hj hne => ⟨by have := hj.1; omega, hj.2⟩

end IndexLoop
