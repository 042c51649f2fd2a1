/-
The lock has one holder at a time, and the first in line is the next one.

`Line` is what the lock is for: who holds it, and who waits, in order. The
tickets of the line are the numbers from `m_active` on, one after another
(`Stands`). They wrap around, but the line is shorter than the counter's range:
only the first ticket is equal to `m_active`.
-/
import CxxHeaders.TicketSpinLock
import Mathlib.Algebra.Ring.Nat
import Mathlib.Data.Fintype.Card

namespace TicketSpinLock

variable {κ : Type} {w : Nat}

/-- Who holds the lock, and who waits for it. -/
structure Line (κ : Type) where
  holder : Option κ
  waiting : List κ

namespace Line

def threads (l : Line κ) : List κ := l.holder.toList ++ l.waiting

/-- The first ticket of those who wait is `m_active`, unless it is the holder's. -/
def ticket (l : Line κ) (active : BitVec w) (i : Nat) : BitVec w :=
  active + BitVec.ofNat w (l.holder.toList.length + i)

end Line

theorem add_ofNat_eq_self {active : BitVec w} {i : Nat} (hi : i < 2 ^ w) :
    active + BitVec.ofNat w i = active ↔ i = 0 := by
  rw [BitVec.add_right_eq_self]
  constructor
  · intro h
    have hn := congrArg BitVec.toNat h
    rwa [BitVec.toNat_ofNat, BitVec.toNat_ofNat, Nat.mod_eq_of_lt hi, Nat.zero_mod] at hn
  · rintro rfl
    rfl

/-- The line `l` is the one that the counters and the threads of `c` make up. -/
structure Stands (c : Config κ w) (l : Line κ) : Prop where
  nodup : l.threads.Nodup
  outside : ∀ k, k ∉ l.threads → c.phase k = .outside
  holder : ∀ k ∈ l.holder, c.phase k = .locked ∨ c.phase k = .unlocking c.lock.active
  waiting : ∀ i (h : i < l.waiting.length), c.phase l.waiting[i] = .waiting (l.ticket c.lock.active i)
  next : c.lock.next = l.ticket c.lock.active l.waiting.length
  order : c.drawn = c.entered ++ l.waiting

theorem stands_start : Stands (start : Config κ w) ⟨none, []⟩ where
  nodup := List.nodup_nil
  outside _ _ := rfl
  holder _ h := by cases h
  waiting _ h := by cases h
  next := by simp [start, Line.ticket]
  order := rfl

namespace Stands

variable {c : Config κ w} {l : Line κ} {k : κ}

/-- A thread is not in the line, or holds the lock, or waits. -/
theorem phase_cases (h : Stands c l) (k : κ) :
    (c.phase k = .outside ∧ k ∉ l.threads) ∨
    ((c.phase k = .locked ∨ c.phase k = .unlocking c.lock.active) ∧ l.holder = some k) ∨
    ∃ i, ∃ hi : i < l.waiting.length, l.waiting[i] = k ∧ c.phase k = .waiting (l.ticket c.lock.active i) := by
  by_cases hm : k ∈ l.threads
  · rcases List.mem_append.mp hm with hm | hm
    · have hk := Option.mem_toList.mp hm
      exact .inr (.inl ⟨h.holder k hk, hk⟩)
    · obtain ⟨i, hi, rfl⟩ := List.mem_iff_getElem.mp hm
      exact .inr (.inr ⟨i, hi, rfl, h.waiting i hi⟩)
  · exact .inl ⟨h.outside k hm, hm⟩

theorem of_waiting (h : Stands c l) {ticket : BitVec w} (hk : c.phase k = .waiting ticket) :
    ∃ i, ∃ hi : i < l.waiting.length, l.waiting[i] = k ∧ ticket = l.ticket c.lock.active i := by
  rcases h.phase_cases k with ⟨hp, -⟩ | ⟨hp | hp, -⟩ | ⟨i, hi, hget, hp⟩ <;> rw [hp] at hk <;> cases hk
  exact ⟨i, hi, hget, rfl⟩

/-- Who is neither outside nor waits holds the lock. -/
theorem eq_holder (h : Stands c l) (hk : c.Holds k) : l.holder = some k := by
  rcases h.phase_cases k with ⟨hp, -⟩ | ⟨-, hholder⟩ | ⟨i, hi, hget, hp⟩
  · rcases hk with hk | ⟨active, hk⟩ <;> rw [hp] at hk <;> cases hk
  · exact hholder
  · rcases hk with hk | ⟨active, hk⟩ <;> rw [hp] at hk <;> cases hk

theorem not_mem (h : Stands c l) (hk : c.phase k = .outside) : k ∉ l.threads := by
  rcases h.phase_cases k with ⟨-, hm⟩ | ⟨hp | hp, -⟩ | ⟨i, hi, hget, hp⟩
  · exact hm
  all_goals
    rw [hp] at hk
    cases hk

/-- Only the first ticket of the line is `m_active`, and only where nobody holds
the lock. -/
theorem front (h : Stands c l) (hl : l.threads.length < 2 ^ w) (hk : c.phase k = .waiting c.lock.active) :
    ∃ ks, l = ⟨none, k :: ks⟩ := by
  obtain ⟨i, hi, hget, ht⟩ := h.of_waiting hk
  have hlt : l.holder.toList.length + i < 2 ^ w := by
    unfold Line.threads at hl
    rw [List.length_append] at hl
    omega
  have hz := (add_ofNat_eq_self hlt).mp ht.symm
  obtain ⟨holder, waiting⟩ := l
  cases holder with
  | some j => simp at hz
  | none =>
    obtain rfl : i = 0 := by simpa using hz
    cases waiting with
    | nil => simp at hi
    | cons j ks => exact ⟨ks, by rw [← hget]; rfl⟩

variable [DecidableEq κ]

/-! ## The steps -/

/-- A thread joins the line at its end. -/
theorem fetchAdd (h : Stands c l) (hk : k ∉ l.threads) :
    Stands { c with
      lock := { c.lock with next := c.lock.next + 1 }
      phase := Function.update c.phase k (.waiting c.lock.next)
      drawn := c.drawn ++ [k] } ⟨l.holder, l.waiting ++ [k]⟩ := by
  have hne : ∀ {j}, j ∈ l.threads → j ≠ k := fun hj he => hk (he ▸ hj)
  have hthreads : Line.threads ⟨l.holder, l.waiting ++ [k]⟩ = l.threads ++ [k] :=
    (List.append_assoc _ _ _).symm
  constructor
  · rw [hthreads]
    exact List.nodup_append'.mpr ⟨h.nodup, List.nodup_singleton k, by simpa using hk⟩
  · intro j hj
    rw [hthreads, List.mem_append, List.mem_singleton, not_or] at hj
    exact (Function.update_of_ne hj.2 ..).trans (h.outside j hj.1)
  · intro j hj
    have hmem : j ∈ l.threads := List.mem_append_left _ (Option.mem_toList.mpr hj)
    simp only [Function.update_of_ne (hne hmem)]
    exact h.holder j hj
  · intro i hi
    simp only [List.length_append, List.length_singleton] at hi
    by_cases hlast : i < l.waiting.length
    · have hmem : l.waiting[i] ∈ l.threads := List.mem_append_right _ (List.getElem_mem hlast)
      simp only [List.getElem_append_left hlast, Function.update_of_ne (hne hmem)]
      exact h.waiting i hlast
    · obtain rfl : i = l.waiting.length := by omega
      simpa [Line.ticket] using h.next
  · simp only [h.next, Line.ticket, List.length_append, List.length_singleton, ← Nat.add_assoc,
      BitVec.ofNat_add, BitVec.add_assoc]
    rfl
  · simp only [h.order, List.append_assoc]

/-- The first of the line is let in. -/
theorem enter {ks : List κ} (h : Stands c ⟨none, k :: ks⟩) :
    Stands { c with
      phase := Function.update c.phase k .locked
      entered := c.entered ++ [k] } ⟨some k, ks⟩ := by
  have hk : k ∉ ks := (List.nodup_cons.mp h.nodup).1
  constructor
  · exact h.nodup
  · intro j hj
    have hne : j ≠ k := fun he => hj (he ▸ List.mem_cons_self)
    exact (Function.update_of_ne hne ..).trans (h.outside j hj)
  · rintro j ⟨⟩
    exact .inl (Function.update_self ..)
  · intro i hi
    have hne : ks[i] ≠ k := fun he => hk (he ▸ List.getElem_mem hi)
    have hw := h.waiting (i + 1) (Nat.succ_lt_succ hi)
    simp only [Function.update_of_ne hne]
    simpa [Line.ticket, Nat.add_comm] using hw
  · simpa [Line.ticket, Nat.add_comm] using h.next
  · simpa using h.order

theorem load (h : Stands c l) (hk : l.holder = some k) :
    Stands { c with phase := Function.update c.phase k (.unlocking c.lock.active) } l := by
  have hmem : k ∈ l.threads := List.mem_append_left _ (by simp [hk])
  have hne : ∀ {j}, j ∈ l.waiting → j ≠ k := by
    rintro j hj rfl
    exact (List.nodup_append'.mp h.nodup).2.2 (by simp [hk]) hj
  constructor
  · exact h.nodup
  · intro j hj
    exact (Function.update_of_ne (fun he => hj (by rwa [he])) ..).trans (h.outside j hj)
  · intro j hj
    obtain rfl : k = j := by simpa [hk] using hj
    exact .inr (Function.update_self ..)
  · intro i hi
    simp only [Function.update_of_ne (hne (List.getElem_mem hi))]
    exact h.waiting i hi
  · exact h.next
  · exact h.order

/-- The holder leaves; the tickets of those who wait are the same as before. -/
theorem store {ks : List κ} (h : Stands c ⟨some k, ks⟩) :
    Stands { c with
      lock := { c.lock with active := c.lock.active + 1 }
      phase := Function.update c.phase k .outside } ⟨none, ks⟩ := by
  have hk : k ∉ ks := (List.nodup_cons.mp h.nodup).1
  have hticket : ∀ i, Line.ticket ⟨none, ks⟩ (c.lock.active + 1) i =
      Line.ticket ⟨some k, ks⟩ c.lock.active i := fun i => by
    simp [Line.ticket, BitVec.ofNat_add, BitVec.add_assoc]
  constructor
  · exact (List.nodup_cons.mp h.nodup).2
  · intro j hj
    by_cases he : j = k
    · exact he ▸ Function.update_self ..
    · refine (Function.update_of_ne he ..).trans (h.outside j ?_)
      exact List.not_mem_cons_of_ne_of_not_mem he hj
  · rintro j ⟨⟩
  · intro i hi
    have hne : ks[i] ≠ k := fun he => hk (he ▸ List.getElem_mem hi)
    simp only [Function.update_of_ne hne, hticket]
    exact h.waiting i hi
  · exact h.next.trans (hticket _).symm
  · exact h.order

end Stands

section
variable [DecidableEq κ] [Fintype κ]

open Outcome

theorem step_stands (hw : Fintype.card κ < 2 ^ w) (c : Config κ w) (a : Act κ) (h : ∃ l, Stands c l) :
    (c.next a).Ok fun d => ∃ l, Stands d l := by
  obtain ⟨l, h⟩ := h
  cases a with
  | fetchAdd k =>
    cases hk : c.phase k with
    | outside =>
      simp only [Config.next, hk, ok_next]
      exact ⟨_, h.fetchAdd (h.not_mem hk)⟩
    | _ => simp only [Config.next, hk, ok_blocked]
  | compare k =>
    cases hk : c.phase k with
    | waiting ticket =>
      simp only [Config.next, hk]
      by_cases ht : ticket = c.lock.active
      · obtain ⟨ks, rfl⟩ := h.front (Nat.lt_of_le_of_lt h.nodup.length_le_card hw) (ht ▸ hk)
        rw [if_neg (not_not.mpr ht)]
        exact ⟨_, h.enter⟩
      · rw [if_pos ht]
        exact ⟨l, h⟩
    | _ => simp only [Config.next, hk, ok_blocked]
  | load k =>
    cases hk : c.phase k with
    | locked =>
      simp only [Config.next, hk, ok_next]
      exact ⟨l, h.load (h.eq_holder (.inl hk))⟩
    | _ => simp only [Config.next, hk, ok_blocked]
  | store k =>
    cases hk : c.phase k with
    | unlocking active =>
      have hl := h.eq_holder (.inr ⟨active, hk⟩)
      obtain ⟨holder, ks⟩ := l
      obtain rfl : holder = some k := hl
      obtain rfl : active = c.lock.active := by simpa [hk] using h.holder k rfl
      simp only [Config.next, hk, ok_next]
      exact ⟨_, h.store⟩
    | _ => simp only [Config.next, hk, ok_blocked]

theorem reachable_stands (hw : Fintype.card κ < 2 ^ w) {c : Config κ w}
    (h : Runs.Reachable Config.next (· = start) c) : ∃ l, Stands c l :=
  h.invariant (fun _ hc => hc ▸ ⟨_, stands_start⟩) (step_stands hw)

/-- Where nobody holds the lock and somebody waits for it, somebody is let in. -/
theorem somebody_enters (hw : Fintype.card κ < 2 ^ w) {c : Config κ w}
    (h : Runs.Reachable Config.next (· = start) c) (hfree : ∀ k, ¬c.Holds k) {j : κ} {ticket : BitVec w}
    (hj : c.phase j = .waiting ticket) :
    ∃ k, (c.next (.compare k)).Returns fun d => d.Holds k := by
  obtain ⟨⟨holder, waiting⟩, hc⟩ := reachable_stands hw h
  obtain ⟨i, hi, -⟩ := hc.of_waiting hj
  cases holder with
  | some k => exact absurd ((hc.holder k rfl).imp_right fun hk => ⟨_, hk⟩) (hfree k)
  | none =>
    have hpos : 0 < waiting.length := Nat.zero_lt_of_lt hi
    have hk : c.phase waiting[0] = .waiting c.lock.active := by
      simpa [Line.ticket] using hc.waiting 0 hpos
    refine ⟨waiting[0], ?_⟩
    simp only [Config.next, hk, ne_eq, not_true, if_false]
    exact .inl (Function.update_self ..)

/-- **The lock has at most one holder, and lets the threads in in the order in
which they have drawn their tickets**, however often the counters wrap around. -/
theorem excludes_in_order (hw : Fintype.card κ < 2 ^ w) {c : Config κ w}
    (h : Runs.Reachable Config.next (· = start) c) :
    (∀ j k, c.Holds j → c.Holds k → j = k) ∧ c.entered <+: c.drawn := by
  obtain ⟨l, hl⟩ := reachable_stands hw h
  refine ⟨fun j k hj hk => ?_, l.waiting, hl.order.symm⟩
  have he := (hl.eq_holder hj).symm.trans (hl.eq_holder hk)
  exact Option.some.inj he

end

/-- The first of two threads takes the lock five times and then a sixth time,
while the second comes to wait for it. -/
def fiveAndTwo : List (Act (Fin 2)) :=
  (List.replicate 5 [.fetchAdd 0, .compare 0, .load 0, .store 0]).flatten ++
    [.fetchAdd 0, .fetchAdd 1, .compare 1, .compare 0]

theorem excludes_in_order_fiveAndTwo :
    ∃ c : Config (Fin 2) 2, Runs.run Config.next start fiveAndTwo = .next c ∧
      (∀ j k, c.Holds j → c.Holds k → j = k) ∧ c.entered <+: c.drawn :=
  ⟨_, rfl, excludes_in_order (by decide)
    (Runs.Reachable.run (.init rfl) (rfl : Runs.run Config.next start fiveAndTwo = _))⟩

end TicketSpinLock
