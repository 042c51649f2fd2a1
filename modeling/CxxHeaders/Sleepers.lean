/-
Threads that sleep on condition variables.

In a system that takes one action after another (`base`), a thread that waits
looks at the state again and again. With sleepers (`next`) it sleeps from one
look to the next, until a notification wakes it up, or something else does:
`Signals` says whose action is whose, after which ones the actor sleeps, and
whom they notify. With sleepers nothing new is reached (`reachable_base`). Nobody
sleeps who would find what it waits for, provided the notifications are enough
(`Enough`, `no_lost_wakeup`): one for everybody, or one for the only sleeper
there can be; and then a run without sleepers in which nobody looks in vain is
one with them (`exists_notified_run`).
-/
import CxxHeaders.Runs

open Outcome

/-- Whom a section notifies: nobody, one of the threads that sleep on a
condition variable (`notify_one`), or all of them (`notify_all`). -/
inductive Notify (κ : Type) where
  | nobody
  | one (c : κ)
  | all (c : κ)
  deriving DecidableEq

structure Signals (σ α ω κ : Type) where
  /-- The thread that takes the action, if it is one that may wait. -/
  actor : α → Option ω
  /-- Where it sleeps when it has taken it. -/
  sleeps : σ → α → Option κ
  notifies : σ → α → Notify κ

namespace Sleepers

variable {σ α ω κ : Type}

structure Config (σ ω κ : Type) where
  state : σ
  asleep : List (ω × κ)

inductive Act (α ω : Type) where
  /-- `woken` is the sleeper that `notify_one` chooses, if there is one. -/
  | act (a : α) (woken : Option ω)
  /-- A wait ends without a notification: its time is over, or for no reason. -/
  | wakeUp (w : ω)

variable [DecidableEq ω] [DecidableEq κ]

/-- The sleepers whom a notification leaves asleep. -/
def notify (asleep : List (ω × κ)) : Notify κ → Option ω → Outcome (List (ω × κ))
  | .nobody, _ => return asleep
  | .all c, _ => return asleep.filter (·.2 ≠ c)
  | .one c, none => do
    requiring (∀ p ∈ asleep, p.2 ≠ c)
    return asleep
  | .one c, some w => do
    requiring ((w, c) ∈ asleep)
    return asleep.filter (· ≠ (w, c))

variable (base : σ → α → Outcome σ) (k : Signals σ α ω κ)

/-- The actor, where it goes to sleep. -/
def sleeper (s : σ) (a : α) : List (ω × κ) :=
  match k.actor a, k.sleeps s a with
  | some w, some c => [(w, c)]
  | _, _ => []

def next (c : Config σ ω κ) : Act α ω → Outcome (Config σ ω κ)
  | .act a woken => do
    requiring (∀ p ∈ c.asleep, k.actor a ≠ some p.1)
    let state ← base c.state a
    let asleep ← notify c.asleep (k.notifies c.state a) woken
    return ⟨state, sleeper k c.state a ++ asleep⟩
  | .wakeUp w => return { c with asleep := c.asleep.filter (·.1 ≠ w) }

/-- Nobody sleeps yet. -/
def Init (init : σ → Prop) (c : Config σ ω κ) : Prop := init c.state ∧ c.asleep = []

/-! ## Notifications -/

theorem notify_yields {asleep : List (ω × κ)} {n : Notify κ} {woken : Option ω} :
    (notify asleep n woken).Yields fun left =>
      (∀ p ∈ left, p ∈ asleep) ∧ ∀ w c, (w, c) ∈ left →
        n ≠ .all c ∧ (n = .one c → ∃ v, v ≠ w ∧ (v, c) ∈ asleep) := by
  cases n with
  | nobody => exact yields_next.mpr ⟨fun p hp => hp, fun w c _ => by simp⟩
  | all c =>
    refine yields_next.mpr ⟨fun p hp => (List.mem_filter.mp hp).1, fun w d hd => ?_⟩
    have hne := (List.mem_filter.mp hd).2
    simp only [decide_eq_true_eq] at hne
    simp [Ne.symm hne]
  | one c =>
    cases woken with
    | none =>
      simp only [notify, yields_bind, yields_requiring]
      refine fun hnone => yields_next.mpr ⟨fun p hp => hp, fun w d hd => ?_⟩
      have hne : d ≠ c := hnone (w, d) hd
      simp [Ne.symm hne]
    | some v =>
      simp only [notify, yields_bind, yields_requiring]
      refine fun hv => yields_next.mpr ⟨fun p hp => (List.mem_filter.mp hp).1, fun w d hd => ?_⟩
      have hne := (List.mem_filter.mp hd).2
      simp only [decide_eq_true_eq] at hne
      refine ⟨by simp, fun he => ⟨v, ?_, ?_⟩⟩
      · cases he
        exact fun hvw => hne (by rw [hvw])
      · cases he
        exact hv

/-- There is always somebody to choose, or nobody sleeps there. -/
theorem exists_notify (asleep : List (ω × κ)) (n : Notify κ) :
    ∃ woken left, notify asleep n woken = .next left := by
  cases n with
  | nobody => exact ⟨none, _, rfl⟩
  | all c => exact ⟨none, _, rfl⟩
  | one c =>
    by_cases hnone : ∀ p ∈ asleep, p.2 ≠ c
    · exact ⟨none, _, by rw [notify, requiring_true hnone]; rfl⟩
    · simp only [ne_eq, not_forall, not_not] at hnone
      obtain ⟨p, hp, hc⟩ := hnone
      have hmem : (p.1, c) ∈ asleep := hc ▸ hp
      exact ⟨some p.1, _, by rw [notify, requiring_true hmem]; rfl⟩

/-! ## The two systems -/

variable {base k} {init : σ → Prop}

/-- What a step is made of. -/
theorem next_act {c d : Config σ ω κ} {a : α} {woken : Option ω} :
    next base k c (.act a woken) = .next d ↔
      (∀ p ∈ c.asleep, k.actor a ≠ some p.1) ∧ base c.state a = .next d.state ∧
      ∃ left, notify c.asleep (k.notifies c.state a) woken = .next left ∧
        d.asleep = sleeper k c.state a ++ left := by
  simp only [next, bind_eq_next, requiring_eq_next, pure_eq, Outcome.next.injEq]
  constructor
  · rintro ⟨-, haw, s, hs, left, hleft, rfl⟩
    exact ⟨haw, hs, left, hleft, rfl⟩
  · rintro ⟨haw, hs, left, hleft, hd⟩
    refine ⟨(), haw, d.state, hs, left, hleft, ?_⟩
    rw [← hd]

omit [DecidableEq ω] [DecidableEq κ] in
theorem mem_sleeper {s : σ} {a : α} {p : ω × κ} (h : p ∈ sleeper k s a) :
    k.actor a = some p.1 ∧ k.sleeps s a = some p.2 := by
  unfold sleeper at h
  split at h
  · next hw hc =>
    rw [List.mem_singleton.mp h]
    exact ⟨hw, hc⟩
  · cases h

/-- **Sleepers do nothing new**: every state that is reached with them is
reached without. -/
theorem reachable_base {c : Config σ ω κ} (h : Runs.Reachable (next base k) (Init init) c) :
    Runs.Reachable base init c.state := by
  induction h with
  | init h => exact .init h.1
  | @step s a t _ ht ih =>
    cases a with
    | act a woken => exact ih.step (next_act.mp ht).2.1
    | wakeUp w =>
      cases ht
      exact ih

/-- The action of a thread that is awake. -/
theorem exists_act {s t : σ} {a : α} {asleep : List (ω × κ)} (h : base s a = .next t)
    (haw : ∀ p ∈ asleep, k.actor a ≠ some p.1) :
    ∃ woken left, next base k ⟨s, asleep⟩ (.act a woken) = .next ⟨t, left⟩ := by
  obtain ⟨woken, left, hleft⟩ := exists_notify asleep (k.notifies s a)
  exact ⟨woken, _, next_act.mpr ⟨haw, h, left, hleft, rfl⟩⟩

/-! ## Lost wake-ups -/

/-- The notifications are enough: whoever goes to sleep waits for what is not
there, and what makes it be there notifies all, or one where there is no other.
`I` is an invariant of the system, `waits` says who may be asleep and where, and
`ready` whose wait would end with a look. -/
structure Enough (base : σ → α → Outcome σ) (k : Signals σ α ω κ) (I : σ → Prop)
    (waits : σ → ω → κ → Prop) (ready : σ → ω → Prop) : Prop where
  sleeps : ∀ {s a t w c}, I s → base s a = .next t → k.actor a = some w → k.sleeps s a = some c →
    waits t w c ∧ ¬ready t w
  keeps : ∀ {s a t w c}, I s → base s a = .next t → k.actor a ≠ some w → waits s w c → ¬ready s w →
    waits t w c ∧ (ready t w → k.notifies s a = .all c ∨
      k.notifies s a = .one c ∧ ∀ v, waits s v c → v = w)

/-- Whoever sleeps waits, for what is not there. -/
def Justified (waits : σ → ω → κ → Prop) (ready : σ → ω → Prop) (c : Config σ ω κ) : Prop :=
  ∀ p ∈ c.asleep, waits c.state p.1 p.2 ∧ ¬ready c.state p.1

variable {I : σ → Prop} {waits : σ → ω → κ → Prop} {ready : σ → ω → Prop}

theorem Enough.step (h : Enough base k I waits ready) {c d : Config σ ω κ} (hi : I c.state)
    (hc : Justified waits ready c) {a : Act α ω} (hn : next base k c a = .next d) :
    Justified waits ready d := by
  cases a with
  | wakeUp v =>
    cases hn
    exact fun p hp => hc p (List.mem_filter.mp hp).1
  | act a woken =>
    obtain ⟨haw, hs, left, hleft, hd⟩ := next_act.mp hn
    obtain ⟨hsub, hnot⟩ := notify_yields left hleft
    intro p hp
    rw [hd] at hp
    rcases List.mem_append.mp hp with hp | hp
    · obtain ⟨hactor, hsleeps⟩ := mem_sleeper hp
      exact h.sleeps hi hs hactor hsleeps
    · obtain ⟨hwaits, hready⟩ := hc p (hsub p hp)
      obtain ⟨hkeeps, henough⟩ := h.keeps hi hs (haw p (hsub p hp)) hwaits hready
      obtain ⟨hall, hone⟩ := hnot p.1 p.2 hp
      refine ⟨hkeeps, fun hr => ?_⟩
      rcases henough hr with hn | ⟨hn, honly⟩
      · exact hall hn
      · obtain ⟨v, hne, hv⟩ := hone hn
        exact hne (honly v (hc (v, p.2) hv).1)

/-- **No wake-up is lost.** In no state that is reached does a thread sleep
whose wait would end with a look. -/
theorem no_lost_wakeup (h : Enough base k I waits ready) (hi : ∀ s, Runs.Reachable base init s → I s)
    {c : Config σ ω κ} (hc : Runs.Reachable (next base k) (Init init) c) : Justified waits ready c := by
  induction hc with
  | init hc => simp [Justified, hc.2]
  | step hr hn ih => exact h.step (hi _ (reachable_base hr)) ih hn

/-- **Nobody has to be lucky**: a run in which the threads that wait only look
when they are ready needs no wake-up but the notifications. -/
theorem exists_notified_run (h : Enough base k I waits ready)
    (hi : ∀ s, Runs.Reachable base init s → I s) {c : Config σ ω κ}
    (hc : Runs.Reachable (next base k) (Init init) c) {t : σ} {as : List α}
    (hrun : Runs.run base c.state as = .next t)
    (hready : Runs.Meets base (fun s a => ∀ w v, k.actor a = some w → waits s w v → ready s w)
      c.state as) :
    ∃ bs left, (∀ b ∈ bs, ∃ a ∈ as, ∃ woken, b = .act a woken) ∧
      Runs.run (next base k) c bs = .next ⟨t, left⟩ := by
  induction as generalizing c with
  | nil =>
    cases hrun
    exact ⟨[], c.asleep, by simp, rfl⟩
  | cons a as ih =>
    simp only [Runs.run, bind_eq_next] at hrun
    obtain ⟨m, hm, hrest⟩ := hrun
    have haw : ∀ p ∈ c.asleep, k.actor a ≠ some p.1 := fun p hp he =>
      have hwait := no_lost_wakeup h hi hc p hp
      hwait.2 (hready.1 p.1 p.2 he hwait.1)
    obtain ⟨woken, left, hact⟩ := exists_act (k := k) hm haw
    obtain ⟨bs, left', hbs, hrun'⟩ := ih (hc.step hact) hrest (hready.2 m hm)
    refine ⟨.act a woken :: bs, left', ?_, ?_⟩
    · intro b hb
      rcases List.mem_cons.mp hb with rfl | hb
      · exact ⟨a, List.mem_cons_self, woken, rfl⟩
      · obtain ⟨a', ha', hw⟩ := hbs b hb
        exact ⟨a', List.mem_cons_of_mem a ha', hw⟩
    · rw [Runs.run, hact, next_bind, hrun']

end Sleepers
