/-
A handler whose file descriptor was removed is safe to destroy after a wait.

The iteration in which the handler can still be called is the one that was
going on when the wait began (`Retiring`): its end changes the counter, and
while it goes on the mutex is not free. So a wait that returns for one of these
reasons returns after it; one that returns because its byte could not be
written may not, but that takes a `stopAsync` (`quiesces`, `returns_early`).
-/
import CxxHeaders.EventLoopWaits

open Outcome

namespace EventLoop

variable {ω η : Type}

/-- The counter when the wait began. -/
def Waiter.start? : Waiter → Option (BitVec 32)
  | .loaded start | .missed start | .writing start | .spinning start => some start
  | _ => none

/-- The iteration has got an event for the handler, which is still to be called. -/
def Pends (c : Config ω η) (h : η) : Prop :=
  match c.loop with
  | .handling rest _ => some h ∈ rest.map Event.ptr
  | _ => False

structure Inv (c : Config ω η) : Prop where
  loop : c.loop ≠ .outside ↔ c.stopMutex = .loop
  waiter : ∀ w, c.waiter w = .locked ↔ c.stopMutex = .waiter w
  failed : ∀ w, c.waiter w = .returned .failed → c.writeEnd = false

/-- The handler is not armed, and can be called only in iteration `k`, in which
the wait of `w` began. -/
structure Retiring (h : η) (w : ω) (k : Nat) (c : Config ω η) : Prop where
  armed : c.armed h = false
  ended : Pends c h → c.ended = k
  start : ∀ start, (c.waiter w).start? = some start → Pends c h → start = BitVec.ofNat 32 k
  returned : ∀ r, c.waiter w = .returned r → r ≠ .failed → ¬Pends c h

variable {c d : Config ω η} {h : η} {w : ω} {k : Nat}

theorem init_inv (hi : Init c) : Inv c := by
  obtain ⟨-, hl, -, hm, -, -, hw, -⟩ := hi
  exact ⟨by simp [hl, hm], by simp [hw, hm], by simp [hw]⟩

/-- Who has the mutex knows that the loop is not in `run`. -/
theorem Inv.not_pends (hv : Inv c) (hw : c.waiter w = .locked) : ¬Pends c h := by
  have hm := (hv.waiter w).mp hw
  have hl : c.loop = .outside := Classical.byContradiction fun hl => by
    rw [hv.loop.mp hl] at hm
    cases hm
  simp [Pends, hl]

variable [DecidableEq ω] [DecidableEq η] {e : EpollEvent}

/-- What can become of a waiter: it starts from the counter, and returns because
it had the mutex or saw the counter change, or its byte could not be written. -/
structure Moves (c : Config ω η) (x y : Waiter) : Prop where
  start : ∀ start, y.start? = some start → x.start? = some start ∨ start = c.loopCounter
  returned : ∀ r, y = .returned r → r ≠ .failed → x = y ∨ x = .locked ∨
    ∃ start, x.start? = some start ∧ c.loopCounter ≠ start

/-- What a step does to a handler that is not armed, and to the waiters. -/
structure Effect (h : η) (c d : Config ω η) : Prop where
  armed : c.armed h = false → d.armed h = false
  pends : c.armed h = false → Pends d h → Pends c h ∧ d.ended = c.ended
  handled : d.handled = c.handled ∨ ∃ g, Pends c g ∧ d.handled = c.handled ++ [g]
  waiter : ∀ v, Moves c (c.waiter v) (d.waiter v)

omit [DecidableEq ω] [DecidableEq η] in
theorem Moves.refl (x : Waiter) : Moves c x x := ⟨fun _ hs => .inl hs, fun _ _ _ => .inl rfl⟩

omit [DecidableEq ω] [DecidableEq η] in
/-- It goes on from the same start. -/
theorem Moves.goOn {x y : Waiter} (hs : y.start? = x.start?) (hr : ∀ r, y ≠ .returned r) : Moves c x y :=
  ⟨fun _ hy => .inl (hs ▸ hy), fun r hy => absurd hy (hr r)⟩

omit [DecidableEq ω] [DecidableEq η] in
theorem Moves.of_none {x y : Waiter} (hs : y.start? = none)
    (hr : ∀ r, y = .returned r → r ≠ .failed → x = .locked ∨
      ∃ start, x.start? = some start ∧ c.loopCounter ≠ start) : Moves c x y :=
  ⟨fun _ hy => (by rw [hs] at hy; cases hy), fun r hy hne => .inr (hr r hy hne)⟩

omit [DecidableEq η] in
/-- A step of a waiter. -/
theorem Effect.ofWaiter {v : ω} {x : Waiter} (hx : Moves c (c.waiter v) x)
    (hw : d.waiter = Function.update c.waiter v x) (hl : d.loop = c.loop) (he : d.ended = c.ended)
    (ha : d.armed = c.armed) (hh : d.handled = c.handled) : Effect h c d := by
  refine ⟨fun hf => by rw [ha, hf], fun _ hp => ⟨?_, he⟩, .inl hh, fun u => ?_⟩
  · unfold Pends at hp ⊢
    rwa [← hl]
  · rw [hw]
    by_cases hu : u = v
    · rw [hu, Function.update_self]
      exact hx
    · rw [Function.update_of_ne hu]
      exact .refl _

omit [DecidableEq ω] [DecidableEq η] in
/-- A step of the loop to where the handler is not to be called. -/
theorem Effect.ofLoop (hw : d.waiter = c.waiter) (ha : d.armed = c.armed) (hp : ¬Pends d h)
    (hh : d.handled = c.handled) : Effect h c d :=
  ⟨fun hf => by rw [ha, hf], fun _ hd => absurd hd hp, .inl hh, fun v => by rw [hw]; exact .refl _⟩

theorem next_effect (a : Act ω η) (ha : a ≠ .arm h) : (next e c a).Yields (Effect h c) := by
  cases a with
  | arm g =>
    refine yields_next.mpr ⟨fun hf => ?_, fun _ hp => ⟨hp, rfl⟩, .inl rfl, fun _ => .refl _⟩
    have hne : h ≠ g := fun he => ha (by rw [he])
    exact (Function.update_of_ne hne ..).trans hf
  | disarm g =>
    refine yields_next.mpr ⟨fun hf => ?_, fun _ hp => ⟨hp, rfl⟩, .inl rfl, fun _ => .refl _⟩
    by_cases he : h = g
    · rw [he]
      exact Function.update_self ..
    · exact (Function.update_of_ne he ..).trans hf
  | run =>
    simp only [next]
    cases hl : c.loop with
    | outside =>
      simp only [yields_bind, yields_requiring]
      exact fun _ => yields_next.mpr (.ofLoop rfl rfl (by simp [Pends]) rfl)
    | _ => exact yields_blocked
  | poll result =>
    simp only [next]
    cases hl : c.loop with
    | polling =>
      cases result with
      | events events =>
        simp only [yields_bind, yields_requiring]
        intro hr
        refine yields_next.mpr ⟨fun hf => ?_, fun hf hp => ?_, .inl rfl, fun _ => .refl _⟩
        · simp [Config.disarmAll, hf]
        · -- What is reported was armed.
          obtain ⟨it, hit, hh⟩ := List.mem_map.mp (show some h ∈ events.map Event.ptr from hp)
          have hcan := hr.2.2 it hit
          simp [Config.canReport, hh, hf] at hcan
      | interrupted => exact yields_next.mpr ⟨fun hf => hf, fun _ hp => ⟨hp, rfl⟩, .inl rfl, fun _ => .refl _⟩
      | error => exact yields_next.mpr (.ofLoop rfl rfl (by simp [Pends]) rfl)
    | _ => exact yields_blocked
  | handle =>
    simp only [next]
    cases hl : c.loop with
    | handling rest signal =>
      cases rest with
      | nil =>
        cases signal with
        | none => exact yields_next.mpr (.ofLoop rfl rfl (by simp [Pends]) rfl)
        | some events =>
          dsimp only
          split
          · exact yields_next.mpr (.ofLoop rfl rfl (by simp [Pends]) rfl)
          · simp only [yields_bind, yields_asserting]
            exact fun _ => yields_next.mpr (.ofLoop rfl rfl (by simp [Pends]) rfl)
      | cons it rest =>
        have hrest : some h ∈ rest.map Event.ptr → Pends c h := fun hm => by
          simp only [Pends, hl, List.map_cons]
          exact List.mem_cons_of_mem _ hm
        dsimp only
        split
        · next g hg =>
          have hnow : Pends c g := by
            simp only [Pends, hl, List.map_cons, hg]
            exact List.mem_cons_self
          exact yields_next.mpr ⟨fun hf => hf, fun _ hp => ⟨hrest hp, rfl⟩, .inr ⟨g, hnow, rfl⟩,
            fun _ => .refl _⟩
        · exact yields_next.mpr ⟨fun hf => hf, fun _ hp => ⟨hrest hp, rfl⟩, .inl rfl, fun _ => .refl _⟩
        · exact yields_failed
    | _ => exact yields_blocked
  | read result =>
    simp only [next]
    cases hl : c.loop with
    | flushing =>
      simp only [yields_bind, yields_requiring, yields_asserting]
      intro _ _
      split
      · split
        · exact yields_next.mpr (.ofLoop rfl rfl (by simp [Pends]) rfl)
        · simp only [yields_bind, yields_asserting]
          intro _
          split
          · exact yields_next.mpr (.ofLoop rfl rfl (by simp [Pends]) rfl)
          · exact yields_next.mpr (.ofLoop rfl rfl (by simp [Pends]) rfl)
      · split
        · exact yields_next.mpr (.ofLoop rfl rfl (by simp [Pends]) rfl)
        · exact yields_next.mpr (.ofLoop rfl rfl (by simp [Pends]) rfl)
    | _ => exact yields_blocked
  | leave =>
    simp only [next]
    cases hl : c.loop with
    | leaving => exact yields_next.mpr (.ofLoop rfl rfl (by simp [Pends]) rfl)
    | _ => exact yields_blocked
  | unlock =>
    simp only [next]
    cases hl : c.loop with
    | unlocking => exact yields_next.mpr (.ofLoop rfl rfl (by simp [Pends]) rfl)
    | _ => exact yields_blocked
  | wait v =>
    have hload : Moves c (c.waiter v) (.loaded c.loopCounter) :=
      ⟨fun _ hs => .inr (Option.some.inj hs).symm, fun _ hr => by cases hr⟩
    simp only [next]
    cases hv : c.waiter v with
    | outside | returned r => exact yields_next.mpr (.ofWaiter hload rfl rfl rfl rfl rfl)
    | _ => exact yields_blocked
  | tryLock v fails =>
    simp only [next]
    cases hv : c.waiter v with
    | loaded start =>
      dsimp only
      split
      · exact yields_next.mpr (.ofWaiter (.of_none rfl fun _ hr => by cases hr) rfl rfl rfl rfl rfl)
      · refine yields_next.mpr (.ofWaiter (.goOn ?_ fun _ hr => by cases hr) rfl rfl rfl rfl rfl)
        rw [hv]
        rfl
    | _ => exact yields_blocked
  | reload v =>
    simp only [next]
    cases hv : c.waiter v with
    | missed start =>
      dsimp only
      split
      · next hc =>
        exact yields_next.mpr (.ofWaiter (.of_none rfl fun _ _ _ => .inr ⟨start, by rw [hv]; rfl, hc⟩)
          rfl rfl rfl rfl rfl)
      · refine yields_next.mpr (.ofWaiter (.goOn ?_ fun _ hr => by cases hr) rfl rfl rfl rfl rfl)
        rw [hv]
        rfl
    | _ => exact yields_blocked
  | write v result =>
    simp only [next]
    cases hv : c.waiter v with
    | writing start =>
      cases result with
      | written =>
        simp only [yields_bind, yields_requiring]
        intro _
        refine yields_next.mpr (.ofWaiter (.goOn ?_ fun _ hr => by cases hr) rfl rfl rfl rfl rfl)
        rw [hv]
        rfl
      | again => exact yields_next.mpr ⟨fun hf => hf, fun _ hp => ⟨hp, rfl⟩, .inl rfl, fun _ => .refl _⟩
      | error =>
        simp only [yields_bind, yields_requiring]
        intro _
        refine yields_next.mpr (.ofWaiter (.of_none rfl fun r hr hne => ?_) rfl rfl rfl rfl rfl)
        cases hr
        exact absurd rfl hne
    | _ => exact yields_blocked
  | look v =>
    simp only [next]
    cases hv : c.waiter v with
    | spinning start =>
      dsimp only
      split
      · refine yields_next.mpr (.ofWaiter (.goOn ?_ fun _ hr => by cases hr) rfl rfl rfl rfl rfl)
        rw [hv]
      · next hc =>
        exact yields_next.mpr (.ofWaiter (.of_none rfl fun _ _ _ => .inr ⟨start, by rw [hv]; rfl, hc⟩)
          rfl rfl rfl rfl rfl)
    | _ => exact yields_blocked
  | stop v =>
    simp only [next]
    cases c.waiter v with
    | outside | returned r =>
      exact yields_next.mpr (.ofWaiter (.of_none rfl fun _ hr => by cases hr) rfl rfl rfl rfl rfl)
    | _ => exact yields_blocked
  | lock v =>
    simp only [next]
    cases c.waiter v with
    | stopping =>
      simp only [yields_bind, yields_requiring]
      intro _
      exact yields_next.mpr (.ofWaiter (.of_none rfl fun _ hr => by cases hr) rfl rfl rfl rfl rfl)
    | _ => exact yields_blocked
  | unlockStop v =>
    simp only [next]
    cases hv : c.waiter v with
    | locked => exact yields_next.mpr (.ofWaiter (.of_none rfl fun _ _ _ => .inl hv) rfl rfl rfl rfl rfl)
    | _ => exact yields_blocked
  | stopAsync => exact yields_next.mpr ⟨fun hf => hf, fun _ hp => ⟨hp, rfl⟩, .inl rfl, fun _ => .refl _⟩

/-! ## The mutex -/

omit [DecidableEq ω] [DecidableEq η] in
/-- The loop goes on, or is out as before. -/
theorem Inv.step (hv : Inv c) (hl : d.loop = .outside ↔ c.loop = .outside) (hm : d.stopMutex = c.stopMutex)
    (hw : d.waiter = c.waiter) (he : c.writeEnd = false → d.writeEnd = false) : Inv d := by
  refine ⟨?_, fun v => ?_, fun v hf => he (hv.failed v (hw ▸ hf))⟩
  · rw [hm, ← hv.loop, Ne, hl]
  · rw [hm, hw]
    exact hv.waiter v

omit [DecidableEq η] in
/-- A waiter goes on, and the mutex is where it was. -/
theorem Inv.move (hv : Inv c) {v : ω} {x : Waiter} (hc : c.waiter v ≠ .locked) (hx : x ≠ .locked)
    (hf : x = .returned .failed → d.writeEnd = false) (hl : d.loop = c.loop) (hm : d.stopMutex = c.stopMutex)
    (hw : d.waiter = Function.update c.waiter v x) (he : c.writeEnd = false → d.writeEnd = false) : Inv d := by
  refine ⟨by rw [hm, hl]; exact hv.loop, fun u => ?_, fun u hu => ?_⟩
  · rw [hm, hw, ← hv.waiter u]
    by_cases hu : u = v
    · rw [hu, Function.update_self]
      exact ⟨fun h => absurd h hx, fun h => absurd h hc⟩
    · rw [Function.update_of_ne hu]
  · rw [hw] at hu
    by_cases huv : u = v
    · rw [huv, Function.update_self] at hu
      exact hf hu
    · rw [Function.update_of_ne huv] at hu
      exact he (hv.failed u hu)

omit [DecidableEq η] in
/-- A waiter gets the mutex, which was free. -/
theorem Inv.lock (hv : Inv c) (hm : c.stopMutex = .nobody) (v : ω) :
    Inv { c.setWaiter v .locked with stopMutex := .waiter v } := by
  refine ⟨?_, fun u => ?_, fun u hu => ?_⟩
  · have hl := hv.loop
    rw [hm] at hl
    exact ⟨fun h => (by cases hl.mp h), fun h => (by cases h)⟩
  · by_cases hu : u = v
    · rw [hu]
      exact ⟨fun _ => rfl, fun _ => Function.update_self ..⟩
    · have hw : c.waiter u ≠ .locked := fun h => (by rw [(hv.waiter u).mp h] at hm; cases hm)
      refine ⟨fun h => absurd ((Function.update_of_ne hu ..).symm.trans h) hw, fun h => ?_⟩
      injection h with h
      exact absurd h.symm hu
  · by_cases huv : u = v
    · rw [huv] at hu
      cases (Function.update_self ..).symm.trans hu
    · exact hv.failed u ((Function.update_of_ne huv ..).symm.trans hu)

theorem next_inv (hv : Inv c) (a : Act ω η) : (next e c a).Yields Inv := by
  cases a with
  | arm g | disarm g => exact yields_next.mpr (hv.step Iff.rfl rfl rfl id)
  | stopAsync => exact yields_next.mpr (hv.step Iff.rfl rfl rfl fun _ => rfl)
  | run =>
    simp only [next]
    cases hl : c.loop with
    | outside =>
      simp only [yields_bind, yields_requiring]
      intro hm
      refine yields_next.mpr ⟨⟨fun _ => rfl, fun _ => by simp⟩, fun v => ?_, hv.failed⟩
      rw [hv.waiter v, hm]
      exact ⟨fun h => (by cases h), fun h => (by cases h)⟩
    | _ => exact yields_blocked
  | poll result =>
    simp only [next]
    cases hl : c.loop with
    | polling =>
      cases result with
      | events events =>
        simp only [yields_bind, yields_requiring]
        exact fun _ => yields_next.mpr (hv.step (by simp [hl]) rfl rfl id)
      | interrupted => exact yields_next.mpr hv
      | error => exact yields_next.mpr (hv.step (by simp [hl]) rfl rfl id)
    | _ => exact yields_blocked
  | handle =>
    simp only [next]
    cases hl : c.loop with
    | handling rest signal =>
      have hgo : ∀ {d : Config ω η}, d.loop ≠ .outside → d.stopMutex = c.stopMutex → d.waiter = c.waiter →
          d.writeEnd = c.writeEnd → Inv d := fun hd hm hw he =>
        hv.step (by simp [hl, hd]) hm hw fun h => he.trans h
      cases rest with
      | nil =>
        cases signal with
        | none => exact yields_next.mpr (hgo (by simp) rfl rfl rfl)
        | some events =>
          dsimp only
          split
          · exact yields_next.mpr (hgo (by simp) rfl rfl rfl)
          · simp only [yields_bind, yields_asserting]
            exact fun _ => yields_next.mpr (hgo (by simp) rfl rfl rfl)
      | cons it rest =>
        dsimp only
        split
        · exact yields_next.mpr (hgo (by simp) rfl rfl rfl)
        · exact yields_next.mpr (hgo (by simp) rfl rfl rfl)
        · exact yields_failed
    | _ => exact yields_blocked
  | read result =>
    simp only [next]
    cases hl : c.loop with
    | flushing =>
      have hgo : ∀ {d : Config ω η}, d.loop ≠ .outside → d.stopMutex = c.stopMutex → d.waiter = c.waiter →
          d.writeEnd = c.writeEnd → Inv d := fun hd hm hw he =>
        hv.step (by simp [hl, hd]) hm hw fun h => he.trans h
      simp only [yields_bind, yields_requiring, yields_asserting]
      intro _ _
      split
      · split
        · exact yields_next.mpr (hgo (by simp) rfl rfl rfl)
        · simp only [yields_bind, yields_asserting]
          intro _
          split <;> exact yields_next.mpr (hgo (by simp) rfl rfl rfl)
      · split <;> exact yields_next.mpr (hgo (by simp) rfl rfl rfl)
    | _ => exact yields_blocked
  | leave =>
    simp only [next]
    cases hl : c.loop with
    | leaving => exact yields_next.mpr (hv.step (by simp [hl]) rfl rfl id)
    | _ => exact yields_blocked
  | unlock =>
    simp only [next]
    cases hl : c.loop with
    | unlocking =>
      have hm : c.stopMutex = .loop := hv.loop.mp (by simp [hl])
      refine yields_next.mpr ⟨⟨fun h => absurd rfl h, fun h => (by cases h)⟩, fun v => ?_, hv.failed⟩
      rw [hv.waiter v, hm]
      exact ⟨fun h => (by cases h), fun h => (by cases h)⟩
    | _ => exact yields_blocked
  | wait v =>
    simp only [next]
    cases hw : c.waiter v with
    | outside | returned r =>
      exact yields_next.mpr (hv.move (by simp [hw]) (by simp) (fun h => by cases h) rfl rfl rfl id)
    | _ => exact yields_blocked
  | tryLock v fails =>
    simp only [next]
    cases hw : c.waiter v with
    | loaded start =>
      dsimp only
      split
      · next hm => exact yields_next.mpr (hv.lock hm.1 v)
      · exact yields_next.mpr (hv.move (by simp [hw]) (by simp) (fun h => by cases h) rfl rfl rfl id)
    | _ => exact yields_blocked
  | reload v =>
    simp only [next]
    cases hw : c.waiter v with
    | missed start =>
      dsimp only
      split <;>
        exact yields_next.mpr (hv.move (by simp [hw]) (by simp) (fun h => by cases h) rfl rfl rfl id)
    | _ => exact yields_blocked
  | write v result =>
    simp only [next]
    cases hw : c.waiter v with
    | writing start =>
      cases result with
      | written =>
        simp only [yields_bind, yields_requiring]
        exact fun _ =>
          yields_next.mpr (hv.move (by simp [hw]) (by simp) (fun h => by cases h) rfl rfl rfl id)
      | again => exact yields_next.mpr hv
      | error =>
        simp only [yields_bind, yields_requiring]
        intro he
        have hf : c.writeEnd = false := by simpa using he
        exact yields_next.mpr (hv.move (by simp [hw]) (by simp) (fun _ => hf) rfl rfl rfl id)
    | _ => exact yields_blocked
  | look v =>
    simp only [next]
    cases hw : c.waiter v with
    | spinning start =>
      dsimp only
      split <;>
        exact yields_next.mpr (hv.move (by simp [hw]) (by simp) (fun h => by cases h) rfl rfl rfl id)
    | _ => exact yields_blocked
  | stop v =>
    simp only [next]
    cases hw : c.waiter v with
    | outside | returned r =>
      exact yields_next.mpr (hv.move (by simp [hw]) (by simp) (fun h => by cases h) rfl rfl rfl fun _ => rfl)
    | _ => exact yields_blocked
  | lock v =>
    simp only [next]
    cases hw : c.waiter v with
    | stopping =>
      simp only [yields_bind, yields_requiring]
      exact fun hm => yields_next.mpr (hv.lock hm v)
    | _ => exact yields_blocked
  | unlockStop v =>
    simp only [next]
    cases hw : c.waiter v with
    | locked =>
      have hm := (hv.waiter v).mp hw
      refine yields_next.mpr ⟨?_, fun u => ?_, fun u hu => ?_⟩
      · have hl := hv.loop
        rw [hm] at hl
        exact ⟨fun h => (by cases hl.mp h), fun h => (by cases h)⟩
      · by_cases hu : u = v
        · rw [hu]
          refine ⟨fun h => ?_, fun h => (by cases h)⟩
          cases (Function.update_self ..).symm.trans h
        · refine ⟨fun h => ?_, fun h => (by cases h)⟩
          have hlock := (hv.waiter u).mp ((Function.update_of_ne hu ..).symm.trans h)
          rw [hm] at hlock
          injection hlock with hlock
          exact absurd hlock.symm hu
      · by_cases huv : u = v
        · rw [huv] at hu
          cases (Function.update_self ..).symm.trans hu
        · exact hv.failed u ((Function.update_of_ne huv ..).symm.trans hu)
    | _ => exact yields_blocked

theorem reachable_inv (hr : Runs.Reachable (next e) Init c) : Inv c :=
  hr.yields (fun _ => init_inv) fun _ a hv => next_inv hv a

/-! ## Waits -/

omit [DecidableEq ω] [DecidableEq η] in
theorem Retiring.effect (hr : Retiring h w k c) (hv : Inv c) (hd : Effect h c d) : Retiring h w k d := by
  have hpends : Pends d h → Pends c h ∧ c.ended = k := fun hp =>
    have hc := hd.pends hr.armed hp
    ⟨hc.1, hr.ended hc.1⟩
  have hmoves := hd.waiter w
  refine ⟨hd.armed hr.armed, fun hp => ?_, fun start hs hp => ?_, fun r hret hne hp => ?_⟩
  · rw [(hd.pends hr.armed hp).2, (hpends hp).2]
  · obtain ⟨hc, hk⟩ := hpends hp
    rcases hmoves.start start hs with hold | hnew
    · exact hr.start start hold hc
    · rw [hnew, Config.loopCounter, hk]
  · obtain ⟨hc, hk⟩ := hpends hp
    rcases hmoves.returned r hret hne with hsame | hlock | ⟨start, hs, hcount⟩
    · exact hr.returned r (hsame.trans hret) hne hc
    · exact hv.not_pends hlock hc
    · rw [hr.start start hs hc, Config.loopCounter, hk] at hcount
      exact hcount rfl

theorem run_retiring {as : List (Act ω η)} (hr : Retiring h w k c) (hv : Inv c) (has : ∀ a ∈ as, a ≠ .arm h) :
    (Runs.run (next e) c as).Yields fun d => Retiring h w k d ∧ Inv d := by
  induction as generalizing c with
  | nil => exact yields_next.mpr ⟨hr, hv⟩
  | cons a as ih =>
    refine yields_bind.mpr fun m hm => ?_
    have heffect := next_effect a (has a List.mem_cons_self) m hm
    exact ih (hr.effect hv heffect) (next_inv hv a m hm) fun b hb => has b (List.mem_cons_of_mem a hb)

/-- The handler is not armed, and is not to be called. -/
structure Gone (h : η) (c : Config ω η) : Prop where
  armed : c.armed h = false
  pends : ¬Pends c h

theorem run_gone {as : List (Act ω η)} (hg : Gone h c) (has : ∀ a ∈ as, a ≠ .arm h) :
    (Runs.run (next e) c as).Yields fun d => ∃ new, d.handled = c.handled ++ new ∧ h ∉ new := by
  induction as generalizing c with
  | nil => exact yields_next.mpr ⟨[], by simp, by simp⟩
  | cons a as ih =>
    refine yields_bind.mpr fun m hm => ?_
    have heffect := next_effect a (has a List.mem_cons_self) m hm
    have hgone : Gone h m := ⟨heffect.armed hg.armed, fun hp => hg.pends (heffect.pends hg.armed hp).1⟩
    refine (ih hgone fun b hb => has b (List.mem_cons_of_mem a hb)).mono fun d hd => ?_
    obtain ⟨new, hnew, hnot⟩ := hd
    rcases heffect.handled with hsame | ⟨g, hg', hcall⟩
    · exact ⟨new, by rw [hnew, hsame], hnot⟩
    · have hne : h ≠ g := fun he => hg.pends (he ▸ hg')
      exact ⟨g :: new, by rw [hnew, hcall, List.append_assoc]; rfl, by simp [hne, hnot]⟩

theorem begin_waiter {a : Act ω η} (ha : a = .wait w ∨ a = .stop w) (hd : next e c a = .next d) :
    d.waiter w = .loaded c.loopCounter ∨ d.waiter w = .stopping := by
  rcases ha with rfl | rfl <;> simp only [next] at hd
  · cases hw : c.waiter w with
    | outside | returned r =>
      simp only [hw, pure_eq, Outcome.next.injEq] at hd
      rw [← hd]
      exact .inl (Function.update_self ..)
    | _ => simp [hw] at hd
  · cases hw : c.waiter w with
    | outside | returned r =>
      simp only [hw, pure_eq, Outcome.next.injEq] at hd
      rw [← hd]
      exact .inr (Function.update_self ..)
    | _ => simp [hw] at hd

/-- The wait begins in the iteration that is going on. -/
theorem retiring_begin (hf : c.armed h = false) {a : Act ω η} (ha : a = .wait w ∨ a = .stop w)
    (hd : next e c a = .next d) : Retiring h w c.ended d := by
  have hne : a ≠ .arm h := by
    rcases ha with rfl | rfl <;> simp
  have heffect := next_effect a hne d hd
  have hw := begin_waiter ha hd
  refine ⟨heffect.armed hf, fun hp => (heffect.pends hf hp).2, fun start hs _ => ?_, fun r hret => ?_⟩
  · rcases hw with hw | hw <;> rw [hw] at hs
    · exact (Option.some.inj hs).symm
    · cases hs
  · rcases hw with hw | hw <;>
    · rw [hw] at hret
      cases hret

/-- **Remove, wait, destroy.** Whatever the loop, other threads and the system
do: if a wait for the end of an iteration, or a `stop`, begins when the handler
`h` is not armed, and `h` is not armed again, then from the wait's return on `h`
is never called any more. The exception is a wait that returns because it could
not write its byte, which only happens when the loop was told to stop. -/
theorem quiesces (hr : Runs.Reachable (next e) Init c) (hf : c.armed h = false) {a : Act ω η}
    (ha : a = .wait w ∨ a = .stop w) (hd : next e c a = .next d) {as : List (Act ω η)} {f : Config ω η}
    (has : ∀ b ∈ as, b ≠ .arm h) (hrun : Runs.run (next e) d as = .next f) {r : Reason}
    (hret : f.waiter w = .returned r) :
    r = .failed ∧ f.writeEnd = false ∨ r ≠ .failed ∧ ∀ bs : List (Act ω η), (∀ b ∈ bs, b ≠ .arm h) →
      (Runs.run (next e) f bs).Yields fun g => ∃ new, g.handled = f.handled ++ new ∧ h ∉ new := by
  have hv : Inv d := next_inv (reachable_inv hr) a d hd
  obtain ⟨hretiring, hv'⟩ := run_retiring (retiring_begin hf ha hd) hv has f hrun
  by_cases hne : r = .failed
  · exact .inl ⟨hne, hv'.failed w (hne ▸ hret)⟩
  · exact .inr ⟨hne, fun bs hbs => run_gone ⟨hretiring.armed, hretiring.returned r hret hne⟩ hbs⟩

def start : Config Bool Nat := ⟨fun _ => false, .outside, 0, .nobody, true, 0, fun _ => .outside, []⟩

def epollEvent : EpollEvent := ⟨16, by decide, by decide⟩

/-- A handler is removed after the loop has got its event. The wait returns when
that iteration has ended, and it was called in it. -/
theorem quiesces_removed : ∃ c d f g : Config Bool Nat,
    Runs.run (next epollEvent) start [.arm 7, .run, .poll (.events [⟨some 7, EPOLLIN⟩]), .disarm 7] = .next c ∧
    next epollEvent c (.wait true) = .next d ∧
    Runs.run (next epollEvent) d [.tryLock true false, .reload true, .write true .written, .look true, .handle,
      .handle, .look true] = .next f ∧ f.waiter true = .returned .counted ∧ f.handled = [7] ∧
    Runs.run (next epollEvent) f [.poll (.events [⟨none, EPOLLIN⟩])] = .next g ∧
    ∃ new, g.handled = f.handled ++ new ∧ 7 ∉ new := by
  obtain ⟨c, d, f, g, hc, hf, hd, hrun, hret, hh, hg⟩ : ∃ c d f g : Config Bool Nat,
      Runs.run (next epollEvent) start [.arm 7, .run, .poll (.events [⟨some 7, EPOLLIN⟩]), .disarm 7] =
        .next c ∧ c.armed 7 = false ∧ next epollEvent c (.wait true) = .next d ∧
      Runs.run (next epollEvent) d [.tryLock true false, .reload true, .write true .written, .look true,
        .handle, .handle, .look true] = .next f ∧ f.waiter true = .returned .counted ∧ f.handled = [7] ∧
      Runs.run (next epollEvent) f [.poll (.events [⟨none, EPOLLIN⟩])] = .next g :=
    ⟨_, _, _, _, rfl, rfl, rfl, rfl, rfl, rfl, rfl⟩
  have hstart : Init start := ⟨fun _ => rfl, rfl, rfl, rfl, rfl, rfl, fun _ => rfl, rfl⟩
  have hquiet := quiesces (h := 7) (.run (.init hstart) hc) hf (.inl rfl) hd (by simp) hrun hret
  rcases hquiet with hfail | hquiet
  · cases hfail.1
  · exact ⟨c, d, f, g, hc, hd, hrun, hret, hh, hg, hquiet.2 _ (by simp) g hg⟩

/-- Once the loop was told to stop, a wait may return too early: the handler is
called after it. -/
theorem returns_early : ∃ c f g : Config Bool Nat,
    Runs.run (next epollEvent) start [.arm 7, .run, .poll (.events [⟨some 7, EPOLLIN⟩]), .disarm 7,
      .stopAsync] = .next c ∧
    Runs.run (next epollEvent) c [.wait true, .tryLock true false, .reload true, .write true .error] = .next f ∧
    f.waiter true = .returned .failed ∧ f.handled = [] ∧
    next epollEvent f .handle = .next g ∧ g.handled = [7] :=
  ⟨_, _, _, rfl, rfl, rfl, rfl, rfl, rfl⟩

end EventLoop
