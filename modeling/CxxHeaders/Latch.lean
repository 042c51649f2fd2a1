/-
`Latch.h`: threads that wait until others have counted down to zero.

Every section under `m_mutex` is a step, and so is every look of a thread that
waits (`next`); with sleepers (`signals`), a thread that found the counter above
zero sleeps on `m_cond`. What the countdowns were told is recorded in order
(`lasts`), and how many waits have returned (`released`).
-/
import CxxHeaders.Sleepers
import Mathlib.Data.List.Range
import Mathlib.Logic.Function.Basic

open Outcome

structure Latch where
  counter : Nat

namespace Latch

/-- `Latch(n)` -/
def new (n : Nat) : Outcome Latch := do
  asserting (0 < n)
  return ⟨n⟩

/-- `--m_counter`; also whether that was the last one. -/
def count (l : Latch) : Outcome (Latch × Bool) := do
  asserting (0 < l.counter)
  return (⟨l.counter - 1⟩, l.counter - 1 = 0)

def isReady (l : Latch) : Bool := l.counter = 0

structure Config (ω : Type) where
  latch : Latch
  waiting : ω → Bool
  lasts : List Bool
  released : Nat

inductive Act (ω : Type) where
  | countDown (w : ω)
  | countDownAndWait (w : ω)
  | wait (w : ω)
  /-- A thread that waits looks at the counter. -/
  | look (w : ω)

variable {ω : Type} [DecidableEq ω]

namespace Config

/-- The wait of `w` begins or goes on, or it returns. -/
def await (c : Config ω) (w : ω) : Config ω :=
  if c.latch.isReady then { c with
    waiting := Function.update c.waiting w false, released := c.released + 1 }
  else { c with waiting := Function.update c.waiting w true }

def count (c : Config ω) : Outcome (Config ω) := do
  let (latch, last) ← c.latch.count
  return { c with latch, lasts := c.lasts ++ [last] }

end Config

def next (c : Config ω) : Act ω → Outcome (Config ω)
  | .countDown w => do
    requiring ¬c.waiting w
    c.count
  | .countDownAndWait w => do
    requiring ¬c.waiting w
    return (← c.count).await w
  | .wait w => do
    requiring ¬c.waiting w
    return c.await w
  | .look w => do
    requiring (c.waiting w)
    return c.await w

/-- A new latch, which nobody waits for. -/
def Init (n : Nat) (c : Config ω) : Prop :=
  new n = .next c.latch ∧ (∀ w, c.waiting w = false) ∧ c.lasts = [] ∧ c.released = 0

def signals : Signals (Config ω) (Act ω) ω Unit where
  actor
    | .countDown w | .countDownAndWait w | .wait w | .look w => some w
  sleeps c
    | .countDown _ => none
    | .countDownAndWait _ => if c.latch.counter - 1 = 0 then none else some ()
    | .wait _ | .look _ => if c.latch.counter = 0 then none else some ()
  notifies c
    | .countDown _ | .countDownAndWait _ => if c.latch.counter - 1 = 0 then .all () else .nobody
    | _ => .nobody

/-! ## What holds between the steps -/

/-- After so many countdowns of `n`: what they were told. -/
def told (n k : Nat) : List Bool := (List.range k).map fun i => decide (i + 1 = n)

structure Inv (n : Nat) (c : Config ω) : Prop where
  counter : c.latch.counter + c.lasts.length = n
  lasts : c.lasts = told n c.lasts.length
  released : 0 < c.released → c.latch.counter = 0

theorem told_succ (n k : Nat) : told n (k + 1) = told n k ++ [decide (k + 1 = n)] := by
  simp [told, List.range_succ]

variable {n : Nat} {c : Config ω}

omit [DecidableEq ω] in
theorem init_inv (h : Init n c) : 0 < n ∧ Inv n c := by
  obtain ⟨hnew, -, hlasts, hreleased⟩ := h
  simp only [new, bind_eq_next, asserting_eq_next, pure_eq, Outcome.next.injEq] at hnew
  obtain ⟨-, hpos, hlatch⟩ := hnew
  refine ⟨hpos, ?_, ?_, ?_⟩
  · simp [← hlatch, hlasts]
  · simp [hlasts, told]
  · simp [hreleased]

/-! ## The steps -/

namespace Config

omit [DecidableEq ω] in
theorem count_eq (h : 0 < c.latch.counter) : c.count = .next { c with
    latch := ⟨c.latch.counter - 1⟩, lasts := c.lasts ++ [decide (c.latch.counter - 1 = 0)] } := by
  simp [count, Latch.count, asserting_true h]

omit [DecidableEq ω] in
theorem count_failed (h : c.latch.counter = 0) : c.count = .failed := by
  simp [count, Latch.count, asserting, h]

@[simp] theorem await_latch (w : ω) : (c.await w).latch = c.latch := by
  unfold await
  split <;> rfl

@[simp] theorem await_lasts (w : ω) : (c.await w).lasts = c.lasts := by
  unfold await
  split <;> rfl

theorem await_waiting (w : ω) :
    (c.await w).waiting = Function.update c.waiting w (decide (c.latch.counter ≠ 0)) := by
  unfold await Latch.isReady
  split
  · next h => simp [of_decide_eq_true h]
  · next h =>
    have hne : c.latch.counter ≠ 0 := by simpa using h
    simp [hne]

end Config

/-- What a step does to the counter and to who waits. -/
theorem next_waiting (a : Act ω) : (next c a).Yields fun d =>
    (d.latch.counter = 0 → c.latch.counter ≠ 0 → signals.notifies c a = .all ()) ∧ ∀ w,
      (signals.actor a ≠ some w → d.waiting w = c.waiting w) ∧
      (signals.actor a = some w → (signals.sleeps c a).isSome →
        d.waiting w = true ∧ d.latch.counter ≠ 0) := by
  cases a with
  | countDown v =>
    simp only [next, yields_bind, yields_requiring]
    intro hv d hd
    rcases Nat.eq_zero_or_pos c.latch.counter with hzero | hpos
    · rw [Config.count_failed hzero] at hd
      cases hd
    · rw [Config.count_eq hpos] at hd
      cases hd
      exact ⟨fun hd _ => if_pos hd, fun w => ⟨fun _ => rfl, fun _ hs => by cases hs⟩⟩
  | countDownAndWait v =>
    simp only [next, yields_bind, yields_requiring]
    intro hv d hd
    rcases Nat.eq_zero_or_pos c.latch.counter with hzero | hpos
    · rw [Config.count_failed hzero] at hd
      cases hd
    · rw [Config.count_eq hpos] at hd
      cases hd
      refine yields_next.mpr ⟨fun hd _ => if_pos (by simpa using hd), fun w => ⟨fun hw => ?_, fun hw hs => ?_⟩⟩
      · have hne : w ≠ v := fun he => hw (congrArg some he.symm)
        rw [Config.await_waiting, Function.update_of_ne hne]
      · cases hw
        have hne : c.latch.counter - 1 ≠ 0 := fun he => by simp [signals, he] at hs
        rw [Config.await_waiting, Function.update_self]
        simp [hne]
  | wait v | look v =>
    simp only [next, yields_bind, yields_requiring]
    intro _
    refine yields_next.mpr ⟨fun hd hc => absurd hd (by simpa using hc), fun w => ⟨fun hw => ?_, fun hw hs => ?_⟩⟩
    · have hne : w ≠ v := fun he => hw (congrArg some he.symm)
      rw [Config.await_waiting, Function.update_of_ne hne]
    · cases hw
      have hne : c.latch.counter ≠ 0 := fun he => by simp [signals, he] at hs
      rw [Config.await_waiting, Function.update_self]
      simp [hne]

omit [DecidableEq ω] in
theorem Inv.count (h : Inv n c) : c.count.Yields (Inv n) := by
  rcases Nat.eq_zero_or_pos c.latch.counter with hzero | hpos
  · rw [Config.count_failed hzero]
    exact yields_failed
  · rw [Config.count_eq hpos]
    have hlen := h.counter
    refine yields_next.mpr ⟨?_, ?_, ?_⟩
    · simp only [List.length_append, List.length_cons, List.length_nil]
      omega
    · simp only [List.length_append, List.length_cons, List.length_nil, told_succ]
      refine congrArg₂ _ h.lasts (congrArg (· :: []) (decide_eq_decide.mpr ?_))
      omega
    · intro hr
      have hzero := h.released hr
      omega

theorem Inv.await (h : Inv n c) (w : ω) : Inv n (c.await w) := by
  unfold Config.await
  split
  · next hready => exact ⟨h.counter, h.lasts, fun _ => of_decide_eq_true hready⟩
  · exact ⟨h.counter, h.lasts, h.released⟩

theorem next_yields (h : Inv n c) (a : Act ω) : (next c a).Yields (Inv n) := by
  cases a with
  | countDown w =>
    simp only [next, yields_bind, yields_requiring]
    exact fun _ => h.count
  | countDownAndWait w =>
    simp only [next, yields_bind, yields_requiring]
    exact fun _ => h.count.mono fun d hd => yields_next.mpr (hd.await w)
  | wait w | look w =>
    simp only [next, yields_bind, yields_requiring]
    exact fun _ => yields_next.mpr (h.await w)

theorem reachable_inv (h : Runs.Reachable next (Init n) c) : 0 < n ∧ Inv n c :=
  h.yields (I := fun c => 0 < n ∧ Inv n c) (fun _ hi => init_inv hi) fun _ a hv =>
    (next_yields hv.2 a).mono fun _ hd => ⟨hv.1, hd⟩

/-- `notify_all` at zero is enough. -/
theorem enough : Sleepers.Enough (κ := Unit) next signals (fun _ : Config ω => True)
    (fun c w _ => c.waiting w = true) (fun c _ => c.latch.counter = 0) where
  sleeps _ hn hw hs := (((next_waiting _ _ hn).2 _).2 hw (by rw [hs]; rfl))
  keeps _ hn hw hwaits hready := by
    obtain ⟨hzero, hkeeps⟩ := next_waiting _ _ hn
    exact ⟨((hkeeps _).1 hw).trans hwaits, fun hr => .inl (hzero hr hready)⟩

/-- A step fails exactly where there are more countdowns than were asked for. -/
theorem next_failed (a : Act ω) : next c a = .failed ↔ c.latch.counter = 0 ∧
    ∃ w, c.waiting w = false ∧ (a = .countDown w ∨ a = .countDownAndWait w) := by
  have hcount : c.count = .failed ↔ c.latch.counter = 0 := by
    rcases Nat.eq_zero_or_pos c.latch.counter with hzero | hpos
    · simp [Config.count_failed hzero, hzero]
    · simp [Config.count_eq hpos, Nat.pos_iff_ne_zero.mp hpos]
  cases a with
  | countDown v | countDownAndWait v =>
    rcases Nat.eq_zero_or_pos c.latch.counter with hzero | hpos
    · cases hv : c.waiting v <;> simp [next, hv, Config.count_failed, hzero, requiring]
    · cases hv : c.waiting v <;>
        simp [next, hv, Config.count_eq, hpos, requiring, Nat.pos_iff_ne_zero.mp hpos]
  | wait v | look v => cases hv : c.waiting v <;> simp [next, hv, requiring]

/-- **A latch opens with the last of its countdowns, and for everybody.** In
whatever order threads count down, wait and look again, with any spurious
wake-ups: the `i`th countdown is told that it is the last one if and only if
it is the `n`th; an assertion fails exactly in a countdown beyond the `n`th; no
wait returns before the counter is zero; and when it is, nobody is asleep, and
every thread that still waits returns with its next look. -/
theorem opens {c : Sleepers.Config (Config ω) ω Unit}
    (h : Runs.Reachable (Sleepers.next next signals) (Sleepers.Init (Init n)) c) :
    c.state.latch.counter + c.state.lasts.length = n ∧
    c.state.lasts = told n c.state.lasts.length ∧
    (∀ a, next c.state a = .failed ↔ c.state.lasts.length = n ∧
      ∃ w, c.state.waiting w = false ∧ (a = .countDown w ∨ a = .countDownAndWait w)) ∧
    (0 < c.state.released → c.state.lasts.length = n) ∧
    (c.state.lasts.length = n → c.asleep = [] ∧ ∀ w, c.state.waiting w = true →
      ∃ d, Sleepers.next next signals c (.act (.look w) none) = .next d ∧
        d.state.waiting w = false ∧ d.state.released = c.state.released + 1) := by
  obtain ⟨hpos, hv⟩ := reachable_inv (Sleepers.reachable_base h)
  have hzero : c.state.latch.counter = 0 ↔ c.state.lasts.length = n := by
    have hc := hv.counter
    omega
  refine ⟨hv.counter, hv.lasts, fun a => ?_, fun hr => hzero.mp (hv.released hr), fun hn => ?_⟩
  · rw [next_failed, hzero]
  · have hopen := hzero.mpr hn
    have hasleep : c.asleep = [] := List.eq_nil_iff_forall_not_mem.mpr fun p hp =>
      (Sleepers.no_lost_wakeup enough (fun _ _ => trivial) h p hp).2 hopen
    refine ⟨hasleep, fun w hw => ⟨⟨c.state.await w, []⟩, ?_, ?_, ?_⟩⟩
    · simp [Sleepers.next, hasleep, next, hw, signals, Sleepers.notify, Sleepers.sleeper, hopen, requiring]
    · simp [Config.await_waiting, hopen]
    · simp [Config.await, isReady, hopen]

/-- One thread counts down and sleeps until the other one has. -/
theorem opens_twoThreads : ∃ c : Sleepers.Config (Config Bool) Bool Unit,
    Runs.run (Sleepers.next next signals) ⟨⟨⟨2⟩, fun _ => false, [], 0⟩, []⟩
      [.act (.countDownAndWait false) none, .act (.countDown true) none] = .next c ∧
    c.state.lasts = [false, true] ∧ c.state.waiting false = true ∧
    ∃ d, Sleepers.next next signals c (.act (.look false) none) = .next d ∧
      d.state.waiting false = false ∧ d.state.released = c.state.released + 1 := by
  obtain ⟨c, hc, hlasts, hwaiting⟩ : ∃ c : Sleepers.Config (Config Bool) Bool Unit,
      Runs.run (Sleepers.next next signals) ⟨⟨⟨2⟩, fun _ => false, [], 0⟩, []⟩
        [.act (.countDownAndWait false) none, .act (.countDown true) none] = .next c ∧
      c.state.lasts = [false, true] ∧ c.state.waiting false = true := ⟨_, rfl, rfl, rfl⟩
  have hopens := opens (n := 2) (.run (.init ⟨⟨rfl, fun _ => rfl, rfl, rfl⟩, rfl⟩) hc)
  exact ⟨c, hc, hlasts, hwaiting, (hopens.2.2.2.2 (by rw [hlasts]; rfl)).2 false hwaiting⟩

end Latch
