/-
`Future.h`: waiting for a future.

Threads wait for one shared state (`next`): any number of them in `wait`,
`waitFor` and `waitUntil`, which are `const`, or the one that takes the value. A
section under `mutex` is a step, and so is every look of a thread that waits;
with sleepers (`signals`), it sleeps on `cond` in between. The promise notifies
one thread, and only once: of several that sleep, the others are not woken up by
anything that the future does (`wakes_one`).
-/
import CxxHeaders.Future
import CxxHeaders.Sleepers

open Outcome

namespace Future

variable {τ ε ω : Type}

/-- The methods that wait; the times that the timed ones wait for are left to
the clock. -/
inductive Wait where
  | wait
  | waitFor
  | waitUntil
  | takeValue
  deriving DecidableEq

inductive WaitResult (τ ε : Type) where
  | void
  | bool (b : Bool)
  | value (v : τ)
  | thrown (e : Exception ε)

/-- `valid` as long as the future has the state; `returned` has what the calls
have returned so far. -/
structure Waits (τ ε ω : Type) where
  shared : SharedState τ ε
  valid : Bool
  waiting : List (ω × Wait)
  returned : List (ω × WaitResult τ ε)

namespace SharedState

/-- What a method returns once the state is set. -/
def result (s : SharedState τ ε) : Wait → Option (WaitResult τ ε)
  | .wait => some .void
  | .waitFor | .waitUntil => some (.bool true)
  | .takeValue =>
    match s.exception, s.data with
    | some e, _ => some (.thrown e)
    | none, some v => some (.value v)
    | none, none => none

end SharedState

/-- What a promise does to the state. -/
inductive Fulfil (τ ε : Type) where
  | emplaceValue (value : Option τ)
  | setException (e : Exception ε)

def Fulfil.set : Fulfil τ ε → SharedState τ ε → Outcome (SharedState τ ε)
  | .emplaceValue value => (·.emplaceValue value)
  | .setException e => (·.setException e)

namespace Waits

inductive Act (τ ε ω : Type) where
  | fulfil (x : Fulfil τ ε)
  | call (w : ω) (m : Wait)
  /-- A thread that waits looks at `isSet`. -/
  | look (w : ω) (m : Wait)
  /-- The time of a timed wait is over. -/
  | timeout (w : ω) (m : Wait)

variable [DecidableEq ω]

def return_ (c : Waits τ ε ω) (w : ω) (r : WaitResult τ ε) : Waits τ ε ω :=
  { c with waiting := c.waiting.filter (·.1 ≠ w), returned := c.returned ++ [(w, r)] }

/-- The wait returns if the state is set, and else goes on. -/
def await (c : Waits τ ε ω) (w : ω) (m : Wait) : Outcome (Waits τ ε ω) :=
  if c.shared.isSet then
    match c.shared.result m with
    | some r => return c.return_ w r
    | none => .failed
  else return { c with waiting := (w, m) :: c.waiting.filter (·.1 ≠ w) }

def next (c : Waits τ ε ω) : Act τ ε ω → Outcome (Waits τ ε ω)
  | .fulfil x => do return { c with shared := ← x.set c.shared }
  | .call w m => do
    -- Only the `const` methods may be called while another thread is in one.
    requiring (c.valid ∧ (∀ p ∈ c.waiting, p.1 ≠ w) ∧ (m = Wait.takeValue → c.waiting = []))
    { c with valid := m ≠ Wait.takeValue }.await w m
  | .look w m => do
    requiring ((w, m) ∈ c.waiting)
    c.await w m
  | .timeout w m => do
    requiring ((w, m) ∈ c.waiting ∧ (m = .waitFor ∨ m = .waitUntil))
    return c.return_ w (.bool c.shared.isSet)

def signals : Signals (Waits τ ε ω) (Act τ ε ω) ω Unit where
  actor
    | .fulfil _ => none
    | .call w _ | .look w _ | .timeout w _ => some w
  sleeps c
    | .call _ _ | .look _ _ => if c.shared.isSet then none else some ()
    | .fulfil _ | .timeout _ _ => none
  notifies _
    | .fulfil _ => .one ()
    | _ => .nobody

/-- A future that nobody waits for yet. -/
def Init (c : Waits τ ε ω) : Prop :=
  c.shared = .new ∧ c.valid = true ∧ c.waiting = [] ∧ c.returned = []

/-! ## What holds between the steps -/

/-- The result is right in the state. -/
def Gives (s : SharedState τ ε) : WaitResult τ ε → Prop
  | .void | .bool true => s.isSet = true
  | .bool false => True
  | .value v => s.isSet = true ∧ s.exception = none ∧ s.data = some v
  | .thrown e => s.isSet = true ∧ s.exception = some e

/-- The state has what it is set to. -/
def Filled (s : SharedState τ ε) : Prop := s.isSet = true → s.exception ≠ none ∨ s.data ≠ none

structure Inv (c : Waits τ ε ω) : Prop where
  filled : Filled c.shared
  returned : ∀ p ∈ c.returned, Gives c.shared p.2

variable {c d : Waits τ ε ω} {w : ω}

omit [DecidableEq ω] in
theorem init_inv (h : Init c) : Inv c := by
  obtain ⟨hs, -, -, hr⟩ := h
  exact ⟨by simp [hs, Filled, SharedState.new], by simp [hr]⟩

omit [DecidableEq ω] in
theorem result_gives {s : SharedState τ ε} (h : Filled s) (hs : s.isSet = true) (m : Wait) :
    ∃ r, s.result m = some r ∧ Gives s r := by
  cases m with
  | wait => exact ⟨.void, rfl, hs⟩
  | waitFor | waitUntil => exact ⟨.bool true, rfl, hs⟩
  | takeValue =>
    have h := h hs
    cases he : s.exception with
    | some e => exact ⟨.thrown e, by simp [SharedState.result, he], hs, he⟩
    | none =>
      cases hv : s.data with
      | some v => exact ⟨.value v, by simp [SharedState.result, he, hv], hs, he, hv⟩
      | none => simp [he, hv] at h

theorem set_yields (x : Fulfil τ ε) (s : SharedState τ ε) :
    (x.set s).Yields fun t => s.isSet = false ∧ t.isSet = true ∧ Filled t := by
  cases x with
  | emplaceValue value =>
    simp only [Fulfil.set, SharedState.emplaceValue, yields_bind, yields_asserting]
    intro hs
    cases value with
    | none => exact fun _ h => by cases h
    | some v => exact yields_next.mpr ⟨by simpa using hs, rfl, by simp [Filled]⟩
  | setException e =>
    simp only [Fulfil.set, SharedState.setException, yields_bind, yields_asserting]
    exact fun hs => yields_next.mpr ⟨by simpa using hs, rfl, by simp [Filled]⟩

theorem Inv.return_ (h : Inv c) {r : WaitResult τ ε} (hr : Gives c.shared r) : Inv (c.return_ w r) := by
  refine ⟨h.filled, fun p hp => ?_⟩
  rcases List.mem_append.mp hp with hp | hp
  · exact h.returned p hp
  · rw [List.mem_singleton.mp hp]
    exact hr

/-- A wait never lacks something to return. -/
theorem Inv.await (h : Inv c) (w : ω) (m : Wait) : (c.await w m).Returns fun d =>
    Inv d ∧ d.shared = c.shared ∧ (c.shared.isSet = true → ∀ n, (w, n) ∉ d.waiting) := by
  unfold Waits.await
  split
  · next hs =>
    obtain ⟨r, hr, hgives⟩ := result_gives h.filled hs m
    simp only [hr]
    exact ⟨h.return_ hgives, rfl, fun _ n hn => by simpa using (List.mem_filter.mp hn).2⟩
  · next hs => exact ⟨⟨h.filled, h.returned⟩, rfl, fun hs' => absurd hs' hs⟩

theorem await_shared {m : Wait} (h : c.await w m = .next d) : d.shared = c.shared := by
  unfold Waits.await at h
  split at h
  · split at h
    · cases h
      rfl
    · cases h
  · cases h
    rfl

theorem next_inv (h : Inv c) (a : Act τ ε ω) : (next c a).Yields Inv := by
  cases a with
  | fulfil x =>
    simp only [next, yields_bind]
    intro t ht
    obtain ⟨hunset, hset, hfilled⟩ := set_yields x c.shared t ht
    refine yields_next.mpr ⟨hfilled, fun p hp => ?_⟩
    have hgives := h.returned p hp
    cases hr : p.2 with
    | bool b => cases b <;> simp_all [Gives]
    | _ => simp_all [Gives]
  | call w m =>
    simp only [next, yields_bind, yields_requiring]
    intro _
    have hawait := Inv.await (c := { c with valid := m ≠ Wait.takeValue }) ⟨h.filled, h.returned⟩ w m
    exact fun d hd => (hawait.ok.of_next hd).1
  | look w m =>
    simp only [next, yields_bind, yields_requiring]
    exact fun _ d hd => ((h.await w m).ok.of_next hd).1
  | timeout w m =>
    simp only [next, yields_bind, yields_requiring]
    refine fun _ => yields_next.mpr (h.return_ ?_)
    cases hs : c.shared.isSet <;> simp [Gives, hs]

theorem reachable_inv (h : Runs.Reachable next Init c) : Inv c :=
  h.yields (fun _ => init_inv) fun _ a hv => next_inv hv a

/-! ## Wake-ups -/

/-- Once the state is set, nobody falls asleep, and nobody is notified. -/
theorem next_asleep {c d : Sleepers.Config (Waits τ ε ω) ω Unit} (hs : c.state.shared.isSet = true)
    {b : Sleepers.Act (Act τ ε ω) ω} (hd : Sleepers.next next signals c b = .next d) :
    d.state.shared.isSet = true ∧ (∀ p ∈ d.asleep, p ∈ c.asleep) ∧
      ∀ p ∈ c.asleep, b ≠ .wakeUp p.1 → p ∈ d.asleep := by
  cases b with
  | wakeUp w =>
    cases hd
    refine ⟨hs, fun p hp => (List.mem_filter.mp hp).1, fun p hp hne => List.mem_filter.mpr ⟨hp, ?_⟩⟩
    exact decide_eq_true fun he => hne (by rw [he])
  | act a woken =>
    obtain ⟨-, hstep, left, hleft, hd⟩ := Sleepers.next_act.mp hd
    have hkeeps : d.state.shared = c.state.shared ∧ signals.notifies c.state a = .nobody ∧
        Sleepers.sleeper signals c.state a = [] := by
      cases a with
      | fulfil x =>
        simp only [next, bind_eq_next] at hstep
        obtain ⟨t, ht, -⟩ := hstep
        rw [(set_yields x _ t ht).1] at hs
        cases hs
      | call w m =>
        simp only [next, bind_eq_next, requiring_eq_next] at hstep
        obtain ⟨-, -, hstep⟩ := hstep
        refine ⟨?_, rfl, by simp [Sleepers.sleeper, signals, hs]⟩
        exact (await_shared hstep :)
      | look w m =>
        simp only [next, bind_eq_next, requiring_eq_next] at hstep
        obtain ⟨-, -, hstep⟩ := hstep
        exact ⟨await_shared hstep, rfl, by simp [Sleepers.sleeper, signals, hs]⟩
      | timeout w m =>
        simp only [next, bind_eq_next, requiring_eq_next, pure_eq, Outcome.next.injEq] at hstep
        obtain ⟨-, -, hstep⟩ := hstep
        exact ⟨by rw [← hstep]; rfl, rfl, by simp [Sleepers.sleeper, signals]⟩
    obtain ⟨hshared, hnobody, hsleeper⟩ := hkeeps
    rw [hnobody] at hleft
    obtain rfl : c.asleep = left := Outcome.next.inj hleft
    rw [hsleeper, List.nil_append] at hd
    rw [hd]
    exact ⟨by rwa [hshared], fun p hp => hp, fun p hp _ => hp⟩

theorem run_asleep {c d : Sleepers.Config (Waits τ ε ω) ω Unit} (hs : c.state.shared.isSet = true)
    {bs : List (Sleepers.Act (Act τ ε ω) ω)} (hd : Runs.run (Sleepers.next next signals) c bs = .next d) :
    d.state.shared.isSet = true ∧ (∀ p ∈ d.asleep, p ∈ c.asleep) ∧
      ∀ p ∈ c.asleep, .wakeUp p.1 ∉ bs → p ∈ d.asleep := by
  induction bs generalizing c with
  | nil =>
    cases hd
    exact ⟨hs, fun p hp => hp, fun p hp _ => hp⟩
  | cons b bs ih =>
    simp only [Runs.run, bind_eq_next] at hd
    obtain ⟨m, hm, hd⟩ := hd
    obtain ⟨hms, hsub, hstay⟩ := next_asleep hs hm
    obtain ⟨hds, hsub', hstay'⟩ := ih hms hd
    refine ⟨hds, fun p hp => hsub p (hsub' p hp), fun p hp hne => hstay' p (hstay p hp fun he => ?_) fun hmem => ?_⟩
    · exact hne (he ▸ List.mem_cons_self)
    · exact hne (List.mem_cons_of_mem b hmem)

/-- **A promise wakes one thread up.** Whatever threads wait for a future in
whatever order: when the promise is fulfilled, one of those that sleep is woken
up, and the others sleep on until their time is over or they wake up for no
reason, whatever else happens; those that are awake return with their next look,
and what any call has returned is right. So nobody who waits is left asleep if
and only if at most one thread slept. -/
theorem wakes_one {c d e : Sleepers.Config (Waits τ ε ω) ω Unit}
    (h : Runs.Reachable (Sleepers.next next signals) (Sleepers.Init Init) c) {x : Fulfil τ ε}
    {woken : Option ω} (hd : Sleepers.next next signals c (.act (.fulfil x) woken) = .next d)
    {bs : List (Sleepers.Act (Act τ ε ω) ω)} (he : Runs.run (Sleepers.next next signals) d bs = .next e) :
    (c.asleep = [] ∧ e.asleep = [] ∨ ∃ w, (w, ()) ∈ c.asleep ∧ (w, ()) ∉ e.asleep ∧
      (∀ p ∈ e.asleep, p ∈ c.asleep) ∧ ∀ p ∈ c.asleep, p.1 ≠ w → .wakeUp p.1 ∉ bs → p ∈ e.asleep) ∧
    (∀ w m, (w, m) ∈ e.state.waiting → (w, ()) ∉ e.asleep → ∃ f,
      Sleepers.next next signals e (.act (.look w m) none) = .next f ∧ ∀ n, (w, n) ∉ f.state.waiting) ∧
    ∀ p ∈ e.state.returned, Gives e.state.shared p.2 := by
  obtain ⟨-, hstep, left, hleft, hdas⟩ := Sleepers.next_act.mp hd
  have hset : d.state.shared.isSet = true := by
    simp only [next, bind_eq_next, pure_eq, Outcome.next.injEq] at hstep
    obtain ⟨t, ht, hstep⟩ := hstep
    rw [← hstep]
    exact (set_yields x _ t ht).2.1
  obtain ⟨heset, hsub, hstay⟩ := run_asleep hset he
  have hv := reachable_inv (Sleepers.reachable_base ((h.step hd).run he))
  refine ⟨?_, fun w m hw haw => ?_, hv.returned⟩
  · rw [show Sleepers.sleeper signals c.state (.fulfil x) = [] from rfl, List.nil_append] at hdas
    rw [hdas] at hsub hstay
    cases woken with
    | none =>
      simp only [signals, Sleepers.notify, bind_eq_next, requiring_eq_next, pure_eq, Outcome.next.injEq] at hleft
      obtain ⟨-, hnone, rfl⟩ := hleft
      have hnil : c.asleep = [] := List.eq_nil_iff_forall_not_mem.mpr fun p hp => hnone p hp rfl
      rw [hnil] at hsub
      exact .inl ⟨hnil, List.eq_nil_iff_forall_not_mem.mpr fun p hp => by simpa using hsub p hp⟩
    | some w =>
      simp only [signals, Sleepers.notify, bind_eq_next, requiring_eq_next, pure_eq, Outcome.next.injEq] at hleft
      obtain ⟨-, hw, rfl⟩ := hleft
      refine .inr ⟨w, hw, fun hwe => ?_, fun p hp => (List.mem_filter.mp (hsub p hp)).1, fun p hp hne hbs => ?_⟩
      · simpa using (List.mem_filter.mp (hsub _ hwe)).2
      · exact hstay p (List.mem_filter.mpr ⟨hp, decide_eq_true fun hpw => hne (by rw [hpw])⟩) hbs
  · have hlook : next e.state (.look w m) = e.state.await w m := by
      simp [next, requiring_true hw]
    obtain ⟨f, hf, -, -, hgone⟩ := (hv.await w m).exists
    have hawake : ∀ p ∈ e.asleep, some w ≠ some p.1 := fun p hp hpw => by
      obtain ⟨v, u⟩ := p
      cases hpw
      exact haw hp
    refine ⟨⟨f, e.asleep⟩, ?_, hgone heset⟩
    rw [Sleepers.next_act]
    refine ⟨hawake, hlook.trans hf, e.asleep, rfl, ?_⟩
    simp [Sleepers.sleeper, signals, heset]

def newWaits : Waits Nat Nat Bool := ⟨.new, true, [], []⟩

/-- Two threads wait, and one of them sleeps on. -/
theorem wakes_one_ofTwo : ∃ c d e : Sleepers.Config (Waits Nat Nat Bool) Bool Unit,
    Runs.run (Sleepers.next next signals) ⟨newWaits, []⟩
      [.act (.call true .wait) none, .act (.call false .waitFor) none] = .next c ∧
    Sleepers.next next signals c (.act (.fulfil (.emplaceValue (some 5))) (some true)) = .next d ∧
    Runs.run (Sleepers.next next signals) d [.act (.look true .wait) none] = .next e ∧
    (false, ()) ∈ e.asleep := by
  obtain ⟨c, d, e, hc, hcas, hd, he, heas⟩ : ∃ c d e : Sleepers.Config (Waits Nat Nat Bool) Bool Unit,
      Runs.run (Sleepers.next next signals) ⟨newWaits, []⟩
        [.act (.call true .wait) none, .act (.call false .waitFor) none] = .next c ∧
      c.asleep = [(false, ()), (true, ())] ∧
      Sleepers.next next signals c (.act (.fulfil (.emplaceValue (some 5))) (some true)) = .next d ∧
      Runs.run (Sleepers.next next signals) d [.act (.look true .wait) none] = .next e ∧
      e.asleep = [(false, ())] := ⟨_, _, _, rfl, rfl, rfl, rfl, rfl⟩
  have hinit : Sleepers.Init Init (⟨newWaits, []⟩ : Sleepers.Config (Waits Nat Nat Bool) Bool Unit) :=
    ⟨⟨rfl, rfl, rfl, rfl⟩, rfl⟩
  refine ⟨c, d, e, hc, hd, he, ?_⟩
  rcases (wakes_one (.run (.init hinit) hc) hd he).1 with ⟨hnil, -⟩ | ⟨w, hw, hwe, -, hstay⟩
  · rw [hcas] at hnil
    cases hnil
  · cases w with
    | true => exact hstay (false, ()) (by simp [hcas]) (by decide) (by simp)
    | false => simp [heas] at hwe

end Waits

end Future
