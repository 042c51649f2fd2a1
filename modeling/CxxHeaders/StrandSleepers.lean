/-
What was submitted to a strand is executed, and a stop comes to an end.

As long as the slice task is not parked, whoever has it can go on (`nextAct`),
and comes to park it (`exists_run_parked`): when all jobs are done, or at once
after a stop. A thread in `stopAndJoin` sleeps on `m_joinCond` until then
(`signals`); `notify_all` where the slice task is parked is enough.
-/
import CxxHeaders.StrandStop
import CxxHeaders.Sleepers

open Outcome LinkedQueue

namespace Strand

variable {ω σ τ : Type}

/-! ## The way of the slice task -/

/-- What its holder does next, or the worker `w` that takes it from the pool. -/
def nextAct (w : ω) : Place ω τ → Act ω σ τ
  | .parked | .queued => .take w
  | .held v .started => .retrieve v
  | .held v (.retrieved _) => .execute v
  | .held v (.executing _) => .executed v
  | .held v _ => .resubmit v

/-- An action of a worker. -/
def Act.ofWorker : Act ω σ τ → Bool
  | .take _ | .retrieve _ | .execute _ | .executed _ | .resubmit _ => true
  | _ => false

def Place.phase : Place ω τ → Nat
  | .parked => 0
  | .held _ (.retrieved _) => 1
  | .held _ .started => 2
  | .queued => 3
  | .held _ .executed => 4
  | .held _ (.executing _) => 5
  | .held _ .idle => 0

/-- How far the slice task is from being parked. -/
def distance (c : Config ω σ τ) (p : Place ω τ) : Nat :=
  6 * (c.submitted.length - c.started.length) + p.phase

/-- Only workers have done something. -/
structure Kept (c d : Config ω σ τ) : Prop where
  submitted : d.submitted = c.submitted
  stopper : d.stopper = c.stopper
  threadPool : d.strand.threadPool = c.strand.threadPool

theorem Kept.trans {c d e : Config ω σ τ} (h : Kept c d) (h' : Kept d e) : Kept c e :=
  ⟨h'.submitted.trans h.submitted, h'.stopper.trans h.stopper, h'.threadPool.trans h.threadPool⟩

variable [DecidableEq ω]

section

variable [DecidableEq σ] {c d : Config ω σ τ} {v : View ω τ} {w : ω}

/-- Where the slice task is after a step, which says how far that is. -/
theorem Inv.next_held (h : Inv c v) {a : Act ω σ τ} (hd : next c a = .next d) {x : Worker τ}
    (hw : d.worker w = x) (hx : x ≠ .idle) : ∃ v', Inv d v' ∧ v'.place = .held w x := by
  obtain ⟨v', hv'⟩ := (next_ok h a).of_next hd
  exact ⟨v', hv', hv'.token.held hw hx⟩

theorem Inv.next_parked (h : Inv c v) {a : Act ω σ τ} (hd : next c a = .next d)
    (hs : d.strand.sliceTask = true) : ∃ v', Inv d v' ∧ v'.place = .parked := by
  obtain ⟨v', hv'⟩ := (next_ok h a).of_next hd
  exact ⟨v', hv', Place.eq_parked (hv'.token.sliceTask.symm.trans hs)⟩

/-- The step of the holder. -/
theorem advance (h : Inv c v) (hp : v.place ≠ .parked) (w : ω) :
    ∃ d v', next c (nextAct w v.place) = .next d ∧ Inv d v' ∧ Kept c d ∧
      distance d v'.place < distance c v.place := by
  have hat := h.token
  cases hplace : v.place with
  | parked => exact absurd hplace hp
  | queued =>
    rw [hplace] at hat
    have hw : c.worker w = .idle := congrFun hat.worker w
    have hpool : 0 < c.pool := by rw [hat.pool]; exact Nat.one_pos
    have hd : next c (.take w) = .next { c with
        pool := c.pool - 1, worker := Function.update c.worker w .started } := by
      simp [next, hw, requiring_true hpool]
    obtain ⟨v', hv', hheld⟩ := h.next_held hd (Function.update_self ..) (by simp)
    exact ⟨_, v', hd, hv', ⟨rfl, rfl, rfl⟩, by simp [distance, hheld, Place.phase]⟩
  | held u x =>
    rw [hplace] at hat
    have hw : c.worker u = x :=
      (congrFun hat.worker u).trans (Function.update_self (β := fun _ => Worker τ) u x fun _ => .idle)
    have hs : c.strand.sliceTask = false := hat.sliceTask
    cases x with
    | idle => exact absurd rfl (hat.busy rfl)
    | started =>
      cases ht : c.strand.threadPool with
      | false =>
        have hd : next c (.retrieve u) = .next { c with
            strand := { c.strand with sliceTask := true }, worker := Function.update c.worker u .idle } := by
          simp [next, hw, retrieve_stopping ht hs]
        obtain ⟨v', hv', hparked⟩ := h.next_parked hd rfl
        exact ⟨_, v', hd, hv', ⟨rfl, rfl, rfl⟩, by simp [distance, hparked, Place.phase]⟩
      | true =>
        obtain ⟨job, rest, hx⟩ := List.exists_cons_of_ne_nil (h.coming ht (by rw [hplace]; rfl))
        obtain ⟨a, b, bs, -, -, -, -, he⟩ := retrieve_eq ht (hx ▸ h.queue)
        have hd : next c (.retrieve u) = .next { c with
            strand := { c.strand with heap := unlink c.strand.heap a, head := some b }
            worker := Function.update c.worker u (.retrieved a) } := by
          simp [next, hw, he]
        obtain ⟨v', hv', hheld⟩ := h.next_held hd (Function.update_self ..) (by simp)
        exact ⟨_, v', hd, hv', ⟨rfl, rfl, rfl⟩, by simp [distance, hheld, Place.phase]⟩
    | retrieved task =>
      have hhand := h.hand
      rw [hplace] at hhand
      obtain ⟨job, hdet, hhand⟩ := hhand
      have hd : next c (.execute u) = .next { c with
          worker := Function.update c.worker u (.executing job)
          owner := Function.update c.owner task .caller, started := c.started ++ [job] } := by
        simp [next, hw, hdet.node]
      obtain ⟨v', hv', hheld⟩ := h.next_held hd (Function.update_self ..) (by simp)
      refine ⟨_, v', hd, hv', ⟨rfl, rfl, rfl⟩, ?_⟩
      have hlen : c.submitted.length = c.started.length + 1 + v.waiting.length := by
        rw [h.fifo, hhand, List.length_append, List.length_append, List.length_singleton]
      simp only [distance, hheld, Place.phase, List.length_append, List.length_singleton]
      omega
    | executing job =>
      have hd : next c (.executed u) = .next { c with worker := Function.update c.worker u .executed } := by
        simp [next, hw]
      obtain ⟨v', hv', hheld⟩ := h.next_held hd (Function.update_self ..) (by simp)
      exact ⟨_, v', hd, hv', ⟨rfl, rfl, rfl⟩, by simp [distance, hheld, Place.phase]⟩
    | executed =>
      rcases resubmit_eq h.queue hs with ⟨-, -, he⟩ | ⟨-, he⟩
      · have hd : next c (.resubmit u) = .next { c with
            pool := c.pool + 1, worker := Function.update c.worker u .idle } := by
          simp [next, hw, he]
        obtain ⟨v', hv'⟩ := (next_ok h _).of_next hd
        have hqueued := hv'.token.queued (Nat.succ_pos _)
        exact ⟨_, v', hd, hv', ⟨rfl, rfl, rfl⟩, by simp [distance, hqueued, Place.phase]⟩
      · have hd : next c (.resubmit u) = .next { c with
            strand := { c.strand with sliceTask := true }, worker := Function.update c.worker u .idle } := by
          simp [next, hw, he]
        obtain ⟨v', hv', hparked⟩ := h.next_parked hd rfl
        exact ⟨_, v', hd, hv', ⟨rfl, rfl, rfl⟩, by simp [distance, hparked, Place.phase]⟩

omit [DecidableEq ω] [DecidableEq σ] in
theorem nextAct_ofWorker (w : ω) (p : Place ω τ) : (nextAct w p : Act ω σ τ).ofWorker := by
  unfold nextAct
  split <;> rfl

/-- The workers alone park the slice task. -/
theorem exists_run_parked (w : ω) (n : Nat) (h : Inv c v) (hn : distance c v.place < n) :
    ∃ as d v', Runs.run next c as = .next d ∧ (∀ a ∈ as, a.ofWorker) ∧ Kept c d ∧ Inv d v' ∧
      v'.place = .parked := by
  induction n generalizing c v with
  | zero => cases hn
  | succ n ih =>
    by_cases hp : v.place = .parked
    · exact ⟨[], c, v, rfl, by simp, ⟨rfl, rfl, rfl⟩, h, hp⟩
    · obtain ⟨m, u, hm, hu, hkept, hlt⟩ := advance h hp w
      obtain ⟨as, d, v', hrun, has, hkept', hv', hparked⟩ := ih hu (by omega)
      refine ⟨nextAct w v.place :: as, d, v', ?_, fun a ha => ?_, hkept.trans hkept', hv', hparked⟩
      · rw [Runs.run, hm, next_bind, hrun]
      · rcases List.mem_cons.mp ha with rfl | ha
        · exact nextAct_ofWorker w v.place
        · exact has a ha

/-- **A strand does what was submitted.** In every state that is reached, as long
as the strand is not stopped, the workers alone execute all jobs: they need no
further submit, and the slice task is back in the strand then. -/
theorem executes_all (h : Runs.Reachable next Init c) (ht : c.strand.threadPool = true) (w : ω) :
    ∃ as d, Runs.run next c as = .next d ∧ (∀ a ∈ as, a.ofWorker) ∧ d.submitted = c.submitted ∧
      d.started = c.submitted ∧ d.strand.sliceTask = true ∧ ∀ u, d.worker u = .idle := by
  obtain ⟨v, hv⟩ := reachable_inv h
  obtain ⟨as, d, v', hrun, has, hkept, hv', hparked⟩ := exists_run_parked w _ hv (Nat.lt_succ_self _)
  have hat := hv'.token
  have hhand := hv'.hand
  have hempty := hv'.awake (hkept.threadPool.trans ht) hparked
  rw [hparked] at hat hhand
  have hhand : v'.hand = [] := hhand
  refine ⟨as, d, hrun, has, hkept.submitted, ?_, hat.sliceTask, fun u => congrFun hat.worker u⟩
  rw [← hkept.submitted, hv'.fifo, hhand, hempty, List.append_nil, List.append_nil]

/-- A worker is in the first of two jobs. -/
theorem executes_all_inJob : ∃ c d : Config Bool Unit Nat, ∃ as,
    Runs.run next (new 0 true fun _ => ⟨none, none⟩) [.createTask 1 10, .createTask 2 20, .submit 1, .submit 2,
      .take false, .retrieve false, .execute false] = .next c ∧
    Runs.run next c as = .next d ∧ d.started = [10, 20] := by
  obtain ⟨c, hc, ht, hsub⟩ : ∃ c : Config Bool Unit Nat,
      Runs.run next (new 0 true fun _ => ⟨none, none⟩) [.createTask 1 10, .createTask 2 20, .submit 1,
        .submit 2, .take false, .retrieve false, .execute false] = .next c ∧
      c.strand.threadPool = true ∧ c.submitted = [10, 20] := ⟨_, rfl, rfl, rfl⟩
  obtain ⟨as, d, hrun, -, -, hstarted, -⟩ := executes_all (.run (.init ⟨0, true, _, rfl⟩) hc) ht true
  exact ⟨c, d, as, hc, hrun, hstarted.trans hsub⟩

end

/-! ## Waiting for the slice task -/

namespace Join

/-- With the looks of a thread in `stopAndJoin` that do not find the slice task. -/
inductive Act (ω σ τ : Type) where
  | strand (a : Strand.Act ω σ τ)
  | look (s : σ)

variable [DecidableEq σ]

def next (c : Config ω σ τ) : Act ω σ τ → Outcome (Config ω σ τ)
  | .strand a => Strand.next c a
  | .look s =>
    match c.stopper s with
    | .waiting => do
      requiring ¬c.strand.sliceTask
      return c
    | _ => .blocked

def signals : Signals (Config ω σ τ) (Act ω σ τ) σ Unit where
  actor
    | .strand (.stopAndJoin s) | .strand (.joined s) | .look s => some s
    | _ => none
  sleeps c
    | .strand (.stopAndJoin _) => if c.strand.sliceTask then none else some ()
    | .look _ => some ()
    | _ => none
  notifies c
    | .strand (.retrieve _) => if c.strand.threadPool then .nobody else .all ()
    | .strand (.resubmit _) =>
      if c.strand.threadPool ∧ c.strand.head ≠ some c.strand.tail then .nobody else .all ()
    | _ => .nobody

variable {c d : Config ω σ τ}

/-- Who waits, and where the slice task is parked. -/
theorem next_joins (a : Strand.Act ω σ τ) : (Strand.next c a).Yields fun d =>
    (∀ s, signals.actor (.strand a) ≠ some s → d.stopper s = c.stopper s) ∧
    (∀ s, a = .stopAndJoin s → d.stopper s = .waiting ∧ d.strand.sliceTask = c.strand.sliceTask) ∧
    (d.strand.sliceTask = true → c.strand.sliceTask = true ∨ signals.notifies c (.strand a) = .all ()) := by
  intro d hd
  cases next_stepped c a d hd with
  | @submit task strand handed hs =>
    refine ⟨fun _ _ => rfl, by simp, fun hslice => .inl ?_⟩
    simp only [Strand.submit, bind_eq_next, asserting_eq_next] at hs
    obtain ⟨-, -, -, -, hs⟩ := hs
    split at hs <;> cases hs
    · cases hslice
    · exact hslice
  | @retrieve w strand task _ hs =>
    refine ⟨fun _ _ => rfl, by simp, fun hslice => ?_⟩
    cases ht : c.strand.threadPool with
    | false => exact .inr (by simp [signals, ht])
    | true =>
      refine .inl ?_
      simp only [Strand.retrieve, ht, not_true_eq_false, if_false] at hs
      split at hs
      · cases hs
      · simp only [bind_eq_next, pure_eq, Outcome.next.injEq] at hs
        obtain ⟨-, -, -, -, -, -, hs⟩ := hs
        cases hs
        exact hslice
  | @resubmit w strand handed _ hs =>
    refine ⟨fun _ _ => rfl, by simp, fun hslice => ?_⟩
    by_cases hgo : c.strand.threadPool ∧ c.strand.head ≠ some c.strand.tail
    · simp only [Strand.resubmit, if_pos hgo, pure_eq, Outcome.next.injEq] at hs
      cases hs
      exact .inl hslice
    · exact .inr (if_neg hgo)
  | @stopAndJoin s _ =>
    refine ⟨fun u hu => ?_, fun u hu => ?_, .inl⟩
    · exact Function.update_of_ne (fun he => hu (congrArg some he.symm)) _ _
    · cases hu
      exact ⟨Function.update_self .., rfl⟩
  | @joined s _ _ =>
    refine ⟨fun u hu => ?_, by simp, .inl⟩
    exact Function.update_of_ne (fun he => hu (congrArg some he.symm)) _ _
  | _ => exact ⟨fun _ _ => rfl, by simp, .inl⟩

/-- `notify_all` where the slice task is parked is enough. -/
theorem enough : Sleepers.Enough (κ := Unit) next signals (fun _ : Config ω σ τ => True)
    (fun c s _ => c.stopper s = .waiting) (fun c _ => c.strand.sliceTask = true) where
  sleeps {c a d s p} _ hd hs hsleeps := by
    cases a with
    | strand a =>
      cases a with
      | stopAndJoin u =>
        cases hs
        have hne : ¬c.strand.sliceTask := fun he => by simp [signals, he] at hsleeps
        have hd : Strand.next c (.stopAndJoin s) = .next d := hd
        obtain ⟨hw, hslice⟩ := (next_joins _ d hd).2.1 s rfl
        exact ⟨hw, fun he => hne (hslice ▸ he)⟩
      | _ => cases hsleeps
    | look u =>
      cases hs
      simp only [next] at hd
      split at hd
      · next hw =>
        simp only [bind_eq_next, requiring_eq_next, pure_eq, Outcome.next.injEq] at hd
        obtain ⟨-, hne, rfl⟩ := hd
        exact ⟨hw, hne⟩
      · cases hd
  keeps {c a d s p} _ hd hs hwaits hready := by
    cases a with
    | strand a =>
      obtain ⟨hkeeps, -, hparked⟩ := next_joins a d hd
      exact ⟨(hkeeps s hs).trans hwaits, fun hr => .inl ((hparked hr).resolve_left hready)⟩
    | look u =>
      simp only [next] at hd
      split at hd
      · simp only [bind_eq_next, requiring_eq_next, pure_eq, Outcome.next.injEq] at hd
        obtain ⟨-, -, rfl⟩ := hd
        exact ⟨hwaits, fun hr => absurd hr hready⟩
      · cases hd

theorem reachable_strand (h : Runs.Reachable next Init c) : Runs.Reachable Strand.next Init c := by
  induction h with
  | init h => exact .init h
  | @step s a t _ ht ih =>
    cases a with
    | strand a => exact ih.step ht
    | look u =>
      simp only [next] at ht
      split at ht
      · simp only [bind_eq_next, requiring_eq_next, pure_eq, Outcome.next.injEq] at ht
        obtain ⟨-, -, rfl⟩ := ht
        exact ih
      · cases ht

/-- Threads only look when it is of use. -/
def Useful (c : Config ω σ τ) (a : Act ω σ τ) : Prop :=
  ∀ s (_ : Unit), signals.actor a = some s → c.stopper s = .waiting → c.strand.sliceTask = true

/-- The steps of workers. -/
theorem run_workers {as : List (Strand.Act ω σ τ)} (h : Runs.run Strand.next c as = .next d)
    (has : ∀ a ∈ as, a.ofWorker) :
    Runs.run next c (as.map .strand) = .next d ∧ Runs.Meets next Useful c (as.map .strand) := by
  induction as generalizing c with
  | nil =>
    cases h
    exact ⟨rfl, trivial⟩
  | cons a as ih =>
    simp only [Runs.run, bind_eq_next] at h
    obtain ⟨m, hm, hrest⟩ := h
    have hnext : next c (.strand a) = .next m := hm
    obtain ⟨hrun, hmeets⟩ := ih hrest fun b hb => has b (List.mem_cons_of_mem a hb)
    refine ⟨by rw [List.map_cons, Runs.run, hnext, next_bind, hrun], .cons (fun s _ hs => ?_) hnext hmeets⟩
    have ha := has a List.mem_cons_self
    cases a with
    | stopAndJoin | joined => cases ha
    | _ => cases hs

/-- **`stopAndJoin` returns.** In every interleaving, with any spurious wake-ups:
nobody sleeps in it when the slice task is parked; and whoever is in it is woken
up and returns when the workers have come to park it, by what they do alone,
provided that jobs return. -/
theorem join_returns {c : Sleepers.Config (Config ω σ τ) σ Unit}
    (h : Runs.Reachable (Sleepers.next next signals) (Sleepers.Init Init) c) (w : ω) :
    (c.state.strand.sliceTask = true → c.asleep = []) ∧
    ∀ s, c.state.stopper s = .waiting → ∃ bs d, Runs.run (Sleepers.next next signals) c bs = .next d ∧
      d.state.stopper s = .returned ∧
        ∀ b ∈ bs, ∃ woken, b = .act (.strand (.joined s)) woken ∨ ∃ a, a.ofWorker ∧ b = .act (.strand a) woken := by
  refine ⟨fun hslice => List.eq_nil_iff_forall_not_mem.mpr fun p hp => ?_, fun s hs => ?_⟩
  · exact (Sleepers.no_lost_wakeup enough (fun _ _ => trivial) h p hp).2 hslice
  · obtain ⟨v, hv⟩ := reachable_inv (reachable_strand (Sleepers.reachable_base h))
    obtain ⟨as, d, v', hrun, has, hkept, hv', hparked⟩ := exists_run_parked w _ hv (Nat.lt_succ_self _)
    have hslice : d.strand.sliceTask = true := by rw [hv'.token.sliceTask, hparked]; rfl
    have hsd : d.stopper s = .waiting := by rw [hkept.stopper, hs]
    have hjoined : next d (.strand (.joined s)) =
        .next { d with stopper := Function.update d.stopper s .returned } := by
      simp [next, Strand.next, hsd, requiring_true hslice]
    obtain ⟨hwork, huseful⟩ := run_workers hrun has
    have hall : Runs.run next c.state (as.map .strand ++ [.strand (.joined s)]) =
        .next { d with stopper := Function.update d.stopper s .returned } := by
      rw [Runs.run_append, hwork, next_bind, Runs.run, hjoined]
      rfl
    have hend : Runs.Meets next Useful d [.strand (.joined s)] :=
      .cons (fun _ _ _ _ => hslice) hjoined trivial
    obtain ⟨bs, left, hbs, hbsrun⟩ := Sleepers.exists_notified_run enough (fun _ _ => trivial) h hall
      (huseful.append hwork hend)
    refine ⟨bs, _, hbsrun, Function.update_self .., fun b hb => ?_⟩
    obtain ⟨a, ha, woken, rfl⟩ := hbs b hb
    refine ⟨woken, ?_⟩
    rcases List.mem_append.mp ha with ha | ha
    · obtain ⟨x, hx, rfl⟩ := List.mem_map.mp ha
      exact .inr ⟨x, has x hx, rfl⟩
    · exact .inl (by rw [List.mem_singleton.mp ha])

/-- A strand is stopped when its slice task waits in the pool. -/
theorem join_returns_queued : ∃ c d : Sleepers.Config (Config Bool Unit Nat) Unit Unit, ∃ bs,
    Runs.run (Sleepers.next next signals) ⟨Strand.new 0 true fun _ => ⟨none, none⟩, []⟩
      [.act (.strand (.createTask 1 10)) none, .act (.strand (.submit 1)) none,
        .act (.strand (.stopAndJoin ())) none, .wakeUp (), .act (.look ()) none] = .next c ∧
    c.asleep = [((), ())] ∧ Runs.run (Sleepers.next next signals) c bs = .next d ∧
    d.state.stopper () = .returned := by
  obtain ⟨c, hc, hasleep, hs⟩ : ∃ c : Sleepers.Config (Config Bool Unit Nat) Unit Unit,
      Runs.run (Sleepers.next next signals) ⟨Strand.new 0 true fun _ => ⟨none, none⟩, []⟩
        [.act (.strand (.createTask 1 10)) none, .act (.strand (.submit 1)) none,
          .act (.strand (.stopAndJoin ())) none, .wakeUp (), .act (.look ()) none] = .next c ∧
      c.asleep = [((), ())] ∧ c.state.stopper () = .waiting := ⟨_, rfl, rfl, rfl⟩
  obtain ⟨bs, d, hrun, hd, -⟩ := (join_returns (.run (.init ⟨⟨0, true, _, rfl⟩, rfl⟩) hc) true).2 () hs
  exact ⟨c, d, bs, hc, hasleep, hrun, hd⟩

end Join

end Strand
