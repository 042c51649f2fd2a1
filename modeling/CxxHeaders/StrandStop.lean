/-
Stopping a strand is a barrier: when `stopAndJoin` returns the slice task is
parked, and as there is no pool any more it stays there, whatever is submitted
(`stop_is_barrier`). The pool pointer, once taken, does not come back, so that
nobody hands the slice task to the pool again.
-/
import CxxHeaders.StrandSerial

open Outcome LinkedQueue

namespace Strand

variable {ω σ τ : Type}

/-- The pool pointer was taken, the slice task is in `m_sliceTask`, and nobody
is in `run`. -/
structure Stopped (c : Config ω σ τ) : Prop where
  threadPool : c.strand.threadPool = false
  sliceTask : c.strand.sliceTask = true
  pool : c.pool = 0
  worker : ∀ w, c.worker w = .idle

/-- The jobs that were not started are in the queue. -/
def Queued (c : Config ω σ τ) : Prop :=
  ∃ nodes waiting, Rep c.strand.toQueue nodes waiting ∧ c.submitted = c.started ++ waiting

theorem Place.eq_parked {p : Place ω τ} (h : p.isParked = true) : p = .parked := by
  cases p with
  | parked => rfl
  | queued => cases h
  | held => cases h

/-! ## Without a pool -/

theorem submit_stopped {s : Strand τ} (h : s.threadPool = false) (task : Nat) :
    (s.submit task).Yields fun r => r.2 = false ∧ r.1.threadPool = false ∧ r.1.sliceTask = s.sliceTask := by
  unfold submit
  simp only [yields_bind, yields_asserting]
  intro _ _
  simp [h]

theorem retrieve_stopped {s : Strand τ} (h : s.threadPool = false) :
    s.retrieve.Yields fun r => r.1.threadPool = false := by
  unfold retrieve
  simp only [h, Bool.false_eq_true, not_false_eq_true, if_true, yields_bind, yields_asserting]
  intro _
  exact yields_next.mpr rfl

theorem resubmit_stopped {s : Strand τ} (h : s.threadPool = false) :
    s.resubmit.Yields fun r => r.2 = false ∧ r.1.threadPool = false := by
  unfold resubmit
  simp only [h, Bool.false_eq_true, false_and, if_false, yields_bind, yields_asserting]
  intro _
  exact yields_next.mpr ⟨rfl, rfl⟩

section
variable [DecidableEq ω]

theorem Inv.stopped {c : Config ω σ τ} {v : View ω τ} (h : Inv c v) (ht : c.strand.threadPool = false)
    (hs : c.strand.sliceTask = true) : Stopped c := by
  have hp : v.place = .parked := Place.eq_parked (h.token.sliceTask.symm.trans hs)
  refine ⟨ht, hs, ?_, fun w => ?_⟩
  · rw [h.token.pool, hp]
    rfl
  · rw [h.token.worker, hp]
    rfl

theorem Inv.queued {c : Config ω σ τ} {v : View ω τ} (h : Inv c v) (hs : Stopped c) : Queued c := by
  have hp : v.place = .parked := Place.eq_parked (h.token.sliceTask.symm.trans hs.sliceTask)
  have hhand : v.hand = [] := by
    have hh := h.hand
    rw [hp] at hh
    exact hh
  have hfifo := h.fifo
  rw [hhand, List.append_nil] at hfifo
  exact ⟨v.nodes, v.waiting, h.queue, hfifo⟩

variable [DecidableEq σ]

/-! ## One step -/

/-- What a step may do. -/
inductive Stepped (c : Config ω σ τ) : Act ω σ τ → Config ω σ τ → Prop
  | createTask (task : Nat) (job : τ) : Stepped c (.createTask task job) { c with
      strand := { c.strand with heap := Function.update c.strand.heap task ⟨some job, none⟩ },
      owner := Function.update c.owner task .caller }
  | dropTask (task : Nat) : Stepped c (.dropTask task) { c with
      owner := Function.update c.owner task .nobody }
  | submit {task strand handed} (hs : c.strand.submit task = .next (strand, handed)) :
      Stepped c (.submit task) { c with
        strand := strand, pool := c.pool + handed.toNat, owner := Function.update c.owner task .strand,
        submitted := c.submitted ++ (c.strand.heap task).value.toList }
  | take {w} (hw : c.worker w = .idle) (hpool : 0 < c.pool) : Stepped c (.take w) { c with
      pool := c.pool - 1, worker := Function.update c.worker w .started }
  | retrieve {w strand task} (hw : c.worker w = .started) (hs : c.strand.retrieve = .next (strand, task)) :
      Stepped c (.retrieve w) { c with
        strand := strand, worker := Function.update c.worker w (task.elim .idle .retrieved) }
  | execute {w task job} (hw : c.worker w = .retrieved task) : Stepped c (.execute w) { c with
      worker := Function.update c.worker w (.executing job),
      owner := Function.update c.owner task .caller, started := c.started ++ [job] }
  | executed {w job} (hw : c.worker w = .executing job) : Stepped c (.executed w) { c with
      worker := Function.update c.worker w .executed }
  | resubmit {w strand handed} (hw : c.worker w = .executed)
      (hs : c.strand.resubmit = .next (strand, handed)) : Stepped c (.resubmit w) { c with
        strand := strand, pool := c.pool + handed.toNat, worker := Function.update c.worker w .idle }
  | stopAndJoin {s} (hs : c.stopper s = .idle) : Stepped c (.stopAndJoin s) { c with
      strand := { c.strand with threadPool := false }, stopper := Function.update c.stopper s .waiting }
  | joined {s} (hs : c.stopper s = .waiting) (hslice : c.strand.sliceTask = true) :
      Stepped c (.joined s) { c with stopper := Function.update c.stopper s .returned }
  | stopInJob {w job} (hw : c.worker w = .executing job) : Stepped c (.stopInJob w) { c with
      strand := { c.strand with threadPool := false } }

theorem next_stepped (c : Config ω σ τ) (a : Act ω σ τ) : (next c a).Yields (Stepped c a) := by
  cases a with
  | createTask task job =>
    simp only [next, yields_bind, yields_requiring]
    exact fun _ => yields_next.mpr (.createTask task job)
  | dropTask task =>
    simp only [next, yields_bind, yields_requiring]
    exact fun _ => yields_next.mpr (.dropTask task)
  | submit task =>
    simp only [next, yields_bind, yields_requiring]
    exact fun _ r hr => yields_next.mpr (.submit hr)
  | take w =>
    simp only [next]
    cases hw : c.worker w with
    | idle =>
      simp only [yields_bind, yields_requiring]
      exact fun hpool => yields_next.mpr (.take hw hpool)
    | _ => exact yields_blocked
  | retrieve w =>
    simp only [next]
    cases hw : c.worker w with
    | started =>
      simp only [yields_bind]
      exact fun r hr => yields_next.mpr (.retrieve hw hr)
    | _ => exact yields_blocked
  | execute w =>
    simp only [next]
    cases hw : c.worker w with
    | retrieved task =>
      dsimp only
      split
      · exact yields_failed
      · exact yields_next.mpr (.execute hw)
    | _ => exact yields_blocked
  | executed w =>
    simp only [next]
    cases hw : c.worker w with
    | executing job => exact yields_next.mpr (.executed hw)
    | _ => exact yields_blocked
  | resubmit w =>
    simp only [next]
    cases hw : c.worker w with
    | executed =>
      simp only [yields_bind]
      exact fun r hr => yields_next.mpr (.resubmit hw hr)
    | _ => exact yields_blocked
  | stopAndJoin s =>
    simp only [next]
    cases hs : c.stopper s with
    | idle => exact yields_next.mpr (.stopAndJoin hs)
    | _ => exact yields_blocked
  | joined s =>
    simp only [next]
    cases hs : c.stopper s with
    | waiting =>
      simp only [yields_bind, yields_requiring]
      exact fun hslice => yields_next.mpr (.joined hs hslice)
    | _ => exact yields_blocked
  | stopInJob w =>
    simp only [next]
    cases hw : c.worker w with
    | executing job => exact yields_next.mpr (.stopInJob hw)
    | _ => exact yields_blocked

/-- Nobody gives the pointer back, or anything to the pool. -/
theorem next_threadPool {c : Config ω σ τ} (h : c.strand.threadPool = false) (a : Act ω σ τ) :
    (next c a).Yields fun d => d.strand.threadPool = false ∧ d.pool ≤ c.pool := by
  intro d hd
  cases next_stepped c a d hd with
  | submit hs =>
    obtain ⟨rfl, ht, -⟩ := submit_stopped h _ _ hs
    exact ⟨ht, Nat.le_refl _⟩
  | take => exact ⟨h, Nat.sub_le ..⟩
  | retrieve _ hs => exact ⟨retrieve_stopped h _ hs, Nat.le_refl _⟩
  | resubmit _ hs =>
    obtain ⟨rfl, ht⟩ := resubmit_stopped h _ hs
    exact ⟨ht, Nat.le_refl _⟩
  | stopAndJoin | stopInJob => exact ⟨rfl, Nat.le_refl _⟩
  | createTask | dropTask | execute | executed | joined => exact ⟨h, Nat.le_refl _⟩

/-- A strand that is stopped starts nothing. -/
theorem next_stopped {c : Config ω σ τ} (h : Stopped c) (a : Act ω σ τ) :
    (next c a).Yields fun d => Stopped d ∧ d.started = c.started := by
  have hidle : ∀ w x, c.worker w = x → x = .idle := fun w x hw => hw.symm.trans (h.worker w)
  intro d hd
  cases next_stepped c a d hd with
  | submit hs =>
    obtain ⟨rfl, ht, hslice⟩ := submit_stopped h.threadPool _ _ hs
    exact ⟨⟨ht, hslice.trans h.sliceTask, h.pool, h.worker⟩, rfl⟩
  | take _ hpool => exact absurd h.pool (Nat.ne_of_gt hpool)
  | retrieve hw | execute hw | executed hw | resubmit hw | stopInJob hw => cases hidle _ _ hw
  | stopAndJoin => exact ⟨⟨rfl, h.sliceTask, h.pool, h.worker⟩, rfl⟩
  | createTask | dropTask | joined => exact ⟨⟨h.threadPool, h.sliceTask, h.pool, h.worker⟩, rfl⟩

/-! ## Waiting for the slice task -/

/-- How a call of `stopAndJoin` gets on. -/
theorem next_stopper (c : Config ω σ τ) (a : Act ω σ τ) :
    (next c a).Yields fun d => ∀ s, d.stopper s = c.stopper s ∨
      (d.stopper s = .waiting ∧ d.strand.threadPool = false) ∨
      (c.stopper s = .waiting ∧ d.strand.sliceTask = true) := by
  intro d hd u
  cases next_stepped c a d hd with
  | @stopAndJoin s hs =>
    by_cases hu : u = s
    · exact .inr (.inl ⟨by rw [hu]; exact Function.update_self .., rfl⟩)
    · exact .inl (Function.update_of_ne hu _ _)
  | @joined s hs hslice =>
    by_cases hu : u = s
    · exact .inr (.inr ⟨hu ▸ hs, hslice⟩)
    · exact .inl (Function.update_of_ne hu _ _)
  | _ => exact .inl rfl

/-- Whoever called `stopAndJoin` has taken the pool pointer; where the call
returned, the strand is stopped. -/
structure Barrier (c : Config ω σ τ) : Prop where
  called : ∀ s, c.stopper s ≠ .idle → c.strand.threadPool = false
  returned : ∀ s, c.stopper s = .returned → Stopped c

theorem next_barrier {c : Config ω σ τ} {v : View ω τ} (h : Inv c v) (hb : Barrier c) (a : Act ω σ τ) :
    (next c a).Yields Barrier := by
  intro d hd
  have hinv := (next_ok h a).of_next hd
  have hstep := next_stopper c a d hd
  have hcalled : ∀ s, d.stopper s ≠ .idle → d.strand.threadPool = false := by
    intro s hs
    rcases hstep s with he | ⟨-, ht⟩ | ⟨hw, -⟩
    · exact (next_threadPool (hb.called s (he ▸ hs)) a d hd).1
    · exact ht
    · exact (next_threadPool (hb.called s (by rw [hw]; exact nofun)) a d hd).1
  refine ⟨hcalled, fun s hs => ?_⟩
  rcases hstep s with he | ⟨hw, -⟩ | ⟨-, hslice⟩
  · exact (next_stopped (hb.returned s (he ▸ hs)) a d hd).1
  · rw [hs] at hw
    cases hw
  · obtain ⟨w, hinv⟩ := hinv
    exact hinv.stopped (hcalled s (by rw [hs]; exact nofun)) hslice

/-! ## Every run -/

theorem reachable_barrier {c : Config ω σ τ} (h : Runs.Reachable next Init c) :
    (∃ v, Inv c v) ∧ Barrier c := by
  refine h.yields (I := fun c => (∃ v, Inv c v) ∧ Barrier c) ?_ ?_
  · intro c hc
    refine ⟨init_inv hc, ?_⟩
    obtain ⟨dummy, threadPool, garbage, rfl⟩ := hc
    exact ⟨fun s hs => absurd rfl hs, fun s hs => nomatch hs⟩
  · intro c a hc d hd
    obtain ⟨⟨v, hv⟩, hb⟩ := hc
    exact ⟨(next_ok hv a).of_next hd, next_barrier hv hb a d hd⟩

theorem run_threadPool {c : Config ω σ τ} (h : c.strand.threadPool = false) (as : List (Act ω σ τ)) :
    (Runs.run next c as).Yields fun d => d.strand.threadPool = false ∧ d.pool ≤ c.pool :=
  Runs.yields_run (I := fun c : Config ω σ τ => c.strand.threadPool = false)
    (R := fun c d : Config ω σ τ => d.pool ≤ c.pool) (fun _ => Nat.le_refl _) (fun h h' => Nat.le_trans h' h)
    (fun _ a h => next_threadPool h a) h

theorem run_stopped {c : Config ω σ τ} (h : Stopped c) (as : List (Act ω σ τ)) :
    (Runs.run next c as).Yields fun d => Stopped d ∧ d.started = c.started :=
  Runs.yields_run (R := fun c d : Config ω σ τ => d.started = c.started) (fun _ => rfl) (fun h h' => h'.trans h)
    (fun _ a h => next_stopped h a) h

/-- **Stopping is a barrier.** Once the pool pointer is taken the slice task is
never handed to the pool again. When `stopAndJoin` has returned, the slice task
is parked, there is no pool and no worker runs a job; that stays so in whatever
happens later, no job is started any more, and those that were not started are
in the queue. -/
theorem stop_is_barrier {c : Config ω σ τ} (h : Runs.Reachable next Init c) :
    (c.strand.threadPool = false → ∀ as d, Runs.run next c as = .next d →
      d.strand.threadPool = false ∧ d.pool ≤ c.pool) ∧
    ∀ s, c.stopper s = .returned → Stopped c ∧ ∀ as d, Runs.run next c as = .next d →
      Stopped d ∧ d.started = c.started ∧ Queued d := by
  refine ⟨fun ht as d hd => run_threadPool ht as d hd, fun s hs => ?_⟩
  have hstopped := (reachable_barrier h).2.returned s hs
  refine ⟨hstopped, fun as d hd => ?_⟩
  obtain ⟨hsd, hstarted⟩ := run_stopped hstopped as d hd
  obtain ⟨v, hv⟩ := reachable_inv (h.run hd)
  exact ⟨hsd, hstarted, hv.queued hsd⟩

/-- The strand is stopped while a worker is in its first job. -/
def stoppedInJob : List (Act Bool Unit Nat) :=
  [.createTask 1 10, .createTask 2 20, .submit 1, .submit 2, .take false, .retrieve false, .execute false,
   .stopAndJoin (), .executed false, .resubmit false, .joined ()]

theorem stop_is_barrier_inJob : ∃ c : Config Bool Unit Nat,
    Runs.run next (new 0 true fun _ => ⟨none, none⟩) stoppedInJob = .next c ∧ Stopped c := by
  obtain ⟨c, hc, hs⟩ : ∃ c : Config Bool Unit Nat,
    Runs.run next (new 0 true fun _ => ⟨none, none⟩) stoppedInJob = .next c ∧ c.stopper () = .returned :=
    ⟨_, rfl, rfl⟩
  exact ⟨c, hc, ((stop_is_barrier (.run (.init ⟨0, true, _, rfl⟩) hc)).2 () hs).1⟩

end

end Strand
