/-
Strands on a pool come to an end with their jobs, and with a stop.

As long as the pool is not stopped, some worker can go on until there is
nothing left to do (`progress`): a job, a pop or a look brings down the `work`
there is, although a strand puts its slice task back into the queue after each
job. A stop of the pool is different: a slice task that then is in the queue
stays there (`Left`), and who waits for it in `stopAndJoin` waits for ever.
-/
import CxxHeaders.StrandsOnPoolToken
import CxxHeaders.StrandSleepers
import Mathlib.Algebra.BigOperators.Group.Finset.Basic
import Mathlib.Algebra.Order.BigOperators.Group.Finset

open Outcome LinkedQueue

namespace StrandsOnPool

variable {ι ω σ τ : Type}

/-- An action of a worker of the pool. -/
def Act.ofWorker : Act ι ω σ τ → Bool
  | .strand _ a => a.ofWorker
  | .pool a => (ThreadPool.actor a).isSome

/-- Whoever works does not submit or stop anything. -/
structure Kept (c d : Config ι ω σ τ) : Prop where
  strand : ∀ i, Strand.Kept (c.strand i) (d.strand i)
  stop : d.pool.pool.stop = c.pool.pool.stop

variable {c d : Config ι ω σ τ} {waiting : List (Job ι τ)} {v : ι → Strand.View ω τ}

theorem Kept.refl (c : Config ι ω σ τ) : Kept c c := ⟨fun _ => ⟨rfl, rfl, rfl⟩, rfl⟩

theorem Kept.trans {e : Config ι ω σ τ} (h : Kept c d) (h' : Kept d e) : Kept c e :=
  ⟨fun i => (h.strand i).trans (h'.strand i), h'.stop.trans h.stop⟩

/-! ## The work there is -/

variable [DecidableEq ι] [DecidableEq ω] [DecidableEq σ]

/-- If one summand goes down by more than what is added, the whole goes down. -/
theorem sum_add_lt {κ : Type} [Fintype κ] [DecidableEq κ] {f g : κ → Nat} {k : κ} (hsame : ∀ j, j ≠ k → g j = f j)
    {a b : Nat} (hlt : g k + b < f k + a) : ∑ j, g j + b < ∑ j, f j + a := by
  have hg := Finset.add_sum_erase _ g (Finset.mem_univ k)
  have hf := Finset.add_sum_erase _ f (Finset.mem_univ k)
  have hrest : ∑ j ∈ Finset.univ.erase k, g j = ∑ j ∈ Finset.univ.erase k, f j :=
    Finset.sum_congr rfl fun j hj => hsame j (Finset.ne_of_mem_erase hj)
  omega

/-- How far everybody is from having nothing to do. -/
def work [Fintype ι] [Fintype ω] (c : Config ι ω σ τ) (v : ι → Strand.View ω τ) (waiting : List (Job ι τ)) : Nat :=
  7 * ∑ i, Strand.distance (c.strand i) (v i).place + (6 * waiting.length + ∑ w, (c.pool.worker w).phase)

/-- The invariant, with what every strand stands for. -/
structure Views (c : Config ι ω σ τ) (v : ι → Strand.View ω τ) (waiting : List (Job ι τ)) : Prop where
  inv : Inv c waiting
  view : ∀ i, Strand.Inv (c.strand i) (v i)

/-- The worker has a task. -/
def Busy (c : Config ι ω σ τ) (w : ω) : Prop :=
  (∃ task, c.pool.worker w = .popped task) ∨ ∃ job, c.pool.worker w = .executing job

/-- The pool has nothing left to do. -/
def Done (c : Config ι ω σ τ) (waiting : List (Job ι τ)) : Prop := waiting = [] ∧ ∀ w, ¬Busy c w

/-- What a worker can do, and what that brings. -/
def Progress [Fintype ι] [Fintype ω] (c : Config ι ω σ τ) (v : ι → Strand.View ω τ) (waiting : List (Job ι τ)) :
    Prop :=
  ∃ a d v' waiting', next c a = .next d ∧ a.ofWorker ∧ Kept c d ∧ Views d v' waiting' ∧
    work d v' waiting' < work c v waiting

variable [Fintype ι] [Fintype ω]

omit [DecidableEq ω] [DecidableEq σ] [Fintype ω] in
/-- A step of one strand. -/
theorem strand_work {i : ι} {s : Strand.Config ω σ τ} {u : Strand.View ω τ}
    (hd : d.strand = Function.update c.strand i s)
    (hlt : Strand.distance s u.place < Strand.distance (c.strand i) (v i).place) {a b : Nat} (hab : b ≤ a + 6) :
    7 * ∑ j, Strand.distance (d.strand j) (Function.update v i u j).place + b <
      7 * ∑ j, Strand.distance (c.strand j) (v j).place + a := by
  have hsum := sum_add_lt (f := fun j => Strand.distance (c.strand j) (v j).place)
    (g := fun j => Strand.distance (d.strand j) (Function.update v i u j).place) (k := i)
    (fun j hj => by simp [hd, hj]) (a := 0) (b := 0) (by simpa [hd] using hlt)
  omega

omit [DecidableEq ι] [DecidableEq σ] [Fintype ι] in
/-- A step of one worker of the pool. -/
theorem phase_work {w : ω} (hothers : ∀ u, u ≠ w → d.pool.worker u = c.pool.worker u) {a b : Nat}
    (hlt : (d.pool.worker w).phase + b < (c.pool.worker w).phase + a) :
    ∑ u, (d.pool.worker u).phase + b < ∑ u, (c.pool.worker u).phase + a :=
  sum_add_lt (fun u hu => by rw [hothers u hu]) hlt

omit [DecidableEq σ] [Fintype ι] [Fintype ω] in
/-- The view after a step of one strand. -/
theorem Views.update {i : ι} {s : Strand.Config ω σ τ} {u : Strand.View ω τ} (h : Views c v waiting)
    {waiting' : List (Job ι τ)} (hd : Inv d waiting') (hs : d.strand = Function.update c.strand i s)
    (hu : Strand.Inv s u) : Views d (Function.update v i u) waiting' := by
  refine ⟨hd, fun j => ?_⟩
  by_cases hj : j = i
  · subst hj
    simpa [hs] using hu
  · simpa [hs, hj] using h.view j

omit [DecidableEq ω] [DecidableEq σ] [Fintype ι] [Fintype ω] in
theorem Kept.update {i : ι} {s : Strand.Config ω σ τ} (hs : d.strand = Function.update c.strand i s)
    (hkept : Strand.Kept (c.strand i) s) (hstop : d.pool.pool.stop = c.pool.pool.stop) : Kept c d := by
  refine ⟨fun j => ?_, hstop⟩
  by_cases hj : j = i
  · subst hj
    simpa [hs] using hkept
  · rw [hs, Function.update_of_ne hj]
    exact ⟨rfl, rfl, rfl⟩

theorem execute_progress (h : Views c v waiting) {w : ω} {task : Nat} (hw : c.pool.worker w = .popped task) :
    Progress c v waiting := by
  obtain ⟨d, hd, hinv, ⟨job, he, hentered⟩, hstop⟩ := (execute_returns h.inv hw).exists
  have hothers : ∀ u, u ≠ w → d.pool.worker u = c.pool.worker u := fun u hu => by
    rw [he.worker, Function.update_of_ne hu]
  have hphase : ∑ u, (d.pool.worker u).phase + 0 < ∑ u, (c.pool.worker u).phase + 0 :=
    phase_work hothers (by simp [he.worker, hw, ThreadPool.Worker.phase])
  cases job with
  | other job =>
    have hs : d.strand = c.strand := hentered
    refine ⟨.pool (.execute w), d, v, waiting, hd, rfl, ⟨fun i => ?_, hstop⟩, ⟨hinv, hs ▸ h.view⟩, ?_⟩
    · rw [hs]
      exact ⟨rfl, rfl, rfl⟩
    · simp only [work, hs]
      omega
  | slice i =>
    obtain ⟨s, hs, hstrand⟩ := hentered
    have hqueued : (v i).place = .queued := (h.view i).token.queued <| by
      by_contra hzero
      simp [Strand.next, Nat.eq_zero_of_not_pos hzero, requiring] at hs
      split at hs <;> simp_all
    obtain ⟨s', u, hs', hu, hkept, hlt⟩ := Strand.advance (h.view i) (by rw [hqueued]; simp) w
    rw [hqueued] at hs'
    have hss : s' = s := Outcome.next.inj (hs'.symm.trans hs)
    subst hss
    refine ⟨.pool (.execute w), d, Function.update v i u, waiting, hd, rfl, .update hstrand hkept hstop,
      h.update hinv hstrand hu, ?_⟩
    exact strand_work hstrand hlt (by omega)

theorem executed_progress (h : Views c v waiting) {w : ω} {job : Job ι τ}
    (hw : c.pool.worker w = .executing job) (hidle : ∀ i, (c.strand i).worker w = .idle) :
    Progress c v waiting := by
  obtain ⟨d, hd, hs, hworker, hstop, hfifo⟩ : ∃ d, next c (.pool (.executed w)) = .next d ∧
      d.strand = c.strand ∧ d.pool.worker = Function.update c.pool.worker w .idle ∧
      d.pool.pool.stop = c.pool.pool.stop ∧
      d.pool.submitted = c.pool.submitted ∧ d.pool.popped = c.pool.popped := by
    refine ⟨{ c with pool := { c.pool with worker := Function.update c.pool.worker w .idle } }, ?_, rfl, rfl,
      rfl, rfl, rfl⟩
    have hpool := ThreadPool.executed_eq hw
    simp only [next, executed, hw]
    cases job with
    | slice i => simp [hidle i, inPool, hpool]
    | other job => simp [inPool, hpool]
  obtain ⟨waiting', hinv⟩ := (executed_ok h.inv w).of_next hd
  have hsame : waiting' = waiting := by
    obtain ⟨nodes, hp⟩ := h.inv.pool
    obtain ⟨nodes', hp'⟩ := hinv.pool
    have hq := hp'.fifo
    rw [hfifo.1, hfifo.2, hp.fifo] at hq
    exact (List.append_cancel_left hq).symm
  subst hsame
  have hphase : ∑ u, (d.pool.worker u).phase + 0 < ∑ u, (c.pool.worker u).phase + 0 :=
    phase_work (fun u hu => by rw [hworker, Function.update_of_ne hu])
      (by simp [hworker, hw, ThreadPool.Worker.phase])
  refine ⟨_, d, v, waiting', hd, rfl, ⟨fun i => ?_, hstop⟩, ⟨hinv, hs ▸ h.view⟩, ?_⟩
  · rw [hs]
    exact ⟨rfl, rfl, rfl⟩
  · simp only [work, hs]
    omega

omit [Fintype ι] [Fintype ω] in
/-- All steps of a strand but one are taken as they are. -/
theorem next_strand {i : ι} {a : Strand.Act ω σ τ} (ha : ∀ w, a ≠ .take w) :
    next c (.strand i a) = inStrand c i a := by
  cases a with
  | take w => exact absurd rfl (ha w)
  | _ => rfl

omit [DecidableEq ι] [DecidableEq ω] [DecidableEq σ] [Fintype ι] [Fintype ω] in
/-- Who has the slice task does not take it. -/
theorem nextAct_ne_take (u w : ω) (x : Strand.Worker τ) (v : ω) :
    (Strand.nextAct u (.held w x) : Strand.Act ω σ τ) ≠ .take v := by
  cases x <;> simp [Strand.nextAct]

theorem run_progress (h : Views c v waiting) {i : ι} {w : ω} (hw : (c.strand i).worker w ≠ .idle) :
    Progress c v waiting := by
  have hplace := (h.view i).token.held rfl hw
  obtain ⟨s, u, hs, hu, hkept, hlt⟩ := Strand.advance (h.view i) (by rw [hplace]; simp) w
  rw [hplace] at hs
  have ha := nextAct_ne_take (σ := σ) w w ((c.strand i).worker w)
  obtain ⟨d, hd, ⟨waiting', hinv, hlen⟩, hstrand, hworker, hstop⟩ := (inStrand_returns h.inv ha hs).exists
  refine ⟨.strand i (Strand.nextAct w (.held w ((c.strand i).worker w))), d, Function.update v i u, waiting',
    (next_strand ha).trans hd, Strand.nextAct_ofWorker _ _, .update hstrand hkept hstop,
    h.update hinv hstrand hu, ?_⟩
  refine strand_work hstrand hlt ?_
  rw [hworker]
  omega

/-- A worker that is not busy goes on to the next task. -/
theorem look_progress (h : Views c v waiting) (hstop : c.pool.pool.stop = false) {w : ω}
    (hw : ¬Busy c w) (hm : c.pool.headMutex = none ∨ c.pool.headMutex = some w) (hwaiting : waiting ≠ []) :
    Progress c v waiting := by
  obtain ⟨nodes, hp⟩ := h.inv.pool
  obtain ⟨p, hnext, hserves, -, nodes', waiting', hp', hlt⟩ :=
    (ThreadPool.serve hp ⟨hstop, hm⟩ fun hs => hwaiting hs.1).exists
  have hin : next c (.pool (ThreadPool.nextAct c.pool w)) = inPool c (ThreadPool.nextAct c.pool w) := by
    unfold ThreadPool.nextAct
    cases hworker : c.pool.worker w with
    | popped task => exact absurd (.inl ⟨task, hworker⟩) hw
    | executing job => exact absurd (.inr ⟨job, hworker⟩) hw
    | _ => rfl
  have hd : next c (.pool (ThreadPool.nextAct c.pool w)) = .next { c with pool := p } := by
    rw [hin]
    simp [inPool, hnext]
  obtain ⟨waiting'', hinv⟩ := (next_ok h.inv _).of_next hd
  have hsame : waiting'' = waiting' := by
    obtain ⟨nodes'', hp''⟩ := hinv.pool
    exact List.append_cancel_left (hp''.fifo.symm.trans hp'.fifo)
  subst hsame
  have hothers := (ThreadPool.next_others (ThreadPool.nextAct c.pool w) p hnext).1
  have hphase := phase_work (c := c) (d := { c with pool := p }) (w := w)
    (fun u hu => hothers u fun he => hu (Option.some.inj (ThreadPool.actor_nextAct.symm.trans he)).symm)
    (a := 6 * waiting.length) (b := 6 * waiting''.length) (by simp only; omega)
  refine ⟨_, _, v, waiting'', hd, ?_, ⟨fun i => ⟨rfl, rfl, rfl⟩, hserves.stop.trans hstop.symm⟩,
    ⟨hinv, h.view⟩, ?_⟩
  · simp [Act.ofWorker, ThreadPool.actor_nextAct]
  · simp only [work] at hphase ⊢
    omega

/-- **Somebody can go on** until the pool has nothing left to do. -/
theorem progress (h : Views c v waiting) (hstop : c.pool.pool.stop = false) (w : ω) (hn : ¬Done c waiting) :
    Progress c v waiting := by
  by_cases hbusy : ∃ w, Busy c w
  · obtain ⟨w, ⟨task, hw⟩ | ⟨job, hw⟩⟩ := hbusy
    · exact execute_progress h hw
    · by_cases hidle : ∀ i, (c.strand i).worker w = .idle
      · exact executed_progress h hw hidle
      · obtain ⟨i, hi⟩ := not_forall.mp hidle
        exact run_progress h hi
  · have hfree := not_exists.mp hbusy
    have hwaiting : waiting ≠ [] := fun he => hn ⟨he, hfree⟩
    cases hm : c.pool.headMutex with
    | none => exact look_progress h hstop (hfree w) (.inl hm) hwaiting
    | some u => exact look_progress h hstop (hfree u) (.inr hm) hwaiting

/-- By induction on the work there is. -/
theorem exists_run_done (n : Nat) (h : Views c v waiting) (hstop : c.pool.pool.stop = false) (w : ω)
    (hn : work c v waiting < n) : ∃ as d v', Runs.run next c as = .next d ∧ (∀ a ∈ as, a.ofWorker) ∧
      Kept c d ∧ Views d v' [] ∧ ∀ u, ¬Busy d u := by
  induction n generalizing c v waiting with
  | zero => cases hn
  | succ n ih =>
    by_cases hdone : Done c waiting
    · obtain ⟨rfl, hfree⟩ := hdone
      exact ⟨[], c, v, rfl, by simp, .refl c, h, hfree⟩
    · obtain ⟨a, m, u, waiting', hm, ha, hkept, hu, hlt⟩ := progress h hstop w hdone
      obtain ⟨as, d, v', hrun, has, hkept', hv', hfree⟩ := ih hu (hkept.stop.trans hstop) (by omega)
      refine ⟨a :: as, d, v', ?_, fun b hb => ?_, hkept.trans hkept', hv', hfree⟩
      · rw [Runs.run, hm, next_bind, hrun]
      · rcases List.mem_cons.mp hb with rfl | hb
        · exact ha
        · exact has b hb

omit [DecidableEq σ] [Fintype ι] [Fintype ω] in
/-- Where the pool has nothing left to do, the slice tasks are parked. -/
theorem Views.parked (h : Views c v []) (hfree : ∀ w, ¬Busy c w) (i : ι) : (v i).place = .parked := by
  have hf := h.inv.fits i
  obtain ⟨p, hp⟩ := hf.token
  cases hplace : (v i).place with
  | parked => rfl
  | queued =>
    have hone := (h.view i).token.pool
    rw [hplace, hp.pool] at hone
    cases p with
    | out => cases hone
    | queued =>
      have hq := hp.queued
      cases hq
    | popped w =>
      have hhand := (hp.hand w).mpr rfl
      rw [ThreadPool.hand_of_not_popped fun task ht => hfree w (.inl ⟨task, ht⟩)] at hhand
      cases hhand
  | held w x =>
    have hat := (h.view i).token
    rw [hplace] at hat
    have hx : (c.strand i).worker w ≠ .idle := by
      rw [hat.worker]
      simpa [Strand.Place.worker] using hat.busy rfl
    exact absurd (.inr ⟨_, hf.running w hx⟩) (hfree w)

omit [DecidableEq σ] [Fintype ι] [Fintype ω] in
theorem exists_views (h : Inv c waiting) : ∃ v, Views c v waiting := by
  choose v hv using fun i => (h.fits i).strand
  exact ⟨v, h, hv⟩

/-- **Strands on a pool do what was submitted.** In every state that any threads
reach, as long as the pool is not stopped, its workers alone, by finitely many
steps and without a further submit from elsewhere, execute every task of the
pool and every job of every strand that is not stopped; then each slice task,
also of the strands that are stopped, is back with its strand, and every worker
is free. -/
theorem everything_executed (h : Runs.Reachable next Init c) (hstop : c.pool.pool.stop = false) (w : ω) :
    ∃ as d, (∀ a ∈ as, a.ofWorker) ∧ Runs.run next c as = .next d ∧ d.pool.popped = d.pool.submitted ∧
      (∀ u, ¬Busy d u) ∧ ∀ i, (d.strand i).submitted = (c.strand i).submitted ∧
        (d.strand i).strand.sliceTask = true ∧ (∀ u, (d.strand i).worker u = .idle) ∧
        ((c.strand i).strand.threadPool = true → (d.strand i).started = (c.strand i).submitted) := by
  obtain ⟨waiting, hv⟩ := reachable_inv h
  obtain ⟨v, hv⟩ := exists_views hv
  obtain ⟨as, d, v', hrun, has, hkept, hd, hfree⟩ := exists_run_done _ hv hstop w (Nat.lt_succ_self _)
  obtain ⟨nodes, hp⟩ := hd.inv.pool
  have hfifo := hp.fifo
  rw [List.append_nil] at hfifo
  refine ⟨as, d, has, hrun, hfifo.symm, hfree, fun i => ?_⟩
  have hparked := hd.parked hfree i
  have hview := hd.view i
  have hat := hview.token
  have hhand := hview.hand
  rw [hparked] at hat hhand
  have hhand : (v' i).hand = [] := hhand
  have hsub := (hkept.strand i).submitted
  refine ⟨hsub, hat.sliceTask, fun u => congrFun hat.worker u, fun ht => ?_⟩
  have hempty := hview.awake ((hkept.strand i).threadPool.trans ht) hparked
  rw [← hsub, hview.fifo, hhand, hempty, List.append_nil, List.append_nil]

/-- Two jobs of a strand, and another task of the pool. -/
theorem everything_executed_twoJobs : ∃ c d : Config Unit Bool Unit Nat, ∃ as,
    Runs.run next oneStrand [.strand () (.createTask 1 10), .strand () (.createTask 2 20), .strand () (.submit 1),
      .pool (.createTask 2 (.other 30)), .pool (.submit 2), .strand () (.submit 2)] = .next c ∧
    Runs.run next c as = .next d ∧ (d.strand ()).started = [10, 20] ∧ d.pool.popped = d.pool.submitted := by
  obtain ⟨c, hc, hstop, ht, hsub⟩ : ∃ c, Runs.run next oneStrand [.strand () (.createTask 1 10),
      .strand () (.createTask 2 20), .strand () (.submit 1), .pool (.createTask 2 (.other 30)),
      .pool (.submit 2), .strand () (.submit 2)] = .next c ∧ c.pool.pool.stop = false ∧
      (c.strand ()).strand.threadPool = true ∧ (c.strand ()).submitted = [10, 20] := ⟨_, rfl, rfl, rfl, rfl⟩
  obtain ⟨as, d, -, hrun, hpopped, -, hstrand⟩ :=
    everything_executed (.run (.init oneStrand_init) hc) hstop true
  exact ⟨c, d, as, hc, hrun, ((hstrand ()).2.2.2 ht).trans hsub, hpopped⟩

end StrandsOnPool
