/-
A strand is stopped, on a pool that may be stopped too.

`stopAndJoin` waits for the slice task. If a worker has it, or gets it, it
comes back. But a stop of the pool leaves in the queue what no worker has found
yet, and a slice task that is `Left` there is never executed: strands have to
be stopped before their pool is.
-/
import CxxHeaders.StrandsOnPoolProgress
import CxxHeaders.StrandStop

open Outcome LinkedQueue

namespace ThreadPool

variable {ω τ : Type} [DecidableEq ω]

/-- The pool is stopped, and nobody will pop `job`, which is in the queue. -/
def Left (c : Config ω τ) (job : τ) : Prop :=
  c.pool.stop = true ∧ ∃ waiting, c.submitted = c.popped ++ waiting ∧ job ∈ waiting ∧
    ∀ w, c.worker w = .found → waiting.head? ≠ some job

variable {c d : Config ω τ} {nodes : List Nat} {waiting : List τ}

/-- That is so for ever. -/
theorem Left.next {job : τ} (h : Left c job) (hi : Inv c nodes waiting) (a : Act ω τ) :
    (next c a).Yields (Left · job) := by
  intro d hd
  obtain ⟨hstop, waiting', hfifo, hmem, hfound⟩ := h
  have hafter := next_after hi hstop a d hd
  obtain ⟨nodes', later, hi'⟩ := (next_ok hi a).of_next hd
  have hsub := hafter.submitted
  rw [hfifo, hi'.fifo] at hsub
  refine ⟨hafter.stop, later, hi'.fifo, ?_⟩
  rcases hafter.popped with ⟨hp, hf⟩ | ⟨w, oldest, hw, hp, hf⟩
  · rw [hp, List.prefix_append_right_inj] at hsub
    refine ⟨hsub.subset hmem, fun u hu he => hfound u (hf u hu) ?_⟩
    obtain ⟨rest, rfl⟩ := hsub
    rwa [List.head?_append_of_ne_nil _ (List.ne_nil_of_mem hmem)] at he
  · -- A task was popped that is not this one.
    rw [hp, List.append_assoc, List.prefix_append_right_inj] at hsub
    refine ⟨?_, fun u hu => absurd hu (hf u)⟩
    cases waiting' with
    | nil => cases hmem
    | cons first rest =>
      obtain ⟨rfl, hrest⟩ := List.cons_prefix_cons.mp hsub
      have hne := hfound w hw
      rcases List.mem_cons.mp hmem with rfl | hmem
      · exact absurd rfl hne
      · exact hrest.subset hmem

end ThreadPool

namespace StrandsOnPool

variable {ι ω σ τ : Type} [DecidableEq ι] [DecidableEq ω] [DecidableEq σ]

/-- The slice task of the strand stays in the queue of a stopped pool. -/
def Left (c : Config ι ω σ τ) (i : ι) : Prop := ThreadPool.Left c.pool (.slice i)

variable {c d : Config ι ω σ τ} {i : ι} {waiting : List (Job ι τ)}

/-! ## For ever -/

omit [DecidableEq σ] in
/-- The slice task is in the pool. -/
theorem Left.queued (h : Left c i) (hi : Inv c waiting) {v : Strand.View ω τ} (hv : Strand.Inv (c.strand i) v) :
    v.place = .queued := by
  obtain ⟨-, waiting', hfifo, hmem, -⟩ := h
  obtain ⟨nodes, hp⟩ := hi.pool
  have hw : waiting' = waiting := List.append_cancel_left (hfifo.symm.trans hp.fifo)
  subst hw
  obtain ⟨p, hq⟩ := (hi.fits i).token
  have hcount : 0 < waiting'.countP (Job.isSliceOf i) := List.countP_pos_iff.mpr ⟨_, hmem, isSliceOf_iff.mpr rfl⟩
  rw [hq.queued] at hcount
  refine hv.token.queued ?_
  rw [hq.pool]
  cases p with
  | queued => exact Nat.one_pos
  | _ => cases hcount

/-- A strand whose slice task is left does nothing, and nobody leaves `stopAndJoin`. -/
structure Stuck (i : ι) (c d : Config ι ω σ τ) : Prop where
  started : (d.strand i).started = (c.strand i).started
  stopper : ∀ s, (c.strand i).stopper s = .waiting → (d.strand i).stopper s = .waiting

omit [DecidableEq ι] [DecidableEq ω] [DecidableEq σ] in
theorem Stuck.trans {e : Config ι ω σ τ} (h : Stuck i c d) (h' : Stuck i d e) : Stuck i c e :=
  ⟨h'.started.trans h.started, fun s hs => h'.stopper s (h.stopper s hs)⟩

omit [DecidableEq ι] in
/-- A strand starts no job without a worker. -/
theorem strand_next_started {c : Strand.Config ω σ τ} (hw : ∀ w, c.worker w = .idle) (a : Strand.Act ω σ τ) :
    (Strand.next c a).Yields fun d => d.started = c.started := by
  cases a with
  | createTask task job | dropTask task =>
    simp only [Strand.next, yields_bind, yields_requiring]
    exact fun _ => yields_next.mpr rfl
  | submit task =>
    simp only [Strand.next, yields_bind, yields_requiring]
    exact fun _ _ _ => yields_next.mpr rfl
  | take w =>
    simp only [Strand.next, hw w, yields_bind, yields_requiring]
    exact fun _ => yields_next.mpr rfl
  | retrieve w | execute w | executed w | resubmit w | stopInJob w =>
    simp only [Strand.next, hw w]
    exact yields_blocked
  | stopAndJoin s =>
    simp only [Strand.next]
    split
    · exact yields_next.mpr rfl
    · exact yields_blocked
  | joined s =>
    simp only [Strand.next]
    split
    · simp only [yields_bind, yields_requiring]
      exact fun _ => yields_next.mpr rfl
    · exact yields_blocked

theorem next_left (h : Inv c waiting) (hl : Left c i) (a : Act ι ω σ τ) :
    (next c a).Yields fun d => Left d i ∧ Stuck i c d := by
  intro d hd
  obtain ⟨nodes, hp⟩ := h.pool
  obtain ⟨waiting', hv⟩ := (next_ok h a).of_next hd
  have hparts := next_parts c a d hd
  have hleft : Left d i := by
    rcases hparts.pool with he | ⟨b, hb⟩
    · unfold Left
      rwa [he]
    · exact hl.next hp b _ hb
  refine ⟨hleft, ?_⟩
  rcases hparts.strand i with he | ⟨b, hb⟩
  · exact ⟨by rw [he], fun s hs => by rw [he, hs]⟩
  · obtain ⟨v, hs⟩ := (h.fits i).strand
    obtain ⟨u, hu⟩ := (hv.fits i).strand
    have hat := hs.token
    rw [hl.queued h hs] at hat
    refine ⟨strand_next_started (fun w => congrFun hat.worker w) b _ hb, fun s hw => ?_⟩
    rcases Strand.next_stopper _ b _ hb s with he | ⟨he, -⟩ | ⟨-, hslice⟩
    · exact he.trans hw
    · exact he
    · rw [hu.token.sliceTask, hleft.queued hv hu] at hslice
      cases hslice

theorem run_left (h : Inv c waiting) (hl : Left c i) (as : List (Act ι ω σ τ)) :
    (Runs.run next c as).Yields (Stuck i c) := by
  have hrun : (Runs.run next c as).Yields fun d => ((∃ waiting, Inv d waiting) ∧ Left d i) ∧ Stuck i c d := by
    refine Runs.yields_run (I := fun d => (∃ waiting, Inv d waiting) ∧ Left d i) (R := Stuck i)
      (fun d => ⟨rfl, fun _ hs => hs⟩) (fun h h' => h.trans h') (fun d a hd e he => ?_) ⟨⟨waiting, h⟩, hl⟩
    obtain ⟨⟨later, hv⟩, hl⟩ := hd
    obtain ⟨hle, hs⟩ := next_left hv hl a e he
    exact ⟨⟨(next_ok hv a).of_next he, hle⟩, hs⟩
  exact hrun.mono fun d hd => hd.2

/-! ## With a worker -/

/-- A worker that is in `run` of a stopped strand goes on, and does not give the
slice task back to the pool. -/
theorem stopped_step {v : ι → Strand.View ω τ} (h : Views c v waiting)
    (ht : (c.strand i).strand.threadPool = false) {w : ω} {x : Strand.Worker τ} (hp : (v i).place = .held w x) :
    ∃ a d v' waiting', next c (.strand i a) = .next d ∧ a.ofWorker ∧ Views d v' waiting' ∧
      (d.strand i).strand.threadPool = false ∧ (d.strand i).stopper = (c.strand i).stopper ∧
      (v' i).place ≠ .queued ∧
      Strand.distance (d.strand i) (v' i).place < Strand.distance (c.strand i) (v i).place := by
  obtain ⟨s, u, hs, hu, hkept, hlt⟩ := Strand.advance (h.view i) (by rw [hp]; simp) w
  have hat := (h.view i).token
  rw [hp] at hat hs
  have ha := nextAct_ne_take (σ := σ) w w x
  obtain ⟨ht', hpool⟩ := Strand.next_threadPool ht _ _ hs
  obtain ⟨d, hd, ⟨waiting', hinv, -⟩, hstrand, -⟩ := (inStrand_returns h.inv ha hs).exists
  have hi : d.strand i = s := by rw [hstrand, Function.update_self]
  have hv : Function.update v i u i = u := Function.update_self ..
  refine ⟨_, d, Function.update v i u, waiting', (next_strand ha).trans hd, Strand.nextAct_ofWorker _ _,
    h.update hinv hstrand hu, by rw [hi, ht'], by rw [hi, hkept.stopper], ?_, by rw [hi, hv]; exact hlt⟩
  rw [hv]
  intro hq
  have hone := hu.token.pool
  rw [hq] at hone
  have hzero : (c.strand i).pool = 0 := hat.pool
  rw [hone, hzero] at hpool
  cases hpool

/-- By induction on how far the slice task is from being parked. -/
theorem exists_run_parked (n : Nat) {v : ι → Strand.View ω τ} (h : Views c v waiting)
    (ht : (c.strand i).strand.threadPool = false) (hq : (v i).place ≠ .queued)
    (hn : Strand.distance (c.strand i) (v i).place < n) :
    ∃ as d v' waiting', Runs.run next c as = .next d ∧ (∀ a ∈ as, a.ofWorker) ∧ Views d v' waiting' ∧
      (v' i).place = .parked ∧ (d.strand i).stopper = (c.strand i).stopper := by
  induction n generalizing c v waiting with
  | zero => cases hn
  | succ n ih =>
    cases hp : (v i).place with
    | parked => exact ⟨[], c, v, waiting, rfl, by simp, h, hp, rfl⟩
    | queued => exact absurd hp hq
    | held w x =>
      obtain ⟨a, m, u, waiting', hm, ha, hu, ht', hstopper, hq', hlt⟩ := stopped_step h ht hp
      obtain ⟨as, d, v', waiting'', hrun, has, hv', hparked, hstopper'⟩ := ih hu ht' hq' (by omega)
      refine ⟨.strand i a :: as, d, v', waiting'', ?_, fun b hb => ?_, hv', hparked, hstopper'.trans hstopper⟩
      · rw [Runs.run, hm, next_bind, hrun]
      · rcases List.mem_cons.mp hb with rfl | hb
        · exact ha
        · exact has b hb

/-- The slice task is out of the pool, and nothing else has happened to the strand. -/
structure Out (i : ι) (c d : Config ι ω σ τ) : Prop where
  inv : ∃ waiting, Inv d waiting
  pool : (d.strand i).pool = 0
  stopper : (d.strand i).stopper = (c.strand i).stopper
  threadPool : (d.strand i).strand.threadPool = (c.strand i).strand.threadPool

/-- A worker that has popped the slice task enters `run`. -/
theorem popped_out (h : Inv c waiting) {w : ω} (hw : c.pool.hand w = some (.slice i)) :
    ∃ d, next c (.pool (.execute w)) = .next d ∧ Out i c d := by
  cases hworker : c.pool.worker w with
  | popped task =>
    obtain ⟨d, hd, hinv, ⟨job, he, hentered⟩, -⟩ := (execute_returns h hworker).exists
    have hjob := he.inHand
    rw [hw] at hjob
    cases hjob
    obtain ⟨s, hs, hstrand⟩ := hentered
    rw [he.take (h.fits i)] at hs
    cases hs
    have hi := congrFun hstrand i
    rw [Function.update_self] at hi
    exact ⟨d, hd, ⟨waiting, hinv⟩, by rw [hi], by rw [hi], by rw [hi]⟩
  | _ => simp [ThreadPool.Config.hand, hworker] at hw

/-- Unless it is left in the queue, the slice task is with its strand or can get there. -/
theorem exists_run_out (h : Inv c waiting) (hstop : c.pool.pool.stop = true) (hl : ¬Left c i) :
    ∃ as d, Runs.run next c as = .next d ∧ (∀ a ∈ as, a.ofWorker) ∧ Out i c d := by
  obtain ⟨p, hp⟩ := (h.fits i).token
  cases p with
  | out => exact ⟨[], c, rfl, by simp, ⟨waiting, h⟩, hp.pool, rfl, rfl⟩
  | popped w =>
    obtain ⟨d, hd, hout⟩ := popped_out h ((hp.hand w).mpr rfl)
    exact ⟨[.pool (.execute w)], d, by rw [Runs.run, hd]; rfl, by simp [Act.ofWorker, ThreadPool.actor], hout⟩
  | queued =>
    have hpos : 0 < waiting.countP (Job.isSliceOf i) := by
      rw [hp.queued]
      exact Nat.one_pos
    obtain ⟨job, hmem, hjob⟩ := List.countP_pos_iff.mp hpos
    rw [isSliceOf_iff] at hjob
    subst hjob
    obtain ⟨nodes, hpool⟩ := h.pool
    obtain ⟨w, hfound, hhead⟩ : ∃ w, c.pool.worker w = .found ∧ waiting.head? = some (.slice i) := by
      by_contra hn
      exact hl ⟨hstop, waiting, hpool.fifo, hmem, fun w hw he => hn ⟨w, hw, he⟩⟩
    obtain ⟨q, -, -, -, -, hq, -⟩ := ThreadPool.detach_next hpool hfound
    have hm : next c (.pool (.detach w)) = .next { c with pool := q } := by
      simp [next, inPool, hq]
    obtain ⟨waiting', hpooled⟩ := (inPool_pooled h (.detach w)).of_next hm
    obtain ⟨later, hinv⟩ := (detach_ok h w).of_next hm
    obtain ⟨-, job, hx, hhand, -⟩ := hpooled.effect
    rw [hx, List.head?_cons] at hhead
    obtain ⟨d, hd, hout⟩ := popped_out hinv (i := i) (w := w) (by rw [hhand, Function.update_self, hhead])
    refine ⟨[.pool (.detach w), .pool (.execute w)], d, ?_, by simp [Act.ofWorker, ThreadPool.actor],
      hout.inv, hout.pool, hout.stopper, hout.threadPool⟩
    rw [Runs.run, hm, next_bind, Runs.run, hd]
    rfl

/-- The wait of a thread in `stopAndJoin` ends where the slice task is parked. -/
theorem joined_returns (h : Inv c waiting) {s : σ} (hs : (c.strand i).stopper s = .waiting)
    (hslice : (c.strand i).strand.sliceTask = true) :
    ∃ d, next c (.strand i (.joined s)) = .next d ∧ (d.strand i).stopper s = .returned := by
  have hnext : Strand.next (c.strand i) (.joined s) = .next { c.strand i with
      stopper := Function.update (c.strand i).stopper s .returned } := by
    simp [Strand.next, hs, requiring_true hslice]
  obtain ⟨d, hd, -, hstrand, -⟩ := (inStrand_returns h (by simp) hnext).exists
  refine ⟨d, hd, ?_⟩
  rw [hstrand, Function.update_self]
  exact Function.update_self ..

/-- **A stop of a strand comes back unless the pool was stopped before.** In
every state that any threads reach, a thread that waits in `stopAndJoin` of a
strand gets out of it by steps of the workers alone and its own last look;
unless the pool is stopped, the slice task is in its queue, and no worker had
found it there, in which case nothing that anybody does ever ends the wait or
starts another job of the strand. -/
theorem join_returns_unless_left [Fintype ι] [Fintype ω] (h : Runs.Reachable next Init c) (w : ω) {s : σ}
    (hs : (c.strand i).stopper s = .waiting) :
    (¬Left c i → ∃ as d, (∀ a ∈ as, a.ofWorker ∨ a = .strand i (.joined s)) ∧
      Runs.run next c as = .next d ∧ (d.strand i).stopper s = .returned) ∧
    (Left c i → ∀ as, (Runs.run next c as).Yields fun d => (d.strand i).stopper s = .waiting ∧
      (d.strand i).started = (c.strand i).started) := by
  obtain ⟨waiting, hv⟩ := reachable_inv h
  refine ⟨fun hl => ?_, fun hl as => (run_left hv hl as).mono fun d hd => ⟨hd.stopper s hs, hd.started⟩⟩
  obtain ⟨as, d, hrun, has, hsd, hslice⟩ : ∃ as d, Runs.run next c as = .next d ∧ (∀ a ∈ as, a.ofWorker) ∧
      (d.strand i).stopper s = .waiting ∧ (d.strand i).strand.sliceTask = true := by
    cases hstop : c.pool.pool.stop with
    | false =>
      obtain ⟨v, hviews⟩ := exists_views hv
      obtain ⟨as, d, v', hrun, has, hkept, hd, hfree⟩ := exists_run_done _ hviews hstop w (Nat.lt_succ_self _)
      refine ⟨as, d, hrun, has, by rw [(hkept.strand i).stopper, hs], ?_⟩
      rw [(hd.view i).token.sliceTask, hd.parked hfree i]
      rfl
    | true =>
      obtain ⟨as, m, hrun, has, hout⟩ := exists_run_out hv hstop hl
      obtain ⟨waiting', hm⟩ := hout.inv
      obtain ⟨v, hviews⟩ := exists_views hm
      have hbarrier := (Strand.reachable_barrier ((takes_slices h).1 i)).2
      have ht : (m.strand i).strand.threadPool = false := by
        rw [hout.threadPool, hbarrier.called s (by simp [hs])]
      have hq : (v i).place ≠ .queued := fun hq => by
        have hone := (hviews.view i).token.pool
        rw [hq, hout.pool] at hone
        cases hone
      obtain ⟨bs, d, v', later, hrun', hbs, hd, hparked, hstopper⟩ :=
        exists_run_parked _ hviews ht hq (Nat.lt_succ_self _)
      refine ⟨as ++ bs, d, ?_, fun a ha => ?_, by rw [hstopper, hout.stopper, hs], ?_⟩
      · rw [Runs.run_append, hrun, next_bind, hrun']
      · rcases List.mem_append.mp ha with ha | ha
        · exact has a ha
        · exact hbs a ha
      · rw [(hd.view i).token.sliceTask, hparked]
        rfl
  obtain ⟨waiting', hd⟩ := reachable_inv (h.run hrun)
  obtain ⟨e, he, hreturned⟩ := joined_returns hd hsd hslice
  refine ⟨as ++ [.strand i (.joined s)], e, fun a ha => ?_, ?_, hreturned⟩
  · rcases List.mem_append.mp ha with ha | ha
    · exact .inl (has a ha)
    · exact .inr (List.mem_singleton.mp ha)
  · rw [Runs.run_append, hrun, next_bind, Runs.run, he]
    rfl

/-- The pool is stopped while the slice task is in its queue, and then the strand. -/
theorem join_returns_unless_left_stopped : ∃ c : Config Unit Bool Unit Nat,
    Runs.run next oneStrand [.strand () (.createTask 1 10), .strand () (.submit 1), .pool .notifyStop,
      .strand () (.stopAndJoin ())] = .next c ∧
    ∀ as d, Runs.run next c as = .next d → (d.strand ()).stopper () = .waiting ∧ (d.strand ()).started = [] := by
  obtain ⟨c, hc, hs, hstarted, hstop, hfifo, hw⟩ : ∃ c, Runs.run next oneStrand [.strand () (.createTask 1 10),
      .strand () (.submit 1), .pool .notifyStop, .strand () (.stopAndJoin ())] = .next c ∧
      (c.strand ()).stopper () = .waiting ∧ (c.strand ()).started = [] ∧ c.pool.pool.stop = true ∧
      c.pool.submitted = c.pool.popped ++ [.slice ()] ∧ ∀ w, c.pool.worker w = .idle :=
    ⟨_, rfl, rfl, rfl, rfl, rfl, fun _ => rfl⟩
  have hleft : Left c () := ⟨hstop, _, hfifo, by simp, by simp [hw]⟩
  refine ⟨c, hc, fun as d hd => ?_⟩
  obtain ⟨hwaiting, hsame⟩ :=
    (join_returns_unless_left (.run (.init oneStrand_init) hc) true hs).2 hleft as d hd
  exact ⟨hwaiting, hsame.trans hstarted⟩

end StrandsOnPool
