/-
Each slice task is in one place: with its strand, in the queue of the pool,
or in the hand of a worker that has popped it.

So the strands and the pool fit together: a strand that hands its slice task
over has it, the pool accepts it, and the worker that executes it can enter
`run`. Seen alone, each strand and the pool run as they do by themselves.
-/
import CxxHeaders.StrandsOnPool
import CxxHeaders.ThreadPoolHands

open Outcome LinkedQueue

namespace StrandsOnPool

variable {ι ω σ τ : Type} [DecidableEq ι]

def Job.isSliceOf (i : ι) : Job ι τ → Bool
  | .slice j => i = j
  | .other _ => false

@[simp] theorem isSliceOf_iff {i : ι} {job : Job ι τ} : job.isSliceOf i = true ↔ job = .slice i := by
  cases job <;> simp [Job.isSliceOf, eq_comm]

/-- Where a slice task is, as the pool sees it. -/
inductive Place (ω : Type) where
  | out
  | queued
  | popped (w : ω)

namespace Place

def isOut : Place ω → Bool
  | .out => true
  | _ => false

def isQueued : Place ω → Bool
  | .queued => true
  | _ => false

end Place

variable [DecidableEq ω]

/-- The slice task of strand `i` is at `p`, and nowhere else. -/
structure At (c : Config ι ω σ τ) (i : ι) (waiting : List (Job ι τ)) (p : Place ω) : Prop where
  pool : (c.strand i).pool = (!p.isOut).toNat
  sliceTask : (c.sliceTask i).isSome = p.isOut
  queued : waiting.countP (Job.isSliceOf i) = p.isQueued.toNat
  hand : ∀ w, c.pool.hand w = some (.slice i) ↔ p = .popped w

/-- What concerns strand `i` fits together. -/
structure Fits (c : Config ι ω σ τ) (waiting : List (Job ι τ)) (i : ι) : Prop where
  strand : ∃ v, Strand.Inv (c.strand i) v
  held : ∀ a, c.pool.held a = some (.slice i) ↔ c.sliceTask i = some a
  token : ∃ p, At c i waiting p
  running : ∀ w, (c.strand i).worker w ≠ .idle → c.pool.worker w = .executing (.slice i)

structure Inv (c : Config ι ω σ τ) (waiting : List (Job ι τ)) : Prop where
  pool : ∃ nodes, ThreadPool.Inv c.pool nodes waiting
  fits : ∀ i, Fits c waiting i

/-- A step that does not concern strand `i`. -/
structure Same (c d : Config ι ω σ τ) (waiting waiting' : List (Job ι τ)) (i : ι) : Prop where
  strand : d.strand i = c.strand i
  sliceTask : d.sliceTask i = c.sliceTask i
  held : ∀ a, d.pool.held a = some (.slice i) ↔ c.pool.held a = some (.slice i)
  queued : waiting'.countP (Job.isSliceOf i) = waiting.countP (Job.isSliceOf i)
  hand : ∀ w, d.pool.hand w = some (.slice i) ↔ c.pool.hand w = some (.slice i)
  running : ∀ w, (c.strand i).worker w ≠ .idle → d.pool.worker w = .executing (.slice i)

variable {c d : Config ι ω σ τ} {waiting waiting' : List (Job ι τ)} {i : ι} {w : ω}

theorem Fits.same (h : Fits c waiting i) (hs : Same c d waiting waiting' i) : Fits d waiting' i := by
  refine ⟨hs.strand.symm ▸ h.strand, fun a => ?_, ?_, fun w hw => hs.running w (hs.strand ▸ hw)⟩
  · rw [hs.held, h.held, hs.sliceTask]
  · obtain ⟨p, hp⟩ := h.token
    exact ⟨p, by rw [hs.strand, hp.pool], by rw [hs.sliceTask, hp.sliceTask], by rw [hs.queued, hp.queued],
      fun w => (hs.hand w).trans (hp.hand w)⟩

theorem init_inv (h : Init c) : Inv c [] := by
  obtain ⟨nodes, waiting, hp⟩ := ThreadPool.reachable_inv h.pool
  have hempty : waiting = [] := by
    have hfifo := hp.fifo
    rw [h.submitted] at hfifo
    exact (List.append_eq_nil_iff.mp hfifo.symm).2
  subst hempty
  have hhand : ∀ w, c.pool.hand w = none := fun w => ThreadPool.hand_of_not_popped (by simp [h.worker w])
  refine ⟨⟨nodes, hp⟩, fun i => ?_⟩
  obtain ⟨dummy, threadPool, garbage, hs⟩ := h.strand i
  refine ⟨Strand.init_inv (h.strand i), fun a => ?_, ⟨.out, ?_, h.made i, rfl, fun w => by simp [hhand w]⟩,
    fun w hw => ?_⟩
  · rw [← h.sliceTask i a, ThreadPool.Config.held]
    split
    · next ho => simp [ho]
    · next ho => simp [ho]
  · rw [hs]
    rfl
  · rw [hs] at hw
    exact absurd rfl hw

/-! ## The pool alone -/

/-- What a step of the pool leaves behind. -/
structure Pooled (c d : Config ι ω σ τ) (waiting waiting' : List (Job ι τ)) (a : ThreadPool.Act ω (Job ι τ)) :
    Prop where
  strand : d.strand = c.strand
  sliceTask : d.sliceTask = c.sliceTask
  pool : ∃ nodes, ThreadPool.Inv d.pool nodes waiting'
  effect : ThreadPool.Effect c.pool d.pool waiting waiting' a
  running : ∀ i w, (c.strand i).worker w ≠ .idle → a ≠ .executed w →
    d.pool.worker w = .executing (.slice i)
  others : ∀ w, ThreadPool.actor a ≠ some w → d.pool.worker w = c.pool.worker w
  stop : a ≠ .notifyStop → d.pool.pool.stop = c.pool.pool.stop

theorem inPool_pooled (h : Inv c waiting) (a : ThreadPool.Act ω (Job ι τ)) :
    (inPool c a).Ok fun d => ∃ waiting', Pooled c d waiting waiting' a := by
  obtain ⟨nodes, hp⟩ := h.pool
  simp only [inPool, ok_bind]
  refine (ThreadPool.effect_ok hp a).mono fun p hnext => ?_
  obtain ⟨nodes', waiting', hinv, heffect, hothers, hexecuting, hstop⟩ := hnext
  exact ⟨waiting', rfl, rfl, ⟨nodes', hinv⟩, heffect,
    fun i w hw ha => hexecuting w _ ((h.fits i).running w hw) ha, hothers, hstop⟩

/-- No slice task changes its place. -/
theorem Pooled.inv {a : ThreadPool.Act ω (Job ι τ)} (h : Inv c waiting) (hd : Pooled c d waiting waiting' a)
    (hheld : ∀ i a, d.pool.held a = some (.slice i) ↔ c.pool.held a = some (.slice i))
    (hqueued : ∀ i, waiting'.countP (Job.isSliceOf i) = waiting.countP (Job.isSliceOf i))
    (hhand : ∀ i w, d.pool.hand w = some (.slice i) ↔ c.pool.hand w = some (.slice i))
    (ha : ∀ i w, (c.strand i).worker w ≠ .idle → a ≠ .executed w) : Inv d waiting' :=
  ⟨hd.pool, fun i => (h.fits i).same ⟨congrFun hd.strand i, congrFun hd.sliceTask i, hheld i, hqueued i,
    hhand i, fun w hw => hd.running i w hw (ha i w hw)⟩⟩

omit [DecidableEq ι] in
theorem held_isOther {task : Nat} (ho : isOther c task = true) (i : ι) :
    c.pool.held task ≠ some (.slice i) := by
  intro he
  have hv : (c.pool.pool.heap task).value = some (.slice i) := by
    rw [ThreadPool.Config.held] at he
    split at he
    · exact he
    · cases he
  simp [isOther, hv, Job.isSlice] at ho

omit [DecidableEq ι] in
/-- A wrapper without a slice task gets what is no slice task, or is given away. -/
theorem held_update_iff {held : Nat → Option (Job ι τ)} {task : Nat} {x : Option (Job ι τ)}
    (ht : ∀ i, held task ≠ some (.slice i)) (hx : ∀ i, x ≠ some (.slice i)) (i : ι) (a : Nat) :
    Function.update held task x a = some (.slice i) ↔ held a = some (.slice i) := by
  by_cases ha : a = task
  · rw [ha, Function.update_self]
    simp [ht i, hx i]
  · rw [Function.update_of_ne ha]

theorem createTask_ok (h : Inv c waiting) (task : Nat) (job : τ) :
    (inPool c (.createTask task (.other job))).Ok fun d => ∃ waiting', Inv d waiting' := by
  refine (inPool_pooled h _).mono fun d hd => ?_
  obtain ⟨waiting', hd⟩ := hd
  obtain ⟨hwaiting, hhand, hfree, hheld⟩ := hd.effect
  refine ⟨waiting', hd.inv h (fun i a => ?_) (by simp [hwaiting]) (by simp [hhand]) (by simp)⟩
  rw [hheld]
  exact held_update_iff (by simp [hfree]) (by simp) i a

theorem dropTask_ok (h : Inv c waiting) {task : Nat} (ho : isOther c task = true) :
    (inPool c (.dropTask task)).Ok fun d => ∃ waiting', Inv d waiting' := by
  refine (inPool_pooled h _).mono fun d hd => ?_
  obtain ⟨waiting', hd⟩ := hd
  obtain ⟨hwaiting, hhand, hheld⟩ := hd.effect
  refine ⟨waiting', hd.inv h (fun i a => ?_) (by simp [hwaiting]) (by simp [hhand]) (by simp)⟩
  rw [hheld]
  exact held_update_iff (held_isOther ho) (by simp) i a

theorem submit_ok (h : Inv c waiting) {task : Nat} (ho : isOther c task = true) :
    (inPool c (.submit task)).Ok fun d => ∃ waiting', Inv d waiting' := by
  refine (inPool_pooled h _).mono fun d hd => ?_
  obtain ⟨waiting', hd⟩ := hd
  obtain ⟨job, hjob, hwaiting, hhand, hheld⟩ := hd.effect
  have hother : ∀ i, job ≠ .slice i := fun i he => held_isOther ho i (by rw [hjob, he])
  refine ⟨waiting', hd.inv h (fun i a => ?_) (fun i => ?_) (by simp [hhand]) (by simp)⟩
  · rw [hheld]
    exact held_update_iff (held_isOther ho) (by simp) i a
  · simp [hwaiting, hother i]

/-- Steps of the pool that only look. -/
theorem look_ok (h : Inv c waiting) {a : ThreadPool.Act ω (Job ι τ)}
    (ha : ∀ d waiting', ThreadPool.Effect c.pool d waiting waiting' a →
      waiting' = waiting ∧ d.hand = c.pool.hand ∧ d.held = c.pool.held)
    (hw : ∀ i w, (c.strand i).worker w ≠ .idle → a ≠ .executed w) :
    (inPool c a).Ok fun d => ∃ waiting', Inv d waiting' := by
  refine (inPool_pooled h _).mono fun d hd => ?_
  obtain ⟨waiting', hd⟩ := hd
  obtain ⟨hwaiting, hhand, hheld⟩ := ha _ _ hd.effect
  exact ⟨waiting', hd.inv h (by simp [hheld]) (by simp [hwaiting]) (by simp [hhand]) hw⟩

/-- The oldest task goes from the queue to a worker. -/
theorem detach_ok (h : Inv c waiting) (w : ω) :
    (inPool c (.detach w)).Ok fun d => ∃ waiting', Inv d waiting' := by
  refine (inPool_pooled h _).mono fun d hd => ?_
  obtain ⟨waiting', hd⟩ := hd
  obtain ⟨hfound, job, hwaiting, hhand, hheld⟩ := hd.effect
  have hfree : c.pool.hand w = none := ThreadPool.hand_of_not_popped (by simp [hfound])
  refine ⟨waiting', hd.pool, fun i => ?_⟩
  have hf := h.fits i
  have hrunning := fun u hu => hd.running i u hu (by simp)
  have hq : ∀ p, At c i waiting p → waiting'.countP (Job.isSliceOf i) +
      (if job.isSliceOf i then 1 else 0) = p.isQueued.toNat := fun p hp => by
    rw [← hp.queued, hwaiting, List.countP_cons]
  by_cases hjob : job = .slice i
  · obtain ⟨p, hp⟩ := hf.token
    have hcount := hq p hp
    rw [if_pos (isSliceOf_iff.mpr hjob)] at hcount
    cases p with
    | queued =>
      refine ⟨hd.strand ▸ hf.strand, fun a => by rw [hheld, hf.held, hd.sliceTask], ⟨.popped w, ?_⟩,
        fun u hu => hrunning u (congrFun hd.strand i ▸ hu)⟩
      refine ⟨by rw [hd.strand, hp.pool]; rfl, by rw [hd.sliceTask, hp.sliceTask]; rfl, ?_, fun u => ?_⟩
      · simp only [Place.isQueued, Bool.toNat_true, Bool.toNat_false] at hcount ⊢
        omega
      · by_cases hu : u = w
        · rw [hu, hhand, Function.update_self, hjob]
          simp
        · rw [hhand, Function.update_of_ne hu, hp.hand u]
          simp [Ne.symm hu]
    | out | popped v => simp [Place.isQueued] at hcount
  · obtain ⟨p, hp⟩ := hf.token
    refine hf.same ⟨congrFun hd.strand i, congrFun hd.sliceTask i, by simp [hheld], ?_, fun u => ?_, hrunning⟩
    · have hcount := hq p hp
      rw [if_neg (mt isSliceOf_iff.mp hjob)] at hcount
      rw [hp.queued, ← hcount, Nat.add_zero]
    · by_cases hu : u = w
      · rw [hu, hhand, Function.update_self, hfree]
        simp [hjob]
      · rw [hhand, Function.update_of_ne hu]

/-- The task of a worker that is not in `run` returns. -/
theorem executed_ok (h : Inv c waiting) (w : ω) :
    (executed c w).Ok fun d => ∃ waiting', Inv d waiting' := by
  have hlook : (∀ i, (c.strand i).worker w = .idle) →
      (inPool c (.executed w)).Ok fun d => ∃ waiting', Inv d waiting' := fun hidle =>
    look_ok h (fun _ _ he => he.2) fun i u hu he => by
      injection he with hwu
      exact hu (hwu ▸ hidle i)
  unfold executed
  split
  · next i hw =>
    split
    · next hidle =>
      refine hlook fun j => by_contra fun hj => ?_
      have hwj := (h.fits j).running w hj
      rw [hw] at hwj
      injection hwj with hij
      injection hij with hij
      exact hj (hij ▸ hidle)
    · trivial
  · next hw => exact hlook fun j => by_contra fun hj => hw j ((h.fits j).running w hj)

/-! ## Into `run` and out of it -/

theorem busy_of_update {worker : ω → Strand.Worker τ} {y : Strand.Worker τ} (hw : worker w ≠ .idle) (u : ω)
    (hu : Function.update worker w y u ≠ .idle) : worker u ≠ .idle := by
  by_cases huw : u = w
  · rw [huw]
    exact hw
  · rwa [Function.update_of_ne huw] at hu

/-- Only what takes the slice task from the pool makes a worker enter `run`. -/
theorem strand_next_parts [DecidableEq σ] {c : Strand.Config ω σ τ} {a : Strand.Act ω σ τ}
    (ha : ∀ w, a ≠ .take w) : (Strand.next c a).Yields fun d => c.pool ≤ d.pool ∧
      ∀ w, d.worker w ≠ .idle → c.worker w ≠ .idle := by
  cases a with
  | createTask task job | dropTask task =>
    simp only [Strand.next, yields_bind, yields_requiring]
    exact fun _ => yields_next.mpr ⟨Nat.le_refl _, fun _ hw => hw⟩
  | submit task =>
    simp only [Strand.next, yields_bind, yields_requiring]
    exact fun _ _ _ => yields_next.mpr ⟨Nat.le_add_right _ _, fun _ hw => hw⟩
  | take w => exact absurd rfl (ha w)
  | retrieve w | resubmit w =>
    simp only [Strand.next]
    split
    · next hw =>
      simp only [yields_bind]
      intro _ _
      exact yields_next.mpr ⟨by simp, busy_of_update (by simp [hw])⟩
    · exact yields_blocked
  | execute w =>
    simp only [Strand.next]
    split
    · next hw =>
      split
      · exact yields_failed
      · exact yields_next.mpr ⟨Nat.le_refl _, busy_of_update (by simp [hw])⟩
    · exact yields_blocked
  | executed w | stopInJob w =>
    simp only [Strand.next]
    split
    · next hw => exact yields_next.mpr ⟨Nat.le_refl _, by first | exact busy_of_update (by simp [hw]) | exact fun _ hu => hu⟩
    · exact yields_blocked
  | stopAndJoin s =>
    simp only [Strand.next]
    split
    · exact yields_next.mpr ⟨Nat.le_refl _, fun _ hw => hw⟩
    · exact yields_blocked
  | joined s =>
    simp only [Strand.next]
    split
    · simp only [yields_bind, yields_requiring]
      exact fun _ => yields_next.mpr ⟨Nat.le_refl _, fun _ hw => hw⟩
    · exact yields_blocked

/-- The pool accepts the slice task of a strand that has it. -/
theorem handOver_ok (h : Inv c waiting) {s : Strand.Config ω σ τ} {v : Strand.View ω τ} (hs : Strand.Inv s v)
    (hpool : (c.strand i).pool < s.pool)
    (hworker : ∀ w, s.worker w ≠ .idle → (c.strand i).worker w ≠ .idle) :
    (handOver (c.setStrand i s) i).Returns fun d => Inv d (waiting ++ [.slice i]) ∧
      d.strand = Function.update c.strand i s ∧ d.pool.worker = c.pool.worker ∧
      d.pool.pool.stop = c.pool.pool.stop := by
  have hf := h.fits i
  obtain ⟨q, hq⟩ := hf.token
  have hone : s.pool ≤ 1 := by
    rw [hs.token.pool]
    exact Bool.toNat_le _
  have hout : q = .out := by
    cases q with
    | out => rfl
    | _ =>
      have hp := hq.pool
      simp only [Place.isOut, Bool.not_false, Bool.toNat_true] at hp
      omega
  subst hout
  obtain ⟨task, htask⟩ := Option.isSome_iff_exists.mp hq.sliceTask
  have hheld := (hf.held task).mpr htask
  obtain ⟨nodes, hp⟩ := h.pool
  have hcaller : c.pool.owner task = .caller := by
    by_contra hn
    rw [ThreadPool.held_none hn] at hheld
    cases hheld
  have hready := hp.ready task (by simp [hcaller]) (by simp [hcaller])
  obtain ⟨p, hnext⟩ : ∃ p, ThreadPool.next c.pool (.submit task) = .next p :=
    exists_of_isNext (by simp [ThreadPool.next, hcaller, ThreadPool.submit_eq hready, requiring, isNext])
  obtain ⟨nodes', waiting', hinv, heffect, hothers, -, hstop⟩ := (ThreadPool.effect_ok hp _).of_next hnext
  obtain ⟨job, hjob, hwaiting, hhand, hheld'⟩ := heffect
  rw [hheld] at hjob
  cases hjob
  subst hwaiting
  have hsame : p.worker = c.pool.worker := funext fun w => hothers w (by simp [ThreadPool.actor])
  have hrun : handOver (c.setStrand i s) i =
      .next ⟨Function.update c.strand i s, p, Function.update c.sliceTask i none⟩ := by
    simp [handOver, Config.setStrand, Config.setSliceTask, htask, inPool, hnext]
  rw [hrun]
  refine ⟨⟨⟨nodes', hinv⟩, fun j => ?_⟩, rfl, hsame, hstop (by simp)⟩
  by_cases hj : j = i
  · subst hj
    refine ⟨⟨v, by simpa using hs⟩, fun a => ?_, ⟨.queued, ?_, by simp [Place.isOut], ?_, fun w => ?_⟩, fun w hw => ?_⟩
    · by_cases ha : a = task
      · simp [hheld', ha]
      · simp [hheld', ha, hf.held, htask, Ne.symm ha]
    · simp only [Function.update_self, Place.isOut, Bool.not_false, Bool.toNat_true]
      omega
    · rw [List.countP_append, hq.queued]
      simp [Place.isQueued]
    · simp [hhand, hq.hand w]
    · exact hsame ▸ hf.running w (hworker w (by simpa using hw))
  · refine (h.fits j).same ⟨by simp [hj], by simp [hj], fun a => ?_, ?_, by simp [hhand], fun w hw => ?_⟩
    · rw [hheld']
      by_cases ha : a = task
      · simp [ha, hheld, Ne.symm hj]
      · rw [Function.update_of_ne ha]
    · simp [List.countP_append, Ne.symm hj]
    · exact hsame ▸ (h.fits j).running w hw

/-- What the step of a strand does to the whole. -/
theorem inStrand_returns [DecidableEq σ] (h : Inv c waiting) {a : Strand.Act ω σ τ} (ha : ∀ w, a ≠ .take w)
    {s : Strand.Config ω σ τ} (hs : Strand.next (c.strand i) a = .next s) :
    (inStrand c i a).Returns fun d => (∃ waiting', Inv d waiting' ∧ waiting'.length ≤ waiting.length + 1) ∧
      d.strand = Function.update c.strand i s ∧ d.pool.worker = c.pool.worker ∧
      d.pool.pool.stop = c.pool.pool.stop := by
  have hf := h.fits i
  obtain ⟨v, hv⟩ := hf.strand
  obtain ⟨v', hv'⟩ := (Strand.next_ok hv a).of_next hs
  obtain ⟨hle, hworker⟩ := strand_next_parts ha s hs
  simp only [inStrand, hs, next_bind]
  split
  · next hlt =>
    exact (handOver_ok h hv' hlt hworker).mono fun d hd => ⟨⟨_, hd.1, by simp⟩, hd.2⟩
  · next hge =>
    have hsame : s.pool = (c.strand i).pool := by omega
    refine ⟨⟨waiting, ⟨h.pool, fun j => ?_⟩, Nat.le_succ _⟩, rfl, rfl, rfl⟩
    by_cases hj : j = i
    · subst hj
      obtain ⟨q, hq⟩ := hf.token
      refine ⟨⟨v', by simpa [Config.setStrand] using hv'⟩, hf.held,
        ⟨q, by simp [Config.setStrand, hsame, hq.pool], hq.sliceTask, hq.queued, hq.hand⟩, fun w hw => ?_⟩
      exact hf.running w (hworker w (by simpa [Config.setStrand] using hw))
    · exact (h.fits j).same ⟨by simp [Config.setStrand, hj], rfl, fun _ => Iff.rfl, rfl, fun _ => Iff.rfl,
        (h.fits j).running⟩

theorem inStrand_ok [DecidableEq σ] (h : Inv c waiting) (i : ι) {a : Strand.Act ω σ τ}
    (ha : ∀ w, a ≠ .take w) : (inStrand c i a).Ok fun d => ∃ waiting', Inv d waiting' := by
  obtain ⟨v, hv⟩ := (h.fits i).strand
  have hok := Strand.next_ok hv a
  cases hs : Strand.next (c.strand i) a with
  | next s =>
    refine (inStrand_returns h ha hs).ok.mono fun d hd => ?_
    obtain ⟨⟨waiting', hd, -⟩, -⟩ := hd
    exact ⟨waiting', hd⟩
  | failed => simp [hs] at hok
  | _ => simp [inStrand, hs]

/-- The pool's part of `execute`. -/
structure Executes (c : Config ι ω σ τ) (p : ThreadPool.Config ω (Job ι τ)) (waiting : List (Job ι τ)) (w : ω)
    (task : Nat) (job : Job ι τ) : Prop where
  inv : ∃ nodes, ThreadPool.Inv p nodes waiting
  popped : c.pool.worker w = .popped task
  inHand : c.pool.hand w = some job
  worker : p.worker = Function.update c.pool.worker w (.executing job)
  hand : p.hand = Function.update c.pool.hand w none
  held : p.held = Function.update c.pool.held task (some job)

section

variable {p : ThreadPool.Config ω (Job ι τ)} {task : Nat} {job : Job ι τ}

/-- Who is in `run` stays there. -/
theorem Executes.running (he : Executes c p waiting w task job) {j : ι} (hf : Fits c waiting j) {u : ω}
    (hu : (c.strand j).worker u ≠ .idle) : p.worker u = .executing (.slice j) := by
  have hr := hf.running u hu
  have huw : u ≠ w := fun hw => by
    rw [hw, he.popped] at hr
    cases hr
  rw [he.worker, Function.update_of_ne huw, hr]

/-- A strand whose slice task is not the one that is executed. -/
theorem Executes.same (he : Executes c p waiting w task job) {j : ι} (hf : Fits c waiting j)
    (ht : c.pool.held task = none) (hj : job ≠ .slice j) (hd : d.pool = p) (hs : d.strand j = c.strand j)
    (hslice : d.sliceTask j = c.sliceTask j) : Same c d waiting waiting j := by
  refine ⟨hs, hslice, fun a => ?_, rfl, fun u => ?_, fun u hu => hd ▸ he.running hf hu⟩
  · rw [hd, he.held]
    by_cases ha : a = task
    · simp [ha, ht, hj]
    · rw [Function.update_of_ne ha]
  · rw [hd, he.hand]
    by_cases hu : u = w
    · simp [hu, he.inHand, hj]
    · rw [Function.update_of_ne hu]

/-- The worker can enter `run`. -/
theorem Executes.take [DecidableEq σ] (he : Executes c p waiting w task (.slice i)) (hf : Fits c waiting i) :
    Strand.next (c.strand i) (.take w) = .next { c.strand i with
      pool := 0, worker := Function.update (c.strand i).worker w .started } := by
  obtain ⟨q, hq⟩ := hf.token
  have hpopped : q = .popped w := (hq.hand w).mp he.inHand
  subst hpopped
  have hidle : (c.strand i).worker w = .idle := by_contra fun hn => by
    have hr := hf.running w hn
    rw [he.popped] at hr
    cases hr
  have hone : (c.strand i).pool = 1 := hq.pool
  simp [Strand.next, hidle, hone, requiring]

/-- Now it has the slice task. -/
theorem Executes.fits [DecidableEq σ] (he : Executes c p waiting w task (.slice i)) (hf : Fits c waiting i)
    {s : Strand.Config ω σ τ} (hs : Strand.next (c.strand i) (.take w) = .next s) (hd : d.pool = p)
    (hstrand : d.strand i = s) (hslice : d.sliceTask i = some task) : Fits d waiting i := by
  obtain ⟨v, hv⟩ := hf.strand
  obtain ⟨v', hv'⟩ := (Strand.next_ok hv _).of_next hs
  obtain ⟨q, hq⟩ := hf.token
  have hpopped : q = .popped w := (hq.hand w).mp he.inHand
  subst hpopped
  rw [he.take hf] at hs
  cases hs
  refine ⟨⟨v', hstrand ▸ hv'⟩, fun a => ?_, ⟨.out, by rw [hstrand]; rfl, by rw [hslice]; rfl, hq.queued,
    fun u => ?_⟩, fun u hu => ?_⟩
  · rw [hd, he.held, hslice]
    by_cases ha : a = task
    · simp [ha]
    · have hnone : c.sliceTask i = none := by simpa [Place.isOut] using hq.sliceTask
      rw [Function.update_of_ne ha, hf.held, hnone]
      simp [Ne.symm ha]
  · rw [hd, he.hand]
    by_cases hu : u = w
    · simp [hu]
    · rw [Function.update_of_ne hu, hq.hand u]
      simp [Ne.symm hu]
  · rw [hd]
    by_cases huw : u = w
    · rw [huw, he.worker, Function.update_self]
    · rw [hstrand] at hu
      exact he.running hf (by simpa [huw] using hu)

end

/-- What a worker does with a task: a slice task brings it into `run`. -/
def Entered [DecidableEq σ] (c d : Config ι ω σ τ) (w : ω) : Job ι τ → Prop
  | .slice i => ∃ s, Strand.next (c.strand i) (.take w) = .next s ∧ d.strand = Function.update c.strand i s
  | .other _ => d.strand = c.strand

theorem execute_returns [DecidableEq σ] (h : Inv c waiting) {task : Nat}
    (hw : c.pool.worker w = .popped task) : (execute c w).Returns fun d => Inv d waiting ∧
      (∃ job, Executes c d.pool waiting w task job ∧ Entered c d w job) ∧
      d.pool.pool.stop = c.pool.pool.stop := by
  obtain ⟨nodes, hp⟩ := h.pool
  obtain ⟨p, hnext⟩ : ∃ p, ThreadPool.next c.pool (.execute w) = .next p := by
    obtain ⟨job, hnext⟩ := ThreadPool.execute_eq hp hw
    exact ⟨_, hnext⟩
  obtain ⟨nodes', waiting', hinv, heffect, -, -, hstop⟩ := (ThreadPool.effect_ok hp _).of_next hnext
  obtain ⟨task', job, hw', hjob, hworker, hwaiting, hhand, hheld⟩ := heffect
  rw [hw] at hw'
  cases hw'
  subst hwaiting
  have he : Executes c p waiting' w task job := ⟨⟨nodes', hinv⟩, hw, hjob, hworker, hhand, hheld⟩
  have ht : c.pool.held task = none := ThreadPool.held_none (by simp [hp.popped w task hw])
  have hpw : p.worker w = .executing job := by rw [hworker, Function.update_self]
  unfold execute inPool
  cases job with
  | other job =>
    simp only [hnext, next_bind, pure_eq, hw, hpw, returns_next]
    exact ⟨⟨he.inv, fun j => (h.fits j).same (he.same (h.fits j) ht (by simp) rfl rfl rfl)⟩,
      ⟨_, he, rfl⟩, hstop (by simp)⟩
  | slice i =>
    have hs := he.take (h.fits i)
    simp only [hnext, next_bind, pure_eq, hw, hpw, hs, returns_next]
    refine ⟨⟨he.inv, fun j => ?_⟩, ⟨_, he, _, hs, rfl⟩, hstop (by simp)⟩
    by_cases hj : j = i
    · subst hj
      exact he.fits (h.fits j) hs rfl (Function.update_self ..) (Function.update_self ..)
    · exact (h.fits j).same (he.same (h.fits j) ht (by simpa using Ne.symm hj) rfl
        (Function.update_of_ne hj ..) (Function.update_of_ne hj ..))

theorem execute_ok [DecidableEq σ] (h : Inv c waiting) (w : ω) :
    (execute c w).Ok fun d => Inv d waiting := by
  cases hw : c.pool.worker w with
  | popped task => exact (execute_returns h hw).ok.mono fun d hd => hd.1
  | _ => simp [execute, inPool, ThreadPool.next, hw]

/-! ## Every run -/

theorem next_ok [DecidableEq σ] (h : Inv c waiting) (a : Act ι ω σ τ) :
    (next c a).Ok fun d => ∃ waiting', Inv d waiting' := by
  cases a with
  | strand i a =>
    cases a with
    | take w => trivial
    | _ => exact inStrand_ok h i (by simp)
  | pool a =>
    cases a with
    | createTask task job =>
      cases job with
      | slice i => trivial
      | other job => exact createTask_ok h task job
    | dropTask task =>
      simp only [next, ok_bind, ok_requiring]
      exact fun ho => dropTask_ok h ho
    | submit task =>
      simp only [next, ok_bind, ok_requiring]
      exact fun ho => submit_ok h ho
    | notifyStop | lockHead w | check w | timeout w => exact look_ok h (fun _ _ he => he) (by simp)
    | detach w => exact detach_ok h w
    | execute w => exact (execute_ok h w).mono fun d hd => ⟨_, hd⟩
    | executed w => exact executed_ok h w

theorem reachable_inv [DecidableEq σ] (h : Runs.Reachable next Init c) : ∃ waiting, Inv c waiting :=
  h.invariant (I := fun c => ∃ waiting, Inv c waiting) (fun _ hi => ⟨[], init_inv hi⟩)
    fun _ a hv => hv.elim fun _ hv => next_ok hv a

/-! ## The parts -/

/-- Every strand, and the pool, takes a step of its own or none. -/
structure Parts [DecidableEq σ] (c d : Config ι ω σ τ) : Prop where
  strand : ∀ i, d.strand i = c.strand i ∨ ∃ a, Strand.next (c.strand i) a = .next (d.strand i)
  pool : d.pool = c.pool ∨ ∃ a, ThreadPool.next c.pool a = .next d.pool

section

variable [DecidableEq σ]

omit [DecidableEq ι] in
theorem inPool_parts (c : Config ι ω σ τ) (a : ThreadPool.Act ω (Job ι τ)) : (inPool c a).Yields (Parts c) := by
  simp only [inPool, yields_bind]
  exact fun p hp => yields_next.mpr ⟨fun _ => .inl rfl, .inr ⟨a, hp⟩⟩

theorem setStrand_parts {s : Strand.Config ω σ τ} {a : Strand.Act ω σ τ} (hs : Strand.next (c.strand i) a = .next s)
    (j : ι) : Function.update c.strand i s j = c.strand j ∨
      ∃ a, Strand.next (c.strand j) a = .next (Function.update c.strand i s j) := by
  by_cases hj : j = i
  · subst hj
    exact .inr ⟨a, by rw [Function.update_self, hs]⟩
  · exact .inl (Function.update_of_ne hj ..)

theorem inStrand_parts (c : Config ι ω σ τ) (i : ι) (a : Strand.Act ω σ τ) : (inStrand c i a).Yields (Parts c) := by
  simp only [inStrand, yields_bind]
  intro s hs
  split
  · unfold handOver
    split
    · exact yields_failed
    · simp only [inPool, yields_bind]
      exact fun p hp => yields_next.mpr ⟨setStrand_parts hs, .inr ⟨_, hp⟩⟩
  · exact yields_next.mpr ⟨setStrand_parts hs, .inl rfl⟩

theorem execute_parts (c : Config ι ω σ τ) (w : ω) : (execute c w).Yields (Parts c) := by
  simp only [execute, inPool, bind_assoc, yields_bind]
  intro p hp
  simp only [pure_eq, yields_next]
  split
  · simp only [yields_bind]
    exact fun s hs => yields_next.mpr ⟨setStrand_parts hs, .inr ⟨_, hp⟩⟩
  · exact yields_next.mpr ⟨fun _ => .inl rfl, .inr ⟨_, hp⟩⟩

theorem next_parts (c : Config ι ω σ τ) (a : Act ι ω σ τ) : (next c a).Yields (Parts c) := by
  cases a with
  | strand i a =>
    cases a with
    | take w => exact yields_blocked
    | _ => exact inStrand_parts c i _
  | pool a =>
    cases a with
    | createTask task job =>
      cases job with
      | slice i => exact yields_blocked
      | other job => exact inPool_parts c _
    | dropTask task | submit task =>
      simp only [next, yields_bind, yields_requiring]
      exact fun _ => inPool_parts c _
    | notifyStop | lockHead w | check w | timeout w | detach w => exact inPool_parts c _
    | execute w => exact execute_parts c w
    | executed w =>
      simp only [next, executed]
      split
      · split
        · exact inPool_parts c _
        · exact yields_blocked
      · exact inPool_parts c _

/-- **Strands and pool fit together.** In every state that any threads reach:
each strand, and the pool, is in a state that it reaches by itself; so many
slice tasks as the strand takes the pool to hold are in its queue or in the hand
of a worker; whoever is in `run` of a strand is a worker of the pool that
executes its slice task; a worker that has popped a slice task can enter `run`;
and no step of the whole fails, so a strand that hands its slice task over has
it, in a wrapper that the pool accepts. -/
theorem takes_slices (h : Runs.Reachable next Init c) :
    (∀ i, Runs.Reachable Strand.next Strand.Init (c.strand i)) ∧
    Runs.Reachable ThreadPool.next ThreadPool.Init c.pool ∧
    (∃ waiting, c.pool.submitted = c.pool.popped ++ waiting ∧ ∀ i, ((c.strand i).pool = 0 ∧
        .slice i ∉ waiting ∧ ∀ w, c.pool.hand w ≠ some (.slice i)) ∨
      ((c.strand i).pool = 1 ∧ (waiting.countP (Job.isSliceOf i) = 1 ∧ (∀ w, c.pool.hand w ≠ some (.slice i)) ∨
        .slice i ∉ waiting ∧ ∃! w, c.pool.hand w = some (.slice i)))) ∧
    (∀ i w, (c.strand i).worker w ≠ .idle → c.pool.worker w = .executing (.slice i)) ∧
    (∀ i w, c.pool.hand w = some (.slice i) → ∃ d, next c (.pool (.execute w)) = .next d ∧
      (d.strand i).worker w = .started) ∧
    ∀ a, next c a ≠ .failed := by
  obtain ⟨waiting, hv⟩ := reachable_inv h
  have hnot : ∀ i, waiting.countP (Job.isSliceOf i) = 0 → .slice i ∉ waiting := fun i hi hm =>
    List.countP_eq_zero.mp hi _ hm (isSliceOf_iff.mpr rfl)
  refine ⟨fun i => ?_, ?_, ⟨waiting, ?_, fun i => ?_⟩, fun i => (hv.fits i).running, fun i w hw => ?_,
    fun a => (next_ok hv a).not_failed⟩
  · exact h.yields (I := fun c => Runs.Reachable Strand.next Strand.Init (c.strand i))
      (fun c hc => .init (hc.strand i)) fun c a hc => (next_parts c a).mono fun d hd => by
        rcases hd.strand i with he | ⟨b, hb⟩
        · rwa [he]
        · exact hc.step hb
  · exact h.yields (I := fun c => Runs.Reachable ThreadPool.next ThreadPool.Init c.pool)
      (fun c hc => hc.pool) fun c a hc => (next_parts c a).mono fun d hd => by
        rcases hd.pool with he | ⟨b, hb⟩
        · rwa [he]
        · exact hc.step hb
  · obtain ⟨nodes, hp⟩ := hv.pool
    exact hp.fifo
  · obtain ⟨p, hp⟩ := (hv.fits i).token
    have hq := hp.queued
    cases p with
    | out => exact .inl ⟨hp.pool, hnot i hq, fun w hw => by cases (hp.hand w).mp hw⟩
    | queued => exact .inr ⟨hp.pool, .inl ⟨hq, fun w hw => by cases (hp.hand w).mp hw⟩⟩
    | popped w =>
      refine .inr ⟨hp.pool, .inr ⟨hnot i hq, w, (hp.hand w).mpr rfl, fun u hu => ?_⟩⟩
      injection (hp.hand u).mp hu with he
      exact he.symm
  · cases hworker : c.pool.worker w with
    | popped task =>
      obtain ⟨d, hd, -, ⟨job, he, hentered⟩, -⟩ := (execute_returns hv hworker).exists
      refine ⟨d, hd, ?_⟩
      have hjob := he.inHand
      rw [hw] at hjob
      cases hjob
      obtain ⟨s, hs, hstrand⟩ := hentered
      rw [he.take (hv.fits i)] at hs
      cases hs
      rw [hstrand, Function.update_self]
      exact Function.update_self ..
    | _ => simp [ThreadPool.Config.hand, hworker] at hw

/-- A new strand on a new pool. -/
def oneStrand : Config Unit Bool Unit Nat where
  strand _ := Strand.new 0 true fun _ => ⟨none, none⟩
  pool := { ThreadPool.new 0 (Function.update (fun _ => ⟨none, none⟩) 1 ⟨some (.slice ()), none⟩) with
    owner := Function.update (Function.update (fun _ => .nobody) 0 .pool) 1 .caller }
  sliceTask _ := some 1

theorem oneStrand_init : Init oneStrand := by
  refine ⟨fun _ => ⟨0, true, _, rfl⟩, ?_, rfl, fun _ => rfl, fun i a => ?_, fun _ => rfl⟩
  · refine .step (a := .createTask 1 (.slice ())) (.init ⟨0, fun _ => ⟨none, none⟩, rfl⟩) ?_
    simp [ThreadPool.next, ThreadPool.new, oneStrand, requiring, Function.update_comm]
  · by_cases h1 : a = 1
    · simp [oneStrand, ThreadPool.new, h1]
    · by_cases h0 : a = 0 <;> simp [oneStrand, h0, h1, Ne.symm h1]

/-- A worker has popped the slice task. -/
theorem takes_slices_popped : ∃ c d : Config Unit Bool Unit Nat,
    Runs.run next oneStrand [.strand () (.createTask 1 10), .strand () (.submit 1), .pool (.lockHead false),
      .pool (.check false), .pool (.detach false)] = .next c ∧
    next c (.pool (.execute false)) = .next d ∧ (d.strand ()).worker false = .started := by
  obtain ⟨c, hc, hw⟩ : ∃ c, Runs.run next oneStrand [.strand () (.createTask 1 10), .strand () (.submit 1),
      .pool (.lockHead false), .pool (.check false), .pool (.detach false)] = .next c ∧
      c.pool.hand false = some (.slice ()) := ⟨_, rfl, rfl⟩
  obtain ⟨d, hd, hstarted⟩ := (takes_slices (.run (.init oneStrand_init) hc)).2.2.2.2.1 () false hw
  exact ⟨c, d, hc, hd, hstarted⟩

end

end StrandsOnPool
