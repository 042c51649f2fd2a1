/-
The workers of a pool sleep, and are woken up.

`submit` notifies one worker, which is enough because the head lock lets only
one into `waitAndPop`; `notifyStop` notifies all. So whoever has the head lock
gets every task there is, by itself (`drains`). After `notifyStop` at most one
more task is taken, by the worker that had found it before (`stops`).
-/
import CxxHeaders.Sleepers
import CxxHeaders.ThreadPoolFifo

open Outcome LinkedQueue

namespace ThreadPool

variable {τ ω : Type}

/-- The worker whose action it is. -/
def actor : Act ω τ → Option ω
  | .lockHead w | .check w | .timeout w | .detach w | .execute w | .executed w => some w
  | _ => none

def signals : Signals (Config ω τ) (Act ω τ) ω Unit where
  actor := actor
  sleeps c
    | .check _ => match c.pool.check with
      | .empty => some ()
      | _ => none
    | _ => none
  notifies _
    | .submit _ => .one ()
    | .notifyStop => .all ()
    | _ => .nobody

/-- What a worker waits for. -/
def HasWork (c : Config ω τ) : Prop := c.pool.stop = true ∨ c.pool.head ≠ some c.pool.tail

theorem check_eq_empty {c : Config ω τ} : c.pool.check = .empty ↔ ¬HasWork c := by
  unfold check HasWork
  split
  · next h => simp [h]
  · next h =>
    split
    · next hne => simp [hne]
    · next hne => simpa [h] using hne

theorem check_eq_stopNotified {p : ThreadPool τ} : p.check = .stopNotified ↔ p.stop = true := by
  unfold check
  split
  · next h => simp [h]
  · next h =>
    split <;> simp [h]

variable [DecidableEq ω]

variable {c d : Config ω τ}

/-! ## One step -/

/-- What a step may do. -/
inductive Stepped (c : Config ω τ) : Act ω τ → Config ω τ → Prop
  | createTask {task job} (hfree : c.owner task = .nobody) : Stepped c (.createTask task job) { c with
      pool := { c.pool with heap := Function.update c.pool.heap task ⟨some job, none⟩ },
      owner := Function.update c.owner task .caller }
  | dropTask (task : Nat) : Stepped c (.dropTask task) { c with
      owner := Function.update c.owner task .nobody }
  | submit {task p} (hcaller : c.owner task = .caller) (hp : c.pool.submit task = .next p) :
      Stepped c (.submit task) { c with
        pool := p, owner := Function.update c.owner task .pool,
        submitted := c.submitted ++ (c.pool.heap task).value.toList }
  | notifyStop : Stepped c .notifyStop { c with pool := c.pool.notifyStop }
  | lockHead {w} (hw : c.worker w = .idle) : Stepped c (.lockHead w) { c with
      headMutex := some w, worker := Function.update c.worker w .locked }
  | stopNotified {w} (hw : c.worker w = .locked ∨ c.worker w = .waiting) (hc : c.pool.check = .stopNotified) :
      Stepped c (.check w) { c with headMutex := none, worker := Function.update c.worker w .idle }
  | available {w} (hw : c.worker w = .locked ∨ c.worker w = .waiting) (hc : c.pool.check = .available) :
      Stepped c (.check w) { c with worker := Function.update c.worker w .found }
  | empty {w} (hw : c.worker w = .locked ∨ c.worker w = .waiting) (hc : c.pool.check = .empty) :
      Stepped c (.check w) { c with worker := Function.update c.worker w .waiting }
  | timeout {w} (hw : c.worker w = .waiting) : Stepped c (.timeout w) { c with
      headMutex := none, worker := Function.update c.worker w .idle }
  | detach {w p task} (hw : c.worker w = .found) (hp : c.pool.detach = .next (p, task)) :
      Stepped c (.detach w) { c with
        pool := p, headMutex := none, worker := Function.update c.worker w (.popped task),
        owner := Function.update c.owner task (.worker w),
        popped := c.popped ++ (p.heap task).value.toList }
  | execute {w task job} (hw : c.worker w = .popped task) (hjob : (c.pool.heap task).value = some job) :
      Stepped c (.execute w) { c with
        worker := Function.update c.worker w (.executing job),
        owner := Function.update c.owner task .caller }
  | executed {w job} (hw : c.worker w = .executing job) : Stepped c (.executed w) { c with
      worker := Function.update c.worker w .idle }

theorem next_stepped (c : Config ω τ) (a : Act ω τ) : (next c a).Yields (Stepped c a) := by
  cases a with
  | createTask task job =>
    simp only [next, yields_bind, yields_requiring]
    exact fun hfree => yields_next.mpr (.createTask hfree)
  | dropTask task =>
    simp only [next, yields_bind, yields_requiring]
    exact fun _ => yields_next.mpr (.dropTask task)
  | submit task =>
    simp only [next, yields_bind, yields_requiring]
    exact fun hcaller p hp => yields_next.mpr (.submit hcaller hp)
  | notifyStop => exact yields_next.mpr .notifyStop
  | lockHead w =>
    simp only [next]
    cases hw : c.worker w with
    | idle =>
      simp only [yields_bind, yields_requiring, yields_asserting]
      exact fun _ _ => yields_next.mpr (.lockHead hw)
    | _ => exact yields_blocked
  | check w =>
    simp only [next]
    cases hw : c.worker w with
    | locked | waiting =>
      cases hc : c.pool.check with
      | stopNotified => exact yields_next.mpr (.stopNotified (by simp [hw]) hc)
      | available => exact yields_next.mpr (.available (by simp [hw]) hc)
      | empty => exact yields_next.mpr (.empty (by simp [hw]) hc)
    | _ => exact yields_blocked
  | timeout w =>
    simp only [next]
    cases hw : c.worker w with
    | waiting => exact yields_next.mpr (.timeout hw)
    | _ => exact yields_blocked
  | detach w =>
    simp only [next]
    cases hw : c.worker w with
    | found =>
      simp only [yields_bind]
      exact fun r hr => yields_next.mpr (.detach hw hr)
    | _ => exact yields_blocked
  | execute w =>
    simp only [next]
    cases hw : c.worker w with
    | popped task =>
      dsimp only
      split
      · exact yields_failed
      · next hjob => exact yields_next.mpr (.execute hw hjob)
    | _ => exact yields_blocked
  | executed w =>
    simp only [next]
    cases hw : c.worker w with
    | executing job => exact yields_next.mpr (.executed hw)
    | _ => exact yields_blocked

theorem submit_stop (p : ThreadPool τ) (task : Nat) : (p.submit task).Yields fun q => q.stop = p.stop := by
  simp only [ThreadPool.submit, yields_bind, yields_asserting]
  exact fun _ _ => yields_next.mpr rfl

theorem detach_stop (p : ThreadPool τ) : p.detach.Yields fun r => r.1.stop = p.stop := by
  unfold ThreadPool.detach
  split
  · exact yields_failed
  · simp only [yields_bind, yields_asserting]
    exact fun _ => yields_next.mpr rfl

theorem update_others {w u : ω} (worker : ω → Worker τ) (y : Worker τ) (h : some w ≠ some u) :
    Function.update worker w y u = worker u :=
  Function.update_of_ne (fun he => h (congrArg some he.symm)) ..

/-- Others leave a worker where it is, and only a submit, a stop and a pop
change what it waits for. -/
theorem next_others (a : Act ω τ) : (next c a).Yields fun d =>
    (∀ w, actor a ≠ some w → d.worker w = c.worker w) ∧
    (signals.notifies c a = .nobody → (∀ w, a ≠ .detach w) → (HasWork d ↔ HasWork c)) := by
  intro d hd
  cases next_stepped c a d hd with
  | createTask | dropTask => exact ⟨fun _ _ => rfl, fun _ _ => Iff.rfl⟩
  | submit | notifyStop => exact ⟨fun _ _ => rfl, fun hn => by cases hn⟩
  | @detach w => exact ⟨fun _ => update_others _ _, fun _ hd => absurd rfl (hd w)⟩
  | lockHead | stopNotified | available | empty | timeout | execute | executed =>
    exact ⟨fun _ => update_others _ _, fun _ _ => Iff.rfl⟩

/-- A worker goes to sleep where there is no work. -/
theorem next_sleeps {a : Act ω τ} (h : next c a = .next d) {w : ω} (hw : actor a = some w)
    (hs : (signals.sleeps c a).isSome) : d.worker w = .waiting ∧ ¬HasWork d := by
  cases next_stepped c a d h with
  | empty _ hc =>
    cases hw
    exact ⟨Function.update_self .., check_eq_empty.mp hc⟩
  | stopNotified _ hc | available _ hc => simp [signals, hc] at hs
  | _ => cases hs

/-- **One notification is enough for a task**: only one worker can be in
`waitAndPop`. -/
theorem enough : Sleepers.Enough next signals
    (fun c : Config ω τ => ∃ nodes waiting, Inv c nodes waiting)
    (fun c w _ => c.worker w = .waiting) (fun c _ => HasWork c) where
  sleeps _ hn hw hs := next_sleeps hn hw (by rw [hs]; rfl)
  keeps := by
    intro c a d w _ hi hn hw hwaits hready
    obtain ⟨nodes, waiting, hv⟩ := hi
    obtain ⟨hothers, hwork⟩ := next_others a d hn
    have halone : ∀ v, (c.worker v).isInside = true → v = w := fun v hin =>
      hv.inside_unique hin (by rw [hwaits]; rfl)
    refine ⟨(hothers w hw).trans hwaits, fun hr => ?_⟩
    cases a with
    | submit task => exact .inr ⟨rfl, fun v hvw => halone v (by rw [hvw]; rfl)⟩
    | notifyStop => exact .inl rfl
    | detach u =>
      have hu : c.worker u = .found := by
        cases next_stepped _ _ _ hn with
        | detach hu => exact hu
      exact absurd (congrArg some (halone u (by rw [hu]; rfl))) hw
    | _ => exact absurd ((hwork rfl (by simp)).mp hr) hready

/-! ## One worker at work -/

/-- How far a worker is from its next look at the queue. -/
def Worker.phase : Worker τ → Nat
  | .popped _ => 5
  | .executing _ => 4
  | .idle => 3
  | .locked | .waiting => 2
  | .found => 1

/-- What it does next. -/
def nextAct (c : Config ω τ) (w : ω) : Act ω τ :=
  match c.worker w with
  | .idle => .lockHead w
  | .locked | .waiting => .check w
  | .found => .detach w
  | .popped _ => .execute w
  | .executing _ => .executed w

/-- Nobody else has the head lock, and there was no stop. -/
structure MayServe (c : Config ω τ) (w : ω) : Prop where
  stop : c.pool.stop = false
  mutex : c.headMutex = none ∨ c.headMutex = some w

/-- The worker has brought its task to an end, and there is no other. -/
def Served (c : Config ω τ) (w : ω) (waiting : List τ) : Prop :=
  waiting = [] ∧ (c.worker w).phase ≤ 3

variable {nodes : List Nat} {waiting : List τ} {w : ω}

omit [DecidableEq ω] in
theorem Inv.mutex_none (h : Inv c nodes waiting) (hm : c.headMutex = none ∨ c.headMutex = some w)
    (hw : (c.worker w).isInside = false) : c.headMutex = none := by
  refine hm.resolve_right fun hm => ?_
  rw [(h.mutex w).mpr hm] at hw
  cases hw

theorem lockHead_eq (h : Inv c nodes waiting) (hw : c.worker w = .idle) (hm : c.headMutex = none) :
    next c (.lockHead w) = .next { c with
      headMutex := some w, worker := Function.update c.worker w .locked } := by
  have hhead : c.pool.head.isSome := by
    rw [h.queue.head, List.isSome_head?]
    simpa using h.queue.chain.ne_nil
  simp [next, hw, requiring_true hm, asserting_true hhead]

theorem detach_next (h : Inv c nodes waiting) (hw : c.worker w = .found) :
    ∃ d task job rest nodes', next c (.detach w) = .next d ∧ waiting = job :: rest ∧ Inv d nodes' rest ∧
      d.worker w = .popped task ∧ d.submitted = c.submitted ∧ d.pool.stop = c.pool.stop ∧
      d.headMutex = none := by
  obtain ⟨job, rest, hx⟩ := List.exists_cons_of_ne_nil (h.found w hw)
  have hq := h.queue
  rw [hx] at hq
  obtain ⟨a, b, bs, -, -, -, -, he⟩ := detach_eq hq
  have hnext : (next c (.detach w)).isNext := by
    simp [next, hw, he, isNext]
  obtain ⟨d, hd⟩ := exists_of_isNext hnext
  obtain ⟨task, bs', job', rest', hx', hinv, hdw, -, -, hsub⟩ := (detach_ok h w).of_next hd
  refine ⟨d, task, job', rest', bs', hd, hx', hinv, hdw, hsub, ?_⟩
  simp only [next, hw, he, next_bind, pure_eq, Outcome.next.injEq] at hd
  rw [← hd]
  exact ⟨rfl, rfl⟩

theorem execute_eq (h : Inv c nodes waiting) {task : Nat} (hw : c.worker w = .popped task) :
    ∃ job, next c (.execute w) = .next { c with
      worker := Function.update c.worker w (.executing job),
      owner := Function.update c.owner task .caller } := by
  have ho := h.popped w task hw
  obtain ⟨job, hnode⟩ := h.ready task (by simp [ho]) (by simp [ho])
  exact ⟨job, by simp [next, hw, hnode]⟩

theorem executed_eq {job : τ} (hw : c.worker w = .executing job) :
    next c (.executed w) = .next { c with worker := Function.update c.worker w .idle } := by
  simp [next, hw]

/-- **What a worker does next brings it forward**: to its look at the queue, or
to the next task. -/
theorem serve (h : Inv c nodes waiting) (hs : MayServe c w) (hn : ¬Served c w waiting) :
    (next c (nextAct c w)).Returns fun d => MayServe d w ∧ d.submitted = c.submitted ∧
      ∃ nodes' waiting', Inv d nodes' waiting' ∧
        6 * waiting'.length + (d.worker w).phase < 6 * waiting.length + (c.worker w).phase := by
  have hlen : (c.worker w).phase ≤ 3 → waiting ≠ [] := fun hp he => hn ⟨he, hp⟩
  unfold nextAct
  cases hw : c.worker w with
  | idle =>
    have hnext := lockHead_eq h hw (h.mutex_none hs.mutex (by rw [hw]; rfl))
    have hinv := (lockHead_ok h w).of_next hnext
    rw [hnext]
    refine ⟨⟨hs.stop, .inr rfl⟩, rfl, nodes, waiting, hinv, ?_⟩
    simp [Worker.phase]
  | locked | waiting =>
    have hne : c.pool.head ≠ some c.pool.tail := fun he =>
      hlen (by simp [hw, Worker.phase]) (h.queue.head_eq_tail.mp he)
    have hcheck : c.pool.check = .available := by simp [check, hs.stop, hne]
    have hnext : next c (.check w) = .next { c with
        worker := Function.update c.worker w .found } := by
      simp [next, hw, hcheck]
    have hinv := (check_ok h w).of_next hnext
    rw [hnext]
    refine ⟨⟨hs.stop, hs.mutex⟩, rfl, nodes, waiting, hinv, ?_⟩
    simp [Worker.phase]
  | found =>
    obtain ⟨d, task, job, rest, nodes', hd, hx, hinv, hdw, hsub, hstop, hm⟩ := detach_next h hw
    rw [hd]
    refine ⟨⟨hstop.trans hs.stop, .inl hm⟩, hsub, nodes', rest, hinv, ?_⟩
    rw [hdw, hx]
    simp only [Worker.phase, List.length_cons]
    omega
  | popped task =>
    obtain ⟨job, hnext⟩ := execute_eq h hw
    have hinv := (execute_ok h w).of_next hnext
    rw [hnext]
    refine ⟨⟨hs.stop, hs.mutex⟩, rfl, nodes, waiting, hinv, ?_⟩
    simp [Worker.phase]
  | executing job =>
    have hnext := executed_eq hw
    have hinv := (executed_ok h w).of_next hnext
    rw [hnext]
    refine ⟨⟨hs.stop, hs.mutex⟩, rfl, nodes, waiting, hinv, ?_⟩
    simp [Worker.phase]

omit [DecidableEq ω] in
theorem actor_nextAct : actor (nextAct c w) = some w := by
  unfold nextAct
  cases c.worker w <;> rfl

/-- Where it waits, it is not in vain. -/
def Wakeful (c : Config ω τ) (a : Act ω τ) : Prop :=
  ∀ w (_ : Unit), signals.actor a = some w → c.worker w = .waiting → HasWork c

/-- By induction on what it has left to do. -/
theorem serve_all (n : Nat) : ∀ {c : Config ω τ} {nodes : List Nat} {waiting : List τ}, Inv c nodes waiting →
    MayServe c w → 6 * waiting.length + (c.worker w).phase ≤ n →
    ∃ as d nodes', (∀ a ∈ as, actor a = some w) ∧ Runs.run next c as = .next d ∧
      Runs.Meets next Wakeful c as ∧ Inv d nodes' [] ∧ d.submitted = c.submitted ∧
      (d.worker w).phase ≤ 3 := by
  induction n with
  | zero =>
    intro c nodes waiting _ _ hn
    have hpos : 0 < (c.worker w).phase := by cases c.worker w <;> simp [Worker.phase]
    omega
  | succ n ih =>
    intro c nodes waiting h hs hn
    by_cases hserved : Served c w waiting
    · obtain ⟨rfl, hphase⟩ := hserved
      exact ⟨[], c, nodes, by simp, rfl, trivial, h, rfl, hphase⟩
    · obtain ⟨d, hd, hs', hsub, nodes', waiting', hinv, hlt⟩ := (serve h hs hserved).exists
      obtain ⟨as, e, nodes'', has, hrun, hmeets, he, hsub', hphase⟩ := ih hinv hs' (by omega)
      refine ⟨nextAct c w :: as, e, nodes'', ?_, ?_, .cons ?_ hd hmeets, he, hsub'.trans hsub, hphase⟩
      · intro a ha
        rcases List.mem_cons.mp ha with rfl | ha
        · exact actor_nextAct
        · exact has a ha
      · rw [Runs.run, hd, next_bind, hrun]
      · intro v _ hv hwait
        have hvw : v = w := by
          have hact : actor (nextAct c w) = some v := hv
          rw [actor_nextAct] at hact
          exact (Option.some.inj hact).symm
        rw [hvw] at hwait
        exact .inr fun he => hserved ⟨h.queue.head_eq_tail.mp he, by simp [hwait, Worker.phase]⟩

/-- **A pool needs one worker, and no luck.** In every state that threads reach
that submit, stop and work, asleep or woken up: nobody sleeps while there is a
task or a stop; and as long as there was no stop, a worker that has the head
lock, or any worker if nobody has it, can get to the end of the queue by its
own actions only, without a wake-up or a submit; then every task that was
submitted has been popped, and this worker has none left to do. -/
theorem drains {c : Sleepers.Config (Config ω τ) ω Unit}
    (h : Runs.Reachable (Sleepers.next next signals) (Sleepers.Init Init) c) :
    (∀ p ∈ c.asleep, c.state.worker p.1 = .waiting ∧ ¬HasWork c.state) ∧
    ∀ w, MayServe c.state w → ∃ bs d,
      (∀ b ∈ bs, ∃ a woken, b = .act a woken ∧ actor a = some w) ∧
      Runs.run (Sleepers.next next signals) c bs = .next d ∧
      d.state.popped = c.state.submitted ∧ d.state.submitted = c.state.submitted ∧
      ∀ task job, d.state.worker w ≠ .popped task ∧ d.state.worker w ≠ .executing job := by
  refine ⟨Sleepers.no_lost_wakeup enough (fun _ => reachable_inv) h, fun w hs => ?_⟩
  obtain ⟨nodes, waiting, hv⟩ := reachable_inv (Sleepers.reachable_base h)
  obtain ⟨as, d, nodes', has, hrun, hmeets, hd, hsub, hphase⟩ := serve_all _ hv hs (Nat.le_refl _)
  obtain ⟨bs, left, hbs, hrun'⟩ :=
    Sleepers.exists_notified_run enough (fun _ => reachable_inv) h hrun hmeets
  refine ⟨bs, ⟨d, left⟩, fun b hb => ?_, hrun', ?_, hsub, fun task job => ⟨fun he => ?_, fun he => ?_⟩⟩
  · obtain ⟨a, ha, woken, rfl⟩ := hbs b hb
    exact ⟨a, woken, rfl, has a ha⟩
  · have hfifo := hd.fifo
    rw [List.append_nil] at hfifo
    exact hfifo.symm.trans hsub
  · replace he : d.worker w = .popped task := he
    simp [he, Worker.phase] at hphase
  · replace he : d.worker w = .executing job := he
    simp [he, Worker.phase] at hphase

/-- A worker that sleeps is woken up by the submit of a task. -/
theorem drains_woken : ∃ c d : Sleepers.Config (Config Bool Nat) Bool Unit, ∃ bs,
    Runs.run (Sleepers.next next signals) ⟨new 0 fun _ => ⟨none, none⟩, []⟩
      [.act (.lockHead false) none, .act (.check false) none, .act (.createTask 1 10) none,
        .act (.submit 1) (some false)] = .next c ∧
    c.state.worker false = .waiting ∧ c.state.submitted = [10] ∧
    Runs.run (Sleepers.next next signals) c bs = .next d ∧ d.state.popped = [10] := by
  obtain ⟨c, hc, hw, hsub, hserve⟩ : ∃ c : Sleepers.Config (Config Bool Nat) Bool Unit,
      Runs.run (Sleepers.next next signals) ⟨new 0 fun _ => ⟨none, none⟩, []⟩
        [.act (.lockHead false) none, .act (.check false) none, .act (.createTask 1 10) none,
          .act (.submit 1) (some false)] = .next c ∧
      c.state.worker false = .waiting ∧ c.state.submitted = [10] ∧ MayServe c.state false :=
    ⟨_, rfl, rfl, rfl, rfl, .inr rfl⟩
  obtain ⟨bs, d, -, hrun, hpopped, -⟩ := (drains (.run (.init ⟨⟨0, _, rfl⟩, rfl⟩) hc)).2 false hserve
  exact ⟨c, d, bs, hc, hw, hsub, hrun, hpopped.trans hsub⟩

/-! ## After a stop -/

/-- From a state with a stop: no task is popped that no worker had found. -/
structure After (c d : Config ω τ) : Prop where
  stop : d.pool.stop = true
  submitted : c.submitted <+: d.submitted
  popped : d.popped = c.popped ∧ (∀ w, d.worker w = .found → c.worker w = .found) ∨
    ∃ w job, c.worker w = .found ∧ d.popped = c.popped ++ [job] ∧ ∀ v, d.worker v ≠ .found

omit [DecidableEq ω] in
theorem After.refl (h : c.pool.stop = true) : After c c :=
  ⟨h, List.prefix_rfl, .inl ⟨rfl, fun _ hw => hw⟩⟩

omit [DecidableEq ω] in
theorem After.trans {e : Config ω τ} (h : After c d) (h' : After d e) : After c e := by
  refine ⟨h'.stop, h.submitted.trans h'.submitted, ?_⟩
  rcases h.popped with ⟨hp, hf⟩ | ⟨w, job, hw, hp, hf⟩
  · rcases h'.popped with ⟨hp', hf'⟩ | ⟨v, job', hv, hp', hf'⟩
    · exact .inl ⟨hp'.trans hp, fun v hv => hf v (hf' v hv)⟩
    · exact .inr ⟨v, job', hf v hv, hp ▸ hp', hf'⟩
  · rcases h'.popped with ⟨hp', hf'⟩ | ⟨v, job', hv, -, -⟩
    · exact .inr ⟨w, job, hw, hp'.trans hp, fun v hv => hf v (hf' v hv)⟩
    · exact absurd hv (hf v)

/-- A worker goes on, and does not find anything. -/
theorem After.move (h : d.pool.stop = true) (hs : d.submitted = c.submitted) (hp : d.popped = c.popped)
    {w : ω} {y : Worker τ} (hw : d.worker = Function.update c.worker w y) (hy : y ≠ .found) :
    After c d := by
  refine ⟨h, hs ▸ List.prefix_rfl, .inl ⟨hp, fun v hv => ?_⟩⟩
  rw [hw] at hv
  by_cases hvw : v = w
  · rw [hvw, Function.update_self] at hv
    exact absurd hv hy
  · rwa [Function.update_of_ne hvw] at hv

theorem next_after (h : Inv c nodes waiting) (hstop : c.pool.stop = true) (a : Act ω τ) :
    (next c a).Yields (After c) := by
  intro d hd
  cases next_stepped c a d hd with
  | createTask | dropTask => exact ⟨hstop, List.prefix_rfl, .inl ⟨rfl, fun _ hw => hw⟩⟩
  | @submit task _ _ hp =>
    exact ⟨(submit_stop _ task _ hp).trans hstop, List.prefix_append .., .inl ⟨rfl, fun _ hw => hw⟩⟩
  | notifyStop => exact ⟨rfl, List.prefix_rfl, .inl ⟨rfl, fun _ hw => hw⟩⟩
  | available _ hc | empty _ hc => cases (check_eq_stopNotified.mpr hstop).symm.trans hc
  | lockHead | stopNotified | timeout | execute | executed =>
    exact .move hstop rfl rfl rfl fun he => by cases he
  | @detach w p task hw hp =>
    obtain ⟨-, -, job, -, -, -, -, -, hpopped, hsub⟩ := (detach_ok h w).of_next hd
    refine ⟨(detach_stop _ _ hp).trans hstop, hsub ▸ List.prefix_rfl, .inr ⟨w, job, hw, hpopped, fun v hv => ?_⟩⟩
    have hv : Function.update c.worker w (.popped task) v = .found := hv
    by_cases hvw : v = w
    · rw [hvw, Function.update_self] at hv
      cases hv
    · rw [Function.update_of_ne hvw] at hv
      exact hvw (h.inside_unique (by rw [hv]; rfl) (by rw [hw]; rfl))

/-- What holds of one step after a stop holds of all. -/
theorem run_after (h : Inv c nodes waiting) (hstop : c.pool.stop = true) (as : List (Act ω τ)) :
    (Runs.run next c as).Yields (After c) := by
  induction as generalizing c nodes waiting with
  | nil => exact yields_next.mpr (.refl hstop)
  | cons a as ih =>
    refine yields_bind.mpr fun m hm => ?_
    have hafter := next_after h hstop a m hm
    obtain ⟨nodes', waiting', hinv⟩ := (next_ok h a).of_next hm
    exact (ih hinv hafter.stop).mono fun d hd => hafter.trans hd

/-- A stop was notified, and nobody has a task or is about to get one. -/
structure Final (c : Config ω τ) (popped : List τ) : Prop where
  stop : c.pool.stop = true
  popped : c.popped = popped
  worker : ∀ w, c.worker w = .idle ∨ c.worker w = .locked

theorem Final.move {popped : List τ} (h : Final c popped) {y : Worker τ} (hy : y = .idle ∨ y = .locked)
    (hstop : d.pool.stop = c.pool.stop) (hp : d.popped = c.popped)
    (hw : d.worker = Function.update c.worker w y) : Final d popped := by
  refine ⟨hstop.trans h.stop, hp.trans h.popped, fun v => ?_⟩
  rw [hw]
  by_cases hv : v = w
  · rw [hv, Function.update_self]
    exact hy
  · rw [Function.update_of_ne hv]
    exact h.worker v

/-- That is so for ever: workers that come see the stop. -/
theorem Final.next {popped : List τ} (h : Final c popped) (a : Act ω τ) :
    (next c a).Yields (Final · popped) := by
  have hstop := check_eq_stopNotified.mpr h.stop
  have hout : ∀ {w x}, c.worker w = x → x = .idle ∨ x = .locked := fun {w} {_} hw => hw ▸ h.worker w
  intro d hd
  cases next_stepped c a d hd with
  | createTask | dropTask => exact ⟨h.stop, h.popped, h.worker⟩
  | @submit task _ _ hp => exact ⟨(submit_stop _ task _ hp).trans h.stop, h.popped, h.worker⟩
  | notifyStop => exact ⟨rfl, h.popped, h.worker⟩
  | lockHead => exact h.move (.inr rfl) rfl rfl rfl
  | stopNotified => exact h.move (.inl rfl) rfl rfl rfl
  | available _ hc | empty _ hc => cases hstop.symm.trans hc
  | timeout hw | detach hw | execute hw | executed hw => rcases hout hw with hw | hw <;> cases hw

/-- How far a worker is from seeing the stop. -/
def Worker.haltPhase : Worker τ → Nat
  | .found => 6
  | x => x.phase

/-- What a worker does next after a stop brings it forward: to the end of the
task it has, and to its look at the stop. -/
theorem halt (h : Inv c nodes waiting) (hstop : c.pool.stop = true)
    (hm : c.headMutex = none ∨ c.headMutex = some w) :
    (next c (nextAct c w)).Returns fun d => d.pool.stop = true ∧
      (d.headMutex = none ∨ d.headMutex = some w) ∧ (∃ nodes' waiting', Inv d nodes' waiting') ∧
      (nextAct c w = .check w ∧ d.worker w = .idle ∨
        (d.worker w).haltPhase < (c.worker w).haltPhase) := by
  unfold nextAct
  cases hw : c.worker w with
  | idle =>
    have hnext := lockHead_eq h hw (h.mutex_none hm (by rw [hw]; rfl))
    have hinv := (lockHead_ok h w).of_next hnext
    rw [hnext]
    exact ⟨hstop, .inr rfl, ⟨nodes, waiting, hinv⟩, .inr (by simp [Worker.haltPhase, Worker.phase])⟩
  | locked | waiting =>
    have hnext : next c (.check w) = .next { c with
        headMutex := none, worker := Function.update c.worker w .idle } := by
      simp [next, hw, check_eq_stopNotified.mpr hstop]
    have hinv := (check_ok h w).of_next hnext
    rw [hnext]
    exact ⟨hstop, .inl rfl, ⟨nodes, waiting, hinv⟩, .inl ⟨rfl, Function.update_self ..⟩⟩
  | found =>
    obtain ⟨d, task, job, rest, nodes', hd, -, hinv, hdw, -, hstop', hm'⟩ := detach_next h hw
    rw [hd]
    refine ⟨hstop'.trans hstop, .inl hm', ⟨nodes', rest, hinv⟩, .inr ?_⟩
    simp [hdw, Worker.haltPhase, Worker.phase]
  | popped task =>
    obtain ⟨job, hnext⟩ := execute_eq h hw
    have hinv := (execute_ok h w).of_next hnext
    rw [hnext]
    exact ⟨hstop, hm, ⟨nodes, waiting, hinv⟩, .inr (by simp [Worker.haltPhase, Worker.phase])⟩
  | executing job =>
    have hnext := executed_eq hw
    have hinv := (executed_ok h w).of_next hnext
    rw [hnext]
    exact ⟨hstop, hm, ⟨nodes, waiting, hinv⟩, .inr (by simp [Worker.haltPhase, Worker.phase])⟩

/-- **After `notifyStop` at most one more task is taken**: by the worker that,
under the head lock, had found one before the stop. If there was none, no task
is popped any more, whatever is submitted and whoever comes to work. -/
theorem stops (h : Runs.Reachable next Init c) (hstop : c.pool.stop = true) (as : List (Act ω τ)) :
    (Runs.run next c as).Yields fun d => d.pool.stop = true ∧
      (d.popped = c.popped ∨ ∃ w job, c.headMutex = some w ∧ c.worker w = .found ∧
        d.popped = c.popped ++ [job] ∧ d.popped <+: c.submitted) := by
  obtain ⟨nodes, waiting, hv⟩ := reachable_inv h
  intro d hd
  have hafter := run_after hv hstop as d hd
  obtain ⟨nodes', waiting', hv'⟩ := reachable_inv (h.run hd)
  refine ⟨hafter.stop, hafter.popped.imp And.left fun hp => ?_⟩
  obtain ⟨w, job, hw, hp, -⟩ := hp
  refine ⟨w, job, (hv.mutex w).mp (by rw [hw]; rfl), hw, hp, ?_⟩
  -- The oldest task that was not popped is still the one in front.
  obtain ⟨oldest, rest, hx⟩ := List.exists_cons_of_ne_nil (hv.found w hw)
  have hsub := hafter.submitted
  rw [hv'.fifo, hv.fifo, hp, hx, List.append_assoc, List.prefix_append_right_inj] at hsub
  obtain ⟨rfl, -⟩ := List.cons_prefix_cons.mp hsub
  rw [hp, hv.fifo, hx, List.prefix_append_right_inj]
  exact List.cons_prefix_cons.mpr ⟨rfl, List.nil_prefix⟩

/-- A worker has found a task when the stop comes, and takes it. -/
theorem stops_found : ∃ c d : Config Bool Nat,
    Runs.run next (new 0 fun _ => ⟨none, none⟩) [.createTask 1 10, .createTask 2 20, .submit 1, .submit 2,
      .lockHead false, .check false, .notifyStop] = .next c ∧
    Runs.run next c [.detach false, .lockHead true, .check true] = .next d ∧ d.popped = [10] ∧
    d.popped <+: c.submitted := by
  obtain ⟨c, d, hc, hstop, hp, hd, hp'⟩ : ∃ c d : Config Bool Nat,
      Runs.run next (new 0 fun _ => ⟨none, none⟩) [.createTask 1 10, .createTask 2 20, .submit 1,
        .submit 2, .lockHead false, .check false, .notifyStop] = .next c ∧ c.pool.stop = true ∧
      c.popped = [] ∧ Runs.run next c [.detach false, .lockHead true, .check true] = .next d ∧
      d.popped = [10] := ⟨_, _, rfl, rfl, rfl, rfl, rfl⟩
  refine ⟨c, d, hc, hd, hp', ?_⟩
  rcases (stops (.run (.init ⟨0, _, rfl⟩) hc) hstop _ d hd).2 with he | ⟨-, -, -, -, -, hprefix⟩
  · simp [hp, hp'] at he
  · exact hprefix

end ThreadPool
