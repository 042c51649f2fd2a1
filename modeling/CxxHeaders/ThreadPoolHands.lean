/-
Who has which task of a pool.

Outside the queue a task is in the wrapper that a worker has popped (`hand`),
or in one that a caller owns (`held`): fresh, or given to a job that runs.
`next_effect` says what each step does to these and to the queue, without the
wrappers that do it.
-/
import CxxHeaders.ThreadPoolSleepers

open Outcome LinkedQueue

namespace ThreadPool

variable {τ ω : Type}

/-- The task that a worker has popped and not yet executed. -/
def Config.hand (c : Config ω τ) (w : ω) : Option τ :=
  match c.worker w with
  | .popped task => (c.pool.heap task).value
  | _ => none

variable {c d : Config ω τ}

theorem hand_of_popped {w : ω} {task : Nat} (hw : c.worker w = .popped task) :
    c.hand w = (c.pool.heap task).value := by
  simp [Config.hand, hw]

theorem hand_of_not_popped {w : ω} (hw : ∀ task, c.worker w ≠ .popped task) : c.hand w = none := by
  unfold Config.hand
  split
  · next task ht => exact absurd ht (hw task)
  · rfl

variable [DecidableEq ω]

/-- The task in a wrapper that a caller owns. -/
def Config.held (c : Config ω τ) (a : Nat) : Option τ :=
  if c.owner a = .caller then (c.pool.heap a).value else none

/-- What an action does to the tasks. -/
def Effect (c d : Config ω τ) (waiting waiting' : List τ) : Act ω τ → Prop
  | .createTask task job =>
    waiting' = waiting ∧ d.hand = c.hand ∧ c.held task = none ∧
      d.held = Function.update c.held task (some job)
  | .dropTask task =>
    waiting' = waiting ∧ d.hand = c.hand ∧ d.held = Function.update c.held task none
  | .submit task => ∃ job, c.held task = some job ∧
    waiting' = waiting ++ [job] ∧ d.hand = c.hand ∧ d.held = Function.update c.held task none
  | .detach w => c.worker w = .found ∧ ∃ job,
    waiting = job :: waiting' ∧ d.hand = Function.update c.hand w (some job) ∧ d.held = c.held
  | .execute w => ∃ task job, c.worker w = .popped task ∧ c.hand w = some job ∧
    d.worker = Function.update c.worker w (.executing job) ∧ waiting' = waiting ∧
      d.hand = Function.update c.hand w none ∧ d.held = Function.update c.held task (some job)
  | .executed w => d.worker w = .idle ∧ waiting' = waiting ∧ d.hand = c.hand ∧ d.held = c.held
  | _ => waiting' = waiting ∧ d.hand = c.hand ∧ d.held = c.held

variable {nodes : List Nat} {waiting : List τ}

omit [DecidableEq ω] in
/-- What workers have popped stays what it is. -/
theorem Inv.hand_eq (h : Inv c nodes waiting) (hworker : d.worker = c.worker)
    (hheap : ∀ a w, c.owner a = .worker w → d.pool.heap a = c.pool.heap a) : d.hand = c.hand := by
  funext w
  cases hw : c.worker w with
  | popped task =>
    rw [hand_of_popped hw, hand_of_popped ((congrFun hworker w).trans hw), hheap task w (h.popped w task hw)]
  | _ =>
    have hd : d.hand w = none := hand_of_not_popped (by simp [hworker, hw])
    rw [hd, hand_of_not_popped (by simp [hw])]

/-- One worker goes on, with another task or with none. -/
theorem hand_update {w : ω} {y : Worker τ} (hworker : d.worker = Function.update c.worker w y)
    (hheap : ∀ u task, u ≠ w → c.worker u = .popped task → d.pool.heap task = c.pool.heap task) :
    d.hand = Function.update c.hand w (d.hand w) := by
  funext u
  by_cases hu : u = w
  · rw [hu, Function.update_self]
  · rw [Function.update_of_ne hu]
    have hsame : d.worker u = c.worker u := by rw [hworker, Function.update_of_ne hu]
    cases hw : c.worker u with
    | popped task => rw [hand_of_popped hw, hand_of_popped (hsame.trans hw), hheap u task hu hw]
    | _ =>
      have hd : d.hand u = none := hand_of_not_popped (by simp [hsame, hw])
      rw [hd, hand_of_not_popped (by simp [hw])]

/-- A worker that had nothing in hand goes on without a task. -/
theorem hand_keep {w : ω} {y : Worker τ} (hw : ∀ task, c.worker w ≠ .popped task)
    (hy : ∀ task, y ≠ .popped task) (hworker : d.worker = Function.update c.worker w y)
    (hheap : d.pool.heap = c.pool.heap) : d.hand = c.hand := by
  have hnone : d.hand w = c.hand w := by
    have hd : d.hand w = none := hand_of_not_popped (by rw [hworker, Function.update_self]; exact hy)
    rw [hd, hand_of_not_popped hw]
  rw [hand_update hworker fun _ _ _ _ => by rw [hheap], hnone]
  exact Function.update_eq_self w c.hand

/-- One wrapper changes hands. -/
theorem held_update {task : Nat} {o : Owner ω} {x : Option τ}
    (howner : d.owner = Function.update c.owner task o)
    (hheap : ∀ a, a ≠ task → c.owner a = .caller → d.pool.heap a = c.pool.heap a)
    (hx : (if o = .caller then (d.pool.heap task).value else none) = x) :
    d.held = Function.update c.held task x := by
  funext a
  by_cases ha : a = task
  · rw [ha, Function.update_self, Config.held, howner, Function.update_self, hx]
  · rw [Function.update_of_ne ha, Config.held, Config.held, howner, Function.update_of_ne ha]
    split
    · next hc => rw [hheap a ha hc]
    · rfl

theorem held_none {a : Nat} (ha : c.owner a ≠ .caller) : c.held a = none := if_neg ha

theorem held_eq {a : Nat} (ha : c.owner a = .caller) : c.held a = (c.pool.heap a).value := if_pos ha

theorem Inv.effect_submit (h : Inv c nodes waiting) {task : Nat} (hd : next c (.submit task) = .next d) :
    ∃ nodes' waiting', Inv d nodes' waiting' ∧ Effect c d waiting waiting' (.submit task) := by
  obtain ⟨job, hinv⟩ := (submit_ok h task).of_next hd
  simp only [next, bind_eq_next, requiring_eq_next] at hd
  obtain ⟨-, hcaller, p, hp, hd⟩ := hd
  obtain ⟨job', hnode⟩ := h.ready task (by simp [hcaller]) (by simp [hcaller])
  have hfifo := hinv.fifo
  rw [submit_eq ⟨job', hnode⟩] at hp
  cases hp
  simp only [pure_eq, Outcome.next.injEq] at hd
  subst hd
  have hjob : job' = job := by
    rw [h.fifo, hnode] at hfifo
    simpa using hfifo
  subst hjob
  have hother : ∀ a, a ≠ task → c.owner a ≠ .pool →
      link c.pool.heap c.pool.tail task a = c.pool.heap a := fun a hat hap =>
    link_of_ne _ (fun he => hap (he ▸ h.owner_tail)) hat
  refine ⟨_, _, hinv, job', by rw [held_eq hcaller, hnode], rfl, ?_, ?_⟩
  · refine h.hand_eq rfl fun a w ha => hother a (fun he => ?_) (by simp [ha])
    rw [he, hcaller] at ha
    cases ha
  · exact held_update (c := c) (o := .pool) rfl (fun a hat ha => hother a hat (by simp [ha])) rfl

theorem Inv.effect_detach (h : Inv c nodes waiting) {w : ω} (hd : next c (.detach w) = .next d) :
    ∃ nodes' waiting', Inv d nodes' waiting' ∧ Effect c d waiting waiting' (.detach w) := by
  obtain ⟨task, bs, job, rest, hx, hinv, hdw, hnode, -, -⟩ := (detach_ok h w).of_next hd
  refine ⟨bs, rest, hinv, ?_⟩
  cases next_stepped _ _ _ hd with
  | @detach _ p a hfound hp =>
    have hq := h.queue
    rw [hx] at hq
    obtain ⟨a', b, bs', has, hn, -, -, he⟩ := detach_eq hq
    obtain ⟨rfl, rfl⟩ := Prod.mk.inj (Outcome.next.inj (he.symm.trans hp))
    have hat : a' = task := by
      replace hdw : Function.update c.worker w (.popped a') w = .popped task := hdw
      rw [Function.update_self] at hdw
      injection hdw
    subst hat
    have hpool : c.owner a' = .pool := h.owned a' (by rw [has]; exact List.mem_cons_self)
    refine ⟨hfound, job, hx, ?_, ?_⟩
    · rw [hand_update rfl fun u t _ hut => ?_, hand_of_popped (Function.update_self ..), hnode]
      refine unlink_of_ne _ fun he => ?_
      have ho := h.popped u t hut
      rw [he, hpool] at ho
      cases ho
    · have hnone : c.held a' = none := held_none (by simp [hpool])
      rw [held_update (c := c) (o := .worker w) rfl (fun t hta _ => unlink_of_ne _ hta) hnone.symm]
      exact Function.update_eq_self a' c.held

theorem Inv.effect_execute (h : Inv c nodes waiting) {w : ω} (hd : next c (.execute w) = .next d) :
    ∃ nodes' waiting', Inv d nodes' waiting' ∧ Effect c d waiting waiting' (.execute w) := by
  refine ⟨nodes, waiting, (execute_ok h w).of_next hd, ?_⟩
  cases next_stepped _ _ _ hd with
  | @execute _ task job hw hnode =>
    refine ⟨task, job, hw, by rw [hand_of_popped hw, hnode], rfl, rfl, ?_, ?_⟩
    · refine Eq.trans (hand_update (y := .executing job) rfl fun _ _ _ _ => rfl) ?_
      exact congrArg (Function.update c.hand w) (hand_of_not_popped fun t => by simp)
    · exact held_update (c := c) (o := .caller) rfl (fun _ _ _ => rfl) (by rw [if_pos rfl, hnode])

/-- **What a step does to the tasks.** -/
theorem next_effect (h : Inv c nodes waiting) {a : Act ω τ} (hd : next c a = .next d) :
    ∃ nodes' waiting', Inv d nodes' waiting' ∧ Effect c d waiting waiting' a := by
  cases next_stepped c a d hd with
  | @createTask task job hfree =>
    refine ⟨nodes, waiting, (createTask_ok h task job).of_next hd, rfl, h.hand_eq rfl fun a w ha => ?_,
      held_none (by simp [hfree]), ?_⟩
    · refine Function.update_of_ne (fun he => ?_) ..
      rw [he, hfree] at ha
      cases ha
    · refine held_update (c := c) (o := .caller) rfl (fun a hat _ => Function.update_of_ne hat ..) ?_
      simp
  | dropTask task =>
    exact ⟨nodes, waiting, (dropTask_ok h task).of_next hd, rfl, rfl,
      held_update (c := c) (o := .nobody) rfl (fun _ _ _ => rfl) rfl⟩
  | submit => exact h.effect_submit hd
  | notifyStop =>
    exact ⟨nodes, waiting, ⟨h.queue, h.owned, h.ready, h.popped, h.mutex, h.found, h.fifo⟩, rfl, rfl, rfl⟩
  | @lockHead w hw =>
    exact ⟨nodes, waiting, (lockHead_ok h w).of_next hd, rfl, hand_keep (by simp [hw]) (by simp) rfl rfl, rfl⟩
  | @stopNotified w hw | @available w hw | @empty w hw =>
    have hnot : ∀ t, c.worker w ≠ .popped t := fun t => by rcases hw with hw | hw <;> simp [hw]
    exact ⟨nodes, waiting, (check_ok h w).of_next hd, rfl, hand_keep hnot (by simp) rfl rfl, rfl⟩
  | @timeout w hw =>
    exact ⟨nodes, waiting, (timeout_ok h w).of_next hd, rfl, hand_keep (by simp [hw]) (by simp) rfl rfl, rfl⟩
  | detach => exact h.effect_detach hd
  | execute => exact h.effect_execute hd
  | @executed w _ hw =>
    exact ⟨nodes, waiting, (executed_ok h w).of_next hd, Function.update_self .., rfl,
      hand_keep (by simp [hw]) (by simp) rfl rfl, rfl⟩

/-- Who executes a task does nothing else for the pool. -/
theorem executing_acts {w : ω} {job : τ} (hw : c.worker w = .executing job) {a : Act ω τ}
    (ha : actor a = some w) (hd : next c a = .next d) : a = .executed w := by
  cases next_stepped c a d hd with
  | executed =>
    cases ha
    rfl
  | lockHead hv | timeout hv | detach hv | execute hv =>
    cases ha
    cases hw.symm.trans hv
  | stopNotified hv | available hv | empty hv =>
    cases ha
    rcases hv with hv | hv <;> cases hw.symm.trans hv
  | _ => cases ha

/-- Only `notifyStop` stops a pool, and nothing starts it again. -/
theorem next_stop {a : Act ω τ} (ha : a ≠ .notifyStop) : (next c a).Yields fun d =>
    d.pool.stop = c.pool.stop := by
  intro d hd
  cases next_stepped c a d hd with
  | notifyStop => exact absurd rfl ha
  | @submit task _ _ hp => exact submit_stop _ task _ hp
  | detach _ hp => exact detach_stop _ _ hp
  | _ => rfl

/-- The step of a pool, with all that is known of it. -/
theorem effect_ok (h : Inv c nodes waiting) (a : Act ω τ) : (next c a).Ok fun d =>
    ∃ nodes' waiting', Inv d nodes' waiting' ∧ Effect c d waiting waiting' a ∧
      (∀ w, actor a ≠ some w → d.worker w = c.worker w) ∧
      (∀ w job, c.worker w = .executing job → a ≠ .executed w → d.worker w = .executing job) ∧
      (a ≠ .notifyStop → d.pool.stop = c.pool.stop) := by
  have hok := next_ok h a
  cases hd : next c a with
  | next d =>
    obtain ⟨nodes', waiting', hinv, heffect⟩ := next_effect h hd
    have hothers := (next_others a d hd).1
    refine ⟨nodes', waiting', hinv, heffect, hothers, fun w job hw ha => ?_, fun ha => next_stop ha d hd⟩
    exact (hothers w fun hact => ha (executing_acts hw hact hd)).trans hw
  | failed => simp [hd] at hok
  | _ => trivial

end ThreadPool
