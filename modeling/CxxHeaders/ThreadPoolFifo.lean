/-
The pool loses no task and keeps their order.

The queue between the two ends is a chain of wrappers (`LinkedQueue.Rep`).
`Inv` says whose each wrapper is, that a worker which has found a task and has
not yet taken it finds the queue still not empty, and that only the holder of
the head lock is in `waitAndPop`: a submit may come between its two halves,
but no other pop.
-/
import CxxHeaders.ThreadPool

open Outcome LinkedQueue

namespace ThreadPool

variable {τ ω : Type}

/-- A wrapper that can be submitted: it has a task, and nothing behind it. -/
def Ready (heap : Nat → Node τ) (a : Nat) : Prop := ∃ job, heap a = ⟨some job, none⟩

/-! ## The critical sections -/

theorem submit_eq {p : ThreadPool τ} {task : Nat} (h : Ready p.heap task) :
    p.submit task = .next { p with heap := link p.heap p.tail task, tail := task } := by
  obtain ⟨job, h⟩ := h
  have hv : (p.heap task).value.isSome := by rw [h]; rfl
  have hn : (p.heap task).next = none := by rw [h]
  simp only [submit, asserting_true hv, asserting_true hn, next_bind, pure_eq]

theorem check_available {p : ThreadPool τ} {as : List Nat} {xs : List τ} (h : Rep p.toQueue as xs)
    (hc : p.check = .available) : xs ≠ [] := by
  unfold check at hc
  split at hc
  · cases hc
  · split at hc
    · next hne => exact fun he => hne (h.head_eq_tail.mpr he)
    · cases hc

theorem detach_eq {p : ThreadPool τ} {as : List Nat} {x : τ} {xs : List τ}
    (h : Rep p.toQueue as (x :: xs)) : ∃ a b bs, as = a :: b :: bs ∧ a ∉ b :: bs ∧
      unlink p.heap a a = ⟨some x, none⟩ ∧ Rep ⟨unlink p.heap a, some b, p.tail⟩ (b :: bs) xs ∧
      p.detach = .next ({ p with heap := unlink p.heap a, head := some b }, a) := by
  obtain ⟨a, b, bs, has, hh, ha, hn, hu, hr⟩ := h.pop
  refine ⟨a, b, bs, has, hn, hu, hr, ?_⟩
  simp [detach, hh, ha]

/-- The second half of a pop and a submit change different wrappers: it does
not matter which of them comes first. -/
theorem detach_submit {p : ThreadPool τ} {as : List Nat} {x : τ} {xs : List τ}
    (h : Rep p.toQueue as (x :: xs)) {task : Nat} (hnew : task ∉ as) (htask : Ready p.heap task) :
    (p.submit task >>= detach) = p.detach >>= fun r => do return (← r.1.submit task, r.2) := by
  obtain ⟨a, b, bs, has, hh, ha, hn, -, -⟩ := h.pop
  have hat : a ≠ task := fun he => hnew (by rw [has, he]; exact List.mem_cons_self)
  have htail : a ≠ p.tail := by
    have hl := h.tail
    rw [has, List.getLast?_cons_cons] at hl
    exact fun he => hn (he ▸ List.mem_of_getLast? hl)
  have hready : Ready (unlink p.heap a) task := by
    obtain ⟨job, hj⟩ := htask
    exact ⟨job, (unlink_of_ne _ hat.symm).trans hj⟩
  have hnode : link p.heap p.tail task a = ⟨some x, some b⟩ := by rw [link_of_ne _ htail hat, ha]
  have hcomm : unlink (link p.heap p.tail task) a = link (unlink p.heap a) p.tail task := by
    funext n
    by_cases hna : n = a
    · rw [hna, link_of_ne _ htail hat]
      simp [unlink, hnode, ha]
    · rw [unlink_of_ne _ hna]
      simp only [link, unlink, Function.update_of_ne hat.symm]
      by_cases hnt : n = task
      · simp [hnt]
      · by_cases hnl : n = p.tail
        · simp [hnl, Function.update_apply]
        · simp [Function.update_of_ne hnt, Function.update_of_ne hnl, Function.update_of_ne hna]
  have hlater : ThreadPool.submit ⟨⟨unlink p.heap a, some b, p.tail⟩, p.stop⟩ task =
      .next ⟨⟨link (unlink p.heap a) p.tail task, some b, task⟩, p.stop⟩ := submit_eq hready
  rw [submit_eq htask]
  simp [detach, hh, hnode, ha, hlater, hcomm]

/-! ## What holds between the steps -/

structure Inv (c : Config ω τ) (nodes : List Nat) (waiting : List τ) : Prop where
  queue : Rep c.pool.toQueue nodes waiting
  owned : ∀ a ∈ nodes, c.owner a = .pool
  ready : ∀ a, c.owner a ≠ .nobody → c.owner a ≠ .pool → Ready c.pool.heap a
  popped : ∀ w task, c.worker w = .popped task → c.owner task = .worker w
  mutex : ∀ w, (c.worker w).isInside = true ↔ c.headMutex = some w
  found : ∀ w, c.worker w = .found → waiting ≠ []
  fifo : c.submitted = c.popped ++ waiting

variable {c : Config ω τ} {nodes : List Nat} {waiting : List τ}

theorem Inv.not_mem (h : Inv c nodes waiting) {a : Nat} (ha : c.owner a ≠ .pool) : a ∉ nodes :=
  fun hm => ha (h.owned a hm)

theorem Inv.owner_tail (h : Inv c nodes waiting) : c.owner c.pool.tail = .pool :=
  h.owned _ (List.mem_of_getLast? h.queue.tail)

theorem init_inv (h : Init c) : ∃ nodes, Inv c nodes [] := by
  obtain ⟨dummy, garbage, rfl⟩ := h
  refine ⟨[dummy], .empty (Function.update_self ..), ?_, ?_, ?_, ?_, ?_, rfl⟩
  · intro a ha
    rw [List.mem_singleton.mp ha]
    simp [new]
  · intro a hn hp
    by_cases hd : a = dummy
    · simp [new, hd] at hp
    · simp [new, hd] at hn
  · intro w task hw
    cases hw
  · intro w
    simp [new, Worker.isInside]
  · intro w hw
    cases hw

/-- Whoever is in `waitAndPop` is there alone. -/
theorem Inv.inside_unique (h : Inv c nodes waiting) {u w : ω} (hu : (c.worker u).isInside = true)
    (hw : (c.worker w).isInside = true) : u = w := by
  have hu' := (h.mutex u).mp hu
  have hw' := (h.mutex w).mp hw
  rw [hu'] at hw'
  exact Option.some.inj hw'

variable [DecidableEq ω]

/-- The head lock is taken: nobody was in `waitAndPop`. -/
theorem Inv.lock (h : Inv c nodes waiting) (hm : c.headMutex = none) {w : ω} {y : Worker τ}
    (hy : y.isInside = true) (u : ω) :
    (Function.update c.worker w y u).isInside = true ↔ some w = some u := by
  by_cases hu : u = w
  · rw [hu, Function.update_self]
    exact ⟨fun _ => rfl, fun _ => hy⟩
  · rw [Function.update_of_ne hu, h.mutex u, hm]
    simp [Ne.symm hu]

/-- It is given back by the one who has it. -/
theorem Inv.unlock (h : Inv c nodes waiting) {w : ω} (hw : (c.worker w).isInside = true) {y : Worker τ}
    (hy : y.isInside = false) (u : ω) :
    (Function.update c.worker w y u).isInside = true ↔ none = some u := by
  have hm := (h.mutex w).mp hw
  by_cases hu : u = w
  · rw [hu, Function.update_self, hy]
    simp
  · rw [Function.update_of_ne hu, h.mutex u, hm]
    simp [Ne.symm hu]

theorem Inv.keep (h : Inv c nodes waiting) {w : ω} {y : Worker τ}
    (hy : y.isInside = (c.worker w).isInside) (u : ω) :
    (Function.update c.worker w y u).isInside = true ↔ c.headMutex = some u := by
  by_cases hu : u = w
  · rw [hu, Function.update_self, hy, h.mutex w]
  · rw [Function.update_of_ne hu, h.mutex u]

/-- A worker goes on, and the pool stays as it is. -/
theorem Inv.move (h : Inv c nodes waiting) {w : ω} {y : Worker τ} {m : Option ω}
    (hm : ∀ u, (Function.update c.worker w y u).isInside = true ↔ m = some u)
    (hp : ∀ task, y ≠ .popped task) (hf : y = .found → waiting ≠ []) :
    Inv { c with headMutex := m, worker := Function.update c.worker w y } nodes waiting := by
  refine ⟨h.queue, h.owned, h.ready, ?_, hm, ?_, h.fifo⟩
  · intro u task hu
    by_cases huw : u = w
    · subst huw
      replace hu : Function.update c.worker u y u = .popped task := hu
      rw [Function.update_self] at hu
      exact absurd hu (hp task)
    · exact h.popped u task ((Function.update_of_ne huw ..).symm.trans hu)
  · intro u hu
    by_cases huw : u = w
    · subst huw
      replace hu : Function.update c.worker u y u = .found := hu
      rw [Function.update_self] at hu
      exact hf hu
    · exact h.found u ((Function.update_of_ne huw ..).symm.trans hu)

/-! ## The steps -/

theorem createTask_ok (h : Inv c nodes waiting) (task : Nat) (job : τ) :
    (next c (.createTask task job)).Ok fun d => Inv d nodes waiting := by
  simp only [next, ok_bind, ok_requiring]
  intro hfree
  have hne : ∀ a, c.owner a ≠ .nobody → a ≠ task := fun a ha he => ha (he ▸ hfree)
  have hkeep : ∀ a, c.owner a ≠ .nobody → Function.update c.owner task .caller a = c.owner a :=
    fun a ha => Function.update_of_ne (hne a ha) ..
  refine ⟨h.queue.frame (h.not_mem (by simp [hfree])) _, ?_, ?_, ?_, h.mutex, h.found, h.fifo⟩
  · intro a ha
    have hpool := h.owned a ha
    exact (hkeep a (by simp [hpool])).trans hpool
  · intro a hn hp
    show Ready (Function.update c.pool.heap task ⟨some job, none⟩) a
    by_cases hat : a = task
    · exact ⟨job, by rw [hat, Function.update_self]⟩
    · have ho : Function.update c.owner task .caller a = c.owner a := Function.update_of_ne hat ..
      obtain ⟨j, hj⟩ := h.ready a (ho ▸ hn) (ho ▸ hp)
      exact ⟨j, (Function.update_of_ne hat ..).trans hj⟩
  · intro w t hw
    have ho := h.popped w t hw
    exact (hkeep t (by simp [ho])).trans ho

theorem dropTask_ok (h : Inv c nodes waiting) (task : Nat) :
    (next c (.dropTask task)).Ok fun d => Inv d nodes waiting := by
  simp only [next, ok_bind, ok_requiring]
  intro hcaller
  have hkeep : ∀ a, c.owner a ≠ .caller → Function.update c.owner task .nobody a = c.owner a :=
    fun a ha => Function.update_of_ne (fun he : a = task => ha (he ▸ hcaller)) ..
  refine ⟨h.queue, ?_, ?_, ?_, h.mutex, h.found, h.fifo⟩
  · intro a ha
    have hpool := h.owned a ha
    exact (hkeep a (by simp [hpool])).trans hpool
  · intro a hn hp
    have hat : a ≠ task := by
      intro he
      rw [he] at hn
      exact hn (Function.update_self ..)
    have ho : Function.update c.owner task .nobody a = c.owner a := Function.update_of_ne hat ..
    exact h.ready a (ho ▸ hn) (ho ▸ hp)
  · intro w t hw
    have ho := h.popped w t hw
    exact (hkeep t (by simp [ho])).trans ho

theorem submit_ok (h : Inv c nodes waiting) (task : Nat) : (next c (.submit task)).Ok fun d =>
    ∃ job, Inv d (nodes ++ [task]) (waiting ++ [job]) := by
  simp only [next, ok_bind, ok_requiring]
  intro hcaller
  have hready : Ready c.pool.heap task :=
    h.ready task (by simp [hcaller]) (by simp [hcaller])
  obtain ⟨job, hnode⟩ := hready
  have hnew : task ∉ nodes := h.not_mem (by simp [hcaller])
  have hkeep : ∀ a, c.owner a ≠ .caller → Function.update c.owner task .pool a = c.owner a :=
    fun a ha => Function.update_of_ne (fun he : a = task => ha (he ▸ hcaller)) ..
  rw [submit_eq ⟨job, hnode⟩, hnode]
  refine ⟨job, h.queue.push hnew hnode, ?_, ?_, ?_, h.mutex, ?_, ?_⟩
  · intro a ha
    rcases List.mem_append.mp ha with hm | hm
    · have hpool := h.owned a hm
      exact (hkeep a (by simp [hpool])).trans hpool
    · rw [List.mem_singleton.mp hm]
      exact Function.update_self ..
  · intro a hn hp
    have hat : a ≠ task := by
      intro he
      rw [he] at hp
      exact hp (Function.update_self ..)
    have ho : Function.update c.owner task .pool a = c.owner a := Function.update_of_ne hat ..
    replace hp : c.owner a ≠ .pool := ho ▸ hp
    have htail : a ≠ c.pool.tail := fun he => hp (he ▸ h.owner_tail)
    obtain ⟨j, hj⟩ := h.ready a (ho ▸ hn) hp
    exact ⟨j, (link_of_ne _ htail hat).trans hj⟩
  · intro w t hw
    have ho := h.popped w t hw
    exact (hkeep t (by simp [ho])).trans ho
  · intro w _
    simp
  · show c.submitted ++ [job] = c.popped ++ (waiting ++ [job])
    rw [h.fifo, List.append_assoc]

theorem lockHead_ok (h : Inv c nodes waiting) (w : ω) :
    (next c (.lockHead w)).Ok fun d => Inv d nodes waiting := by
  simp only [next]
  cases c.worker w with
  | idle =>
    simp only [ok_bind, ok_requiring, ok_asserting]
    intro hm
    refine ⟨?_, h.move (h.lock hm rfl) (fun _ he => by cases he) fun he => by cases he⟩
    rw [h.queue.head, List.isSome_head?]
    simpa using h.queue.chain.ne_nil
  | _ => trivial

theorem check_ok (h : Inv c nodes waiting) (w : ω) :
    (next c (.check w)).Ok fun d => Inv d nodes waiting := by
  simp only [next]
  cases hw : c.worker w with
  | locked | waiting =>
    have hin : (c.worker w).isInside = true := by rw [hw]; rfl
    cases hc : c.pool.check with
    | stopNotified => exact h.move (h.unlock hin rfl) (fun _ he => by cases he) fun he => by cases he
    | available =>
      exact h.move (h.keep hin.symm) (fun _ he => by cases he) fun _ => check_available h.queue hc
    | empty => exact h.move (h.keep hin.symm) (fun _ he => by cases he) fun he => by cases he
  | _ => trivial

theorem timeout_ok (h : Inv c nodes waiting) (w : ω) :
    (next c (.timeout w)).Ok fun d => Inv d nodes waiting := by
  simp only [next]
  cases hw : c.worker w with
  | waiting =>
    exact h.move (h.unlock (by rw [hw]; rfl) rfl) (fun _ he => by cases he) fun he => by cases he
  | _ => trivial

/-- What a pop gives out: the oldest task, in a wrapper of its own. -/
theorem detach_ok (h : Inv c nodes waiting) (w : ω) : (next c (.detach w)).Ok fun d =>
    ∃ task bs job rest, waiting = job :: rest ∧ Inv d bs rest ∧ d.worker w = .popped task ∧
      d.pool.heap task = ⟨some job, none⟩ ∧ d.popped = c.popped ++ [job] ∧
    d.submitted = c.submitted := by
  simp only [next]
  cases hw : c.worker w with
  | found =>
    obtain ⟨job, rest, hx⟩ := List.exists_cons_of_ne_nil (h.found w hw)
    have hq := h.queue
    have hfifo := h.fifo
    rw [hx] at hq hfifo
    obtain ⟨a, b, bs, has, hn, hu, hr, he⟩ := detach_eq hq
    have hown : ∀ n ∈ a :: b :: bs, c.owner n = .pool := has ▸ h.owned
    have hin : (c.worker w).isInside = true := by rw [hw]; rfl
    rw [he]
    refine ⟨a, b :: bs, job, rest, hx, ⟨hr, ?_, ?_, ?_, h.unlock hin rfl, ?_, ?_⟩,
      Function.update_self .., hu, congrArg (fun n => c.popped ++ n.value.toList) hu, rfl⟩
    · intro n hm
      exact (Function.update_of_ne (fun he : n = a => hn (he ▸ hm)) ..).trans
        (hown n (List.mem_cons_of_mem a hm))
    · intro n hno hp
      by_cases hna : n = a
      · exact ⟨job, hna ▸ hu⟩
      · have ho : Function.update c.owner a (.worker w) n = c.owner n := Function.update_of_ne hna ..
        obtain ⟨j, hj⟩ := h.ready n (ho ▸ hno) (ho ▸ hp)
        exact ⟨j, (unlink_of_ne _ hna).trans hj⟩
    · intro u t hut
      by_cases huw : u = w
      · subst huw
        replace hut : Function.update c.worker u (.popped a) u = .popped t := hut
        rw [Function.update_self] at hut
        injection hut with hat
        rw [← hat]
        exact Function.update_self ..
      · have ho := h.popped u t ((Function.update_of_ne huw ..).symm.trans hut)
        have hta : t ≠ a := by
          intro hta
          rw [hta, hown a (by simp)] at ho
          cases ho
        exact (Function.update_of_ne hta ..).trans ho
    · intro u hu'
      by_cases huw : u = w
      · subst huw
        replace hu' : Function.update c.worker u (.popped a) u = .found := hu'
        rw [Function.update_self] at hu'
        cases hu'
      · replace hu' : c.worker u = .found := (Function.update_of_ne huw ..).symm.trans hu'
        exact absurd (h.inside_unique (by rw [hu']; rfl) hin) huw
    · show c.submitted = c.popped ++ (unlink c.pool.heap a a).value.toList ++ rest
      rw [hu, List.append_assoc]
      exact hfifo
  | _ => trivial

theorem execute_ok (h : Inv c nodes waiting) (w : ω) :
    (next c (.execute w)).Ok fun d => Inv d nodes waiting := by
  simp only [next]
  cases hw : c.worker w with
  | popped task =>
    have ho := h.popped w task hw
    obtain ⟨job, hnode⟩ := h.ready task (by simp [ho]) (by simp [ho])
    simp only [hnode]
    have hmove :=
      h.move (w := w) (y := .executing job) (h.keep (by rw [hw]; rfl)) (fun _ he => by cases he)
        fun he => by cases he
    refine ⟨h.queue, ?_, ?_, ?_, hmove.mutex, hmove.found, h.fifo⟩
    · intro a ha
      have hpool := h.owned a ha
      have hat : a ≠ task := by
        intro he
        rw [he, ho] at hpool
        cases hpool
      exact (Function.update_of_ne hat ..).trans hpool
    · intro a hn hp
      by_cases hat : a = task
      · exact ⟨job, hat ▸ hnode⟩
      · have ho' : Function.update c.owner task .caller a = c.owner a := Function.update_of_ne hat ..
        exact h.ready a (ho' ▸ hn) (ho' ▸ hp)
    · intro u t hu
      have hut := hmove.popped u t hu
      by_cases htt : t = task
      · have huw : u ≠ w := by
          intro huw
          replace hu : Function.update c.worker w (.executing job) u = .popped t := hu
          rw [huw, Function.update_self] at hu
          cases hu
        rw [htt] at hut
        replace hut : c.owner task = .worker u := hut
        rw [ho] at hut
        injection hut with hwu
        exact absurd hwu.symm huw
      · exact (Function.update_of_ne htt ..).trans hut
  | _ => trivial

theorem executed_ok (h : Inv c nodes waiting) (w : ω) :
    (next c (.executed w)).Ok fun d => Inv d nodes waiting := by
  simp only [next]
  cases hw : c.worker w with
  | executing job =>
    exact h.move (h.keep (by rw [hw]; rfl)) (fun _ he => by cases he) fun he => by cases he
  | _ => trivial

theorem next_ok (h : Inv c nodes waiting) (a : Act ω τ) :
    (next c a).Ok fun d => ∃ nodes waiting, Inv d nodes waiting := by
  have hsame : ∀ {x : Outcome (Config ω τ)}, (x.Ok fun d => Inv d nodes waiting) →
      x.Ok fun d => ∃ nodes waiting, Inv d nodes waiting := fun hx => hx.mono fun _ hd => ⟨_, _, hd⟩
  cases a with
  | createTask task job => exact hsame (createTask_ok h task job)
  | dropTask task => exact hsame (dropTask_ok h task)
  | submit task => exact (submit_ok h task).mono fun d hd => hd.elim fun job hj => ⟨_, _, hj⟩
  | notifyStop => exact ⟨nodes, waiting, h.queue, h.owned, h.ready, h.popped, h.mutex, h.found, h.fifo⟩
  | lockHead w => exact hsame (lockHead_ok h w)
  | check w => exact hsame (check_ok h w)
  | timeout w => exact hsame (timeout_ok h w)
  | detach w =>
    refine (detach_ok h w).mono fun d hd => ?_
    obtain ⟨-, bs, -, rest, -, hd, -⟩ := hd
    exact ⟨bs, rest, hd⟩
  | execute w => exact hsame (execute_ok h w)
  | executed w => exact hsame (executed_ok h w)

/-! ## Every run -/

theorem reachable_inv (h : Runs.Reachable next Init c) : ∃ nodes waiting, Inv c nodes waiting :=
  h.invariant (I := fun c => ∃ nodes waiting, Inv c nodes waiting)
    (fun _ hi => (init_inv hi).elim fun nodes hn => ⟨nodes, [], hn⟩)
    fun _ a hv => hv.elim fun _ hv => hv.elim fun _ hv => next_ok hv a

/-- **The queue of a pool is lossless and in order.** In whatever order the
sections of `submit` and `waitAndPop` are run, by any number of threads: the
wrappers from `m_head` on are linked up to `m_tail`, all but the last hold a
task and the last one holds none; the tasks popped, and then those in the
list, are the tasks submitted, in order; a pop gives out the oldest task of
the list, in a wrapper with that task and nothing behind it; whoever has a
wrapper, fresh or popped, can submit it; and no assertion fails. -/
theorem losslessFifo (h : Runs.Reachable next Init c) :
    (∃ nodes waiting, Rep c.pool.toQueue nodes waiting ∧ c.submitted = c.popped ++ waiting ∧
      ∀ w d, next c (.detach w) = .next d → ∃ task job rest, waiting = job :: rest ∧
        d.worker w = .popped task ∧ d.pool.heap task = ⟨some job, none⟩ ∧
        d.popped = c.popped ++ [job] ∧ d.submitted = c.submitted) ∧
    (∀ w task, c.worker w = .popped task → c.owner task = .worker w ∧ Ready c.pool.heap task) ∧
    (∀ task, c.owner task = .caller → Ready c.pool.heap task ∧ (next c (.submit task)).isNext) ∧
    (∀ u w, (c.worker u).isInside = true → (c.worker w).isInside = true → u = w) ∧
    ∀ a, next c a ≠ .failed := by
  obtain ⟨nodes, waiting, hv⟩ := reachable_inv h
  refine ⟨⟨nodes, waiting, hv.queue, hv.fifo, ?_⟩, ?_, ?_, fun u w => hv.inside_unique,
    fun a => (next_ok hv a).not_failed⟩
  · intro w d hd
    obtain ⟨task, -, job, rest, hx, -, hw, hnode, hp, hs⟩ := (detach_ok hv w).of_next hd
    exact ⟨task, job, rest, hx, hw, hnode, hp, hs⟩
  · intro w task hw
    have ho := hv.popped w task hw
    exact ⟨ho, hv.ready task (by simp [ho]) (by simp [ho])⟩
  · intro task ho
    have hr : Ready c.pool.heap task :=
      hv.ready task (by simp [ho]) (by simp [ho])
    refine ⟨hr, ?_⟩
    simp [next, requiring_true ho, submit_eq hr, isNext]

/-- Two tasks, the second submitted in the middle of the pop of the first,
which is then submitted again in the wrapper it came back in. -/
def resubmission : List (Act Bool Nat) :=
  [.createTask 1 10, .createTask 2 20, .lockHead false, .check false, .submit 1, .check false, .submit 2,
   .detach false, .execute false, .submit 0, .executed false]

theorem losslessFifo_resubmission : ∃ c : Config Bool Nat,
    Runs.run next (new 0 fun _ => ⟨none, none⟩) resubmission = .next c ∧
    c.submitted = [10, 20, 10] ∧ c.popped = [10] ∧ ∀ a, next c a ≠ .failed := by
  obtain ⟨c, hc, hs, hp⟩ : ∃ c : Config Bool Nat,
    Runs.run next (new 0 fun _ => ⟨none, none⟩) resubmission = .next c ∧
      c.submitted = [10, 20, 10] ∧ c.popped = [10] := ⟨_, rfl, rfl, rfl⟩
  exact ⟨c, hc, hs, hp, (losslessFifo (.run (.init ⟨0, _, rfl⟩) hc)).2.2.2.2⟩

end ThreadPool
