/-
The worker takes the tasks in the order of their time points, each once and not
before its time, and sleeps no longer than it may (`in_order`).

`Inv` says of every place where the worker can stand what it has found out
there: the time point that it waits for is one of a task in the set, so that
after a time-out the first task is due, whichever task that is by then.
-/
import CxxHeaders.TimeoutsThread

open Outcome StableInsert

namespace TimeoutsThread

variable {τ : Type} [LinearOrder τ] {c : Config τ}

/-- What the worker knows. -/
def Knows (c : Config τ) : Prop :=
  match c.worker with
  | .waiting notified => c.thread.tasks = [] ∨ notified = true
  | .choosing => c.thread.tasks ≠ []
  | .waitingUntil timePoint notified =>
    (∃ t ∈ c.thread.tasks, c.thread.timePoint t ≤ timePoint) ∧
      ((∀ t ∈ c.thread.tasks, timePoint ≤ c.thread.timePoint t) ∨ notified = true)
  | .due => ∃ t ∈ c.thread.tasks, c.thread.timePoint t ≤ c.now
  | .took task => c.owner task = .thread ∧ task ∉ c.thread.tasks ∧ c.thread.selfPtr task = false ∧
    (task = c.stop → c.thread.stopTask = false)
  | _ => True

/-- What was taken was executed, but for what is in hand. -/
def Executed (c : Config τ) : Prop :=
  match c.worker with
  | .took task => c.taken = c.executed ++ [c.stamp task]
  | .stopped => ∃ i, c.taken = c.executed ++ [i]
  | _ => c.taken = c.executed

/-- The stop task was taken. -/
def TookStop (c : Config τ) : Prop := ∃ i ∈ c.taken, ∃ timePoint, c.added[i]? = some (c.stop, timePoint)

def Stopping (c : Config τ) : Prop := c.worker = .took c.stop ∨ c.worker = .stopped

omit [LinearOrder τ] in
theorem Stopping.notify (h : Stopping c) : Stopping { c with worker := c.worker.notify } := by
  rcases h with hw | hw
  · exact .inl (congrArg Worker.notify hw)
  · exact .inr (congrArg Worker.notify hw)

structure Inv (c : Config τ) : Prop where
  order : c.thread.tasks.Pairwise (Before c.thread.timePoint c.stamp)
  owned : ∀ t ∈ c.thread.tasks, c.owner t = .thread ∧ c.thread.selfPtr t = true
  stamped : ∀ t ∈ c.thread.tasks, c.added[c.stamp t]? = some (t, c.thread.timePoint t) ∧ c.stamp t ∉ c.taken
  callers : ∀ t, c.owner t = .caller → c.thread.selfPtr t = false
  calls : ∀ t, c.owner t = .call → c.thread.selfPtr t = true
  stopTask : c.thread.stopTask = true →
    c.owner c.stop = .thread ∧ c.stop ∉ c.thread.tasks ∧ c.thread.selfPtr c.stop = false
  nodup : c.taken.Nodup
  taken : ∀ i ∈ c.taken, i < c.added.length
  knows : Knows c
  executed : Executed c
  tookStop : TookStop c → Stopping c

theorem init_inv (h : Init c) : Inv c := by
  obtain ⟨stop, now, garbage, rfl⟩ := h
  refine ⟨.nil, nofun, nofun, fun _ _ => rfl, fun t ht => ?_, fun _ => ⟨?_, nofun, rfl⟩, .nil, nofun, trivial,
    rfl, ?_⟩
  · by_cases hts : t = stop
    · rw [hts] at ht
      simp [new] at ht
    · simp [new, hts] at ht
  · exact Function.update_self (β := fun _ => Owner) stop .thread fun _ => .nobody
  · intro hstop
    obtain ⟨i, hi, -⟩ := hstop
    cases hi

theorem Inv.stamp_lt (h : Inv c) {t : Nat} (ht : t ∈ c.thread.tasks) : c.stamp t < c.added.length :=
  (List.getElem?_eq_some_iff.mp (h.stamped t ht).1).1

theorem Inv.not_mem (h : Inv c) {t : Nat} (ht : c.owner t ≠ .thread) : t ∉ c.thread.tasks :=
  fun hm => ht (h.owned t hm).1

theorem Inv.took (h : Inv c) {t : Nat} (hw : c.worker = .took t) :
    c.owner t = .thread ∧ t ∉ c.thread.tasks ∧ c.thread.selfPtr t = false ∧
      (t = c.stop → c.thread.stopTask = false) := by
  have hk := h.knows
  unfold Knows at hk
  rw [hw] at hk
  exact hk

theorem Inv.not_took (h : Inv c) {t : Nat} (ht : c.owner t ≠ .thread) : c.worker ≠ .took t :=
  fun hw => ht (h.took hw).1

theorem Inv.stop_ne (h : Inv c) {t : Nat} (ht : c.owner t ≠ .thread) (hs : c.thread.stopTask = true) :
    c.stop ≠ t :=
  fun he => ht (he ▸ (h.stopTask hs).1)

/-! ## Tasks that are not in the set -/

/-- Neither in the set nor in the worker's hand. -/
theorem Inv.touch (h : Inv c) {task : Nat} (hmem : task ∉ c.thread.tasks) (hhand : c.worker ≠ .took task)
    (selfPtr : Bool) (timePoint : τ) (owner : Owner) (stopTask : Bool)
    (hstop : stopTask = true → c.thread.stopTask = true ∧ c.stop ≠ task)
    (hcaller : owner = .caller → selfPtr = false) (hcall : owner = .call → selfPtr = true) :
    Inv { c with
      thread := { c.thread with
        stopTask, selfPtr := Function.update c.thread.selfPtr task selfPtr
        timePoint := Function.update c.thread.timePoint task timePoint }
      owner := Function.update c.owner task owner } := by
  have hne : ∀ t ∈ c.thread.tasks, t ≠ task := fun t ht he => hmem (he ▸ ht)
  have htime : ∀ t ∈ c.thread.tasks,
      Function.update c.thread.timePoint task timePoint t = c.thread.timePoint t :=
    fun t ht => Function.update_of_ne (hne t ht) _ _
  refine ⟨pairwise_congr h.order htime fun _ _ => rfl, fun t ht => ?_, fun t ht => ?_, fun t ht => ?_,
    fun t ht => ?_, fun hs => ?_, h.nodup, h.taken, ?_, h.executed, h.tookStop⟩
  · obtain ⟨howner, hself⟩ := h.owned t ht
    exact ⟨(Function.update_of_ne (hne t ht) _ _).trans howner,
      (Function.update_of_ne (hne t ht) _ _).trans hself⟩
  · obtain ⟨hadded, htaken⟩ := h.stamped t ht
    refine ⟨?_, htaken⟩
    show c.added[c.stamp t]? = some (t, Function.update c.thread.timePoint task timePoint t)
    rw [htime t ht]
    exact hadded
  · show Function.update c.thread.selfPtr task selfPtr t = false
    by_cases htt : t = task
    · subst htt
      rw [Function.update_self]
      exact hcaller (by simpa using ht)
    · rw [Function.update_of_ne htt]
      exact h.callers t (by simpa [htt] using ht)
  · show Function.update c.thread.selfPtr task selfPtr t = true
    by_cases htt : t = task
    · subst htt
      rw [Function.update_self]
      exact hcall (by simpa using ht)
    · rw [Function.update_of_ne htt]
      exact h.calls t (by simpa [htt] using ht)
  · obtain ⟨hs, hst⟩ := hstop hs
    obtain ⟨howner, hmem, hself⟩ := h.stopTask hs
    exact ⟨(Function.update_of_ne hst _ _).trans howner, hmem, (Function.update_of_ne hst _ _).trans hself⟩
  · have hk := h.knows
    unfold Knows at hk ⊢
    cases hw : c.worker with
    | waitingUntil limit notified =>
      rw [hw] at hk
      obtain ⟨⟨t, ht, hle⟩, hleast⟩ := hk
      refine ⟨⟨t, ht, (htime t ht).trans_le hle⟩, hleast.imp_left fun hall u hu => ?_⟩
      exact (hall u hu).trans_eq (htime u hu).symm
    | due =>
      rw [hw] at hk
      obtain ⟨t, ht, hle⟩ := hk
      exact ⟨t, ht, (htime t ht).trans_le hle⟩
    | took t =>
      rw [hw] at hk
      obtain ⟨howner, hmem, hself, hts⟩ := hk
      have htt : t ≠ task := fun he => hhand (he ▸ hw)
      refine ⟨(Function.update_of_ne htt _ _).trans howner, hmem,
        (Function.update_of_ne htt _ _).trans hself, fun he => ?_⟩
      cases hst : stopTask with
      | false => rfl
      | true => exact absurd (hts he) (by rw [(hstop hst).1]; exact nofun)
    | waiting notified => rw [hw] at hk; exact hk
    | choosing => rw [hw] at hk; exact hk
    | _ => trivial

theorem createTask_ok (h : Inv c) (epoch : τ) (task : Nat) : (next epoch c (.createTask task)).Ok Inv := by
  simp only [next, ok_bind, ok_requiring]
  intro hfree
  have hno : c.owner task ≠ .thread := by simp [hfree]
  have htouch := h.touch (h.not_mem hno) (h.not_took hno) false (c.thread.timePoint task) .caller
    c.thread.stopTask (fun hs => ⟨hs, h.stop_ne hno hs⟩) (fun _ => rfl) (by simp)
  simp only [Function.update_eq_self] at htouch
  exact htouch

theorem dropTask_ok (h : Inv c) (epoch : τ) (task : Nat) : (next epoch c (.dropTask task)).Ok Inv := by
  simp only [next, ok_bind, ok_requiring]
  intro hcaller
  have hno : c.owner task ≠ .thread := by simp [hcaller]
  have htouch := h.touch (h.not_mem hno) (h.not_took hno) (c.thread.selfPtr task) (c.thread.timePoint task)
    .nobody c.thread.stopTask (fun hs => ⟨hs, h.stop_ne hno hs⟩) (by simp) (by simp)
  simp only [Function.update_eq_self] at htouch
  exact htouch

theorem addTask_ok (h : Inv c) (epoch : τ) (task : Nat) (timePoint : τ) :
    (next epoch c (.addTask task timePoint)).Ok Inv := by
  simp only [next, ok_bind, ok_requiring]
  intro hcaller
  have hno : c.owner task ≠ .thread := by simp [hcaller]
  have hself : ¬c.thread.selfPtr task := by simp [h.callers task hcaller]
  simp only [prepare, ok_bind, asserting_true hself]
  exact h.touch (h.not_mem hno) (h.not_took hno) true timePoint .call c.thread.stopTask
    (fun hs => ⟨hs, h.stop_ne hno hs⟩) (by simp) fun _ => rfl

theorem stop_ok (h : Inv c) (epoch : τ) : (next epoch c .stop).Ok Inv := by
  simp only [next]
  split
  next hs =>
    obtain ⟨-, hmem, hself⟩ := h.stopTask hs
    have hself : ¬c.thread.selfPtr c.stop := by simp [hself]
    have hhand : c.worker ≠ .took c.stop := fun hw => by
      have hfalse := (h.took hw).2.2.2 rfl
      rw [hs] at hfalse
      cases hfalse
    simp only [prepare, ok_bind, asserting_true hself]
    exact h.touch hmem hhand true epoch .call false (by simp) (by simp) fun _ => rfl
  next => exact h

/-! ## The worker -/

/-- It has no task in hand. -/
def Worker.seeking : Worker τ → Bool
  | .took _ | .stopped => false
  | _ => true

theorem Inv.seeking (h : Inv c) (hw : c.worker.seeking = true) : c.taken = c.executed ∧ ¬TookStop c := by
  constructor
  · have he := h.executed
    unfold Executed at he
    split at he
    next hs => rw [hs] at hw; cases hw
    next hs => rw [hs] at hw; cases hw
    next => exact he
  · intro hstop
    rcases h.tookStop hstop with hs | hs <;> rw [hs] at hw <;> cases hw

/-- The worker moves on. -/
theorem Inv.move (h : Inv c) (hw : c.worker.seeking = true) {w : Worker τ} (hw' : w.seeking = true)
    (hk : Knows { c with worker := w }) : Inv { c with worker := w } := by
  obtain ⟨he, hstop⟩ := h.seeking hw
  refine ⟨h.order, h.owned, h.stamped, h.callers, h.calls, h.stopTask, h.nodup, h.taken, hk, ?_,
    fun hs => absurd hs hstop⟩
  unfold Executed
  cases w with
  | took task => cases hw'
  | stopped => cases hw'
  | _ => exact he

theorem lock_ok (h : Inv c) (epoch : τ) : (next epoch c .lock).Ok Inv := by
  simp only [next]
  cases hw : c.worker with
  | starting => exact h.move (by rw [hw]; rfl) rfl trivial
  | _ => trivial

theorem look_ok (h : Inv c) (epoch : τ) : (next epoch c .look).Ok Inv := by
  simp only [next]
  cases hw : c.worker with
  | locked =>
    have hseek : c.worker.seeking = true := by rw [hw]; rfl
    cases htasks : c.thread.tasks with
    | nil => exact h.move hseek rfl (.inl htasks)
    | cons task rest => exact h.move hseek rfl fun he => by cases htasks.symm.trans he
  | _ => trivial

/-- The first task has the least time point. -/
theorem Inv.least (h : Inv c) {task : Nat} {rest : List Nat} (htasks : c.thread.tasks = task :: rest) :
    ∀ t ∈ c.thread.tasks, c.thread.timePoint task ≤ c.thread.timePoint t := by
  have horder := h.order
  rw [htasks] at horder ⊢
  intro t ht
  rcases List.mem_cons.mp ht with rfl | ht
  · exact le_refl _
  · exact ((List.pairwise_cons.mp horder).1 t ht).le

theorem choose_ok (h : Inv c) (epoch : τ) : (next epoch c .choose).Ok Inv := by
  simp only [next]
  cases hw : c.worker with
  | choosing =>
    have hseek : c.worker.seeking = true := by rw [hw]; rfl
    have hk := h.knows
    unfold Knows at hk
    rw [hw] at hk
    cases htasks : c.thread.tasks with
    | nil => exact hk htasks
    | cons task rest =>
      have hmem : task ∈ c.thread.tasks := by rw [htasks]; exact List.mem_cons_self
      dsimp only
      split
      next hdue => exact h.move hseek rfl ⟨task, hmem, hdue⟩
      next => exact h.move hseek rfl ⟨⟨task, hmem, le_refl _⟩, .inl (h.least htasks)⟩
  | _ => trivial

theorem wake_ok (h : Inv c) (epoch : τ) (timeout : Bool) : (next epoch c (.wake timeout)).Ok Inv := by
  simp only [next]
  cases hw : c.worker with
  | waiting notified =>
    simp only [ok_bind, ok_requiring]
    exact fun _ => h.move (by rw [hw]; rfl) rfl trivial
  | waitingUntil timePoint notified =>
    simp only [ok_bind, ok_requiring]
    intro htimeout
    have hseek : c.worker.seeking = true := by rw [hw]; rfl
    have hk := h.knows
    unfold Knows at hk
    rw [hw] at hk
    obtain ⟨⟨t, ht, hle⟩, -⟩ := hk
    cases timeout with
    | true => exact h.move hseek rfl ⟨t, ht, hle.trans (htimeout rfl)⟩
    | false => exact h.move hseek rfl (List.ne_nil_of_mem ht)
  | _ => trivial

theorem executed_ok (h : Inv c) (epoch : τ) : (next epoch c .executed).Ok Inv := by
  simp only [next]
  cases hw : c.worker with
  | executing task => exact h.move (by rw [hw]; rfl) rfl trivial
  | _ => trivial

theorem tick_ok (h : Inv c) (epoch now : τ) : (next epoch c (.tick now)).Ok Inv := by
  simp only [next, ok_bind, ok_requiring]
  intro hle
  refine ⟨h.order, h.owned, h.stamped, h.callers, h.calls, h.stopTask, h.nodup, h.taken, ?_, h.executed,
    h.tookStop⟩
  have hk := h.knows
  unfold Knows at hk ⊢
  cases hw : c.worker with
  | due =>
    rw [hw] at hk
    obtain ⟨t, ht, hdue⟩ := hk
    exact ⟨t, ht, hdue.trans hle⟩
  | waiting notified => rw [hw] at hk; exact hk
  | choosing => rw [hw] at hk; exact hk
  | waitingUntil limit notified => rw [hw] at hk; exact hk
  | took task => rw [hw] at hk; exact hk
  | _ => trivial

/-! ## Tasks enter the set -/

theorem Knows.notify {s : TimeoutsThread τ} {owner : Nat → Owner} {stamp : Nat → Nat}
    {added : List (Nat × τ)} (hk : Knows c) (hlock : ¬c.worker.hasLock)
    (htook : ∀ t, c.worker = .took t → owner t = .thread ∧ t ∉ s.tasks ∧ s.selfPtr t = false ∧
      (t = c.stop → s.stopTask = false))
    (htasks : ∀ t ∈ c.thread.tasks, t ∈ s.tasks ∧ s.timePoint t = c.thread.timePoint t) :
    Knows { c with thread := s, owner, worker := c.worker.notify, stamp, added } := by
  unfold Knows at hk ⊢
  cases hw : c.worker with
  | waiting notified => exact .inr rfl
  | waitingUntil limit notified =>
    rw [hw] at hk
    obtain ⟨⟨t, ht, hle⟩, -⟩ := hk
    exact ⟨⟨t, (htasks t ht).1, (htasks t ht).2.trans_le hle⟩, .inr rfl⟩
  | took task => exact htook task hw
  | choosing => rw [hw] at hlock; exact absurd rfl hlock
  | due => rw [hw] at hlock; exact absurd rfl hlock
  | _ => trivial

theorem insert_ok (h : Inv c) (epoch : τ) (task : Nat) : (next epoch c (.insert task)).Ok Inv := by
  simp only [next, ok_bind, ok_requiring]
  intro hboth
  obtain ⟨hcall, hlock⟩ := hboth
  have hno : c.owner task ≠ .thread := by simp [hcall]
  have hmem := h.not_mem hno
  have hne : ∀ t ∈ c.thread.tasks, t ≠ task := fun t ht he => hmem (he ▸ ht)
  have hstamp : ∀ t ∈ c.thread.tasks, Function.update c.stamp task c.added.length t = c.stamp t :=
    fun t ht => Function.update_of_ne (hne t ht) _ _
  have howner : ∀ t, t ≠ task → Function.update c.owner task .thread t = c.owner t :=
    fun t ht => Function.update_of_ne ht _ _
  have hlt : ∀ i ∈ c.taken, i < (c.added ++ [(task, c.thread.timePoint task)]).length := by
    intro i hi
    rw [List.length_append]
    exact Nat.lt_of_lt_of_le (h.taken i hi) (Nat.le_add_right _ _)
  refine ⟨?_, fun t ht => ?_, fun t ht => ?_, fun t ht => ?_, fun t ht => ?_, fun hs => ?_, h.nodup, hlt, ?_,
    ?_, fun hstop => ?_⟩
  · refine pairwise_insert (pairwise_congr h.order (fun _ _ => rfl) hstamp) fun t ht => ?_
    show Function.update c.stamp task c.added.length t < Function.update c.stamp task c.added.length task
    rw [hstamp t ht, Function.update_self]
    exact h.stamp_lt ht
  · rcases mem_insert.mp ht with rfl | ht
    · exact ⟨Function.update_self .., h.calls t hcall⟩
    · obtain ⟨hthread, hself⟩ := h.owned t ht
      exact ⟨(howner t (hne t ht)).trans hthread, hself⟩
  · show (c.added ++ _)[Function.update c.stamp task c.added.length t]? = _ ∧
      Function.update c.stamp task c.added.length t ∉ c.taken
    rcases mem_insert.mp ht with rfl | ht
    · rw [Function.update_self]
      exact ⟨by simp [insert], fun hi => Nat.lt_irrefl _ (h.taken _ hi)⟩
    · obtain ⟨hadded, htaken⟩ := h.stamped t ht
      rw [hstamp t ht, List.getElem?_append_left (h.stamp_lt ht)]
      exact ⟨hadded, htaken⟩
  · have htt : t ≠ task := fun he => by simp [he] at ht
    exact h.callers t ((howner t htt).symm.trans ht)
  · have htt : t ≠ task := fun he => by simp [he] at ht
    exact h.calls t ((howner t htt).symm.trans ht)
  · obtain ⟨hthread, hstopmem, hself⟩ := h.stopTask hs
    have hst := h.stop_ne hno hs
    refine ⟨(howner _ hst).trans hthread, fun hmem => ?_, hself⟩
    rcases mem_insert.mp hmem with he | hmem
    · exact hst he
    · exact hstopmem hmem
  · refine h.knows.notify hlock (fun t hw => ?_) fun t ht => ⟨mem_insert.mpr (.inr ht), rfl⟩
    obtain ⟨hthread, htmem, hself, hst⟩ := h.took hw
    have htt : t ≠ task := fun he => hno (he ▸ hthread)
    refine ⟨(howner t htt).trans hthread, fun hmem => ?_, hself, hst⟩
    rcases mem_insert.mp hmem with he | hmem
    · exact htt he
    · exact htmem hmem
  · have he := h.executed
    unfold Executed at he ⊢
    cases hw : c.worker with
    | took t =>
      rw [hw] at he
      have htt : t ≠ task := fun heq => hno (heq ▸ (h.took hw).1)
      show c.taken = c.executed ++ [Function.update c.stamp task c.added.length t]
      rw [Function.update_of_ne htt]
      exact he
    | _ => rw [hw] at he; exact he
  · obtain ⟨i, hi, timePoint, hadded⟩ := hstop
    replace hadded : (c.added ++ [(task, c.thread.timePoint task)])[i]? = some (c.stop, timePoint) := hadded
    rw [List.getElem?_append_left (h.taken i hi)] at hadded
    exact (h.tookStop ⟨i, hi, timePoint, hadded⟩).notify

/-! ## Tasks leave the set -/

/-- What is taken. -/
theorem Inv.take_eq (h : Inv c) (epoch : τ) (hw : c.worker = .due) :
    ∃ task rest, c.thread.tasks = task :: rest ∧ c.thread.timePoint task ≤ c.now ∧
      next epoch c .take = .next { c with
        thread := { c.thread with tasks := rest, selfPtr := Function.update c.thread.selfPtr task false }
        worker := .took task, taken := c.taken ++ [c.stamp task] } := by
  have hk := h.knows
  unfold Knows at hk
  rw [hw] at hk
  obtain ⟨t, ht, hdue⟩ := hk
  cases htasks : c.thread.tasks with
  | nil => rw [htasks] at ht; cases ht
  | cons task rest =>
    have hself : c.thread.selfPtr task = true := (h.owned task (by rw [htasks]; exact List.mem_cons_self)).2
    refine ⟨task, rest, rfl, (h.least htasks t ht).trans hdue, ?_⟩
    simp [next, hw, takeFirstTask, htasks, asserting_true hself]

theorem take_ok (h : Inv c) (epoch : τ) : (next epoch c .take).Ok Inv := by
  by_cases hw : c.worker = .due
  case neg =>
    simp only [next]
    cases hw' : c.worker with
    | due => exact absurd hw' hw
    | _ => trivial
  obtain ⟨task, rest, htasks, -, he⟩ := h.take_eq epoch hw
  rw [he, ok_next]
  obtain ⟨hexecuted, hnostop⟩ := h.seeking (by rw [hw]; rfl)
  have hmem : task ∈ c.thread.tasks := by rw [htasks]; exact List.mem_cons_self
  have hrest : ∀ t ∈ rest, t ∈ c.thread.tasks := fun t ht => by rw [htasks]; exact List.mem_cons_of_mem _ ht
  have horder := h.order
  rw [htasks] at horder
  obtain ⟨hbefore, horder⟩ := List.pairwise_cons.mp horder
  have hne : ∀ t ∈ rest, t ≠ task := fun t ht => (hbefore t ht).ne.symm
  have hself : ∀ t, t ≠ task → Function.update c.thread.selfPtr task false t = c.thread.selfPtr t :=
    fun t ht => Function.update_of_ne ht _ _
  obtain ⟨hadded, htaken⟩ := h.stamped task hmem
  have hthread := (h.owned task hmem).1
  refine ⟨horder, fun t ht => ?_, fun t ht => ?_, fun t ht => ?_, fun t ht => ?_, fun hs => ?_, ?_, ?_, ?_,
    congrArg (· ++ _) hexecuted, fun hstop => ?_⟩
  · obtain ⟨howner, hst⟩ := h.owned t (hrest t ht)
    exact ⟨howner, (hself t (hne t ht)).trans hst⟩
  · obtain ⟨ht', hno⟩ := h.stamped t (hrest t ht)
    refine ⟨ht', fun hm => ?_⟩
    rcases List.mem_append.mp hm with hm | hm
    · exact hno hm
    · rw [List.mem_singleton.mp hm, hadded] at ht'
      exact hne t ht (congrArg Prod.fst (Option.some.inj ht')).symm
  · by_cases htt : t = task
    · rw [htt]
      exact Function.update_self (β := fun _ => Bool) ..
    · exact (hself t htt).trans (h.callers t ht)
  · have htt : t ≠ task := fun he => by
      rw [he] at ht
      exact nomatch hthread.symm.trans ht
    exact (hself t htt).trans (h.calls t ht)
  · obtain ⟨howner, hstopmem, hst⟩ := h.stopTask hs
    have htt : c.stop ≠ task := fun he => hstopmem (he ▸ hmem)
    exact ⟨howner, fun hm => hstopmem (hrest _ hm), (hself _ htt).trans hst⟩
  · exact List.nodup_append.mpr ⟨h.nodup, List.nodup_singleton _, fun i hi j hj he =>
      htaken (List.mem_singleton.mp hj ▸ he ▸ hi)⟩
  · intro i hi
    rcases List.mem_append.mp hi with hi | hi
    · exact h.taken i hi
    · rw [List.mem_singleton.mp hi]
      exact h.stamp_lt hmem
  · refine ⟨hthread, fun hm => hne task hm rfl, Function.update_self (β := fun _ => Bool) .., fun he => ?_⟩
    cases hs : c.thread.stopTask with
    | false => rfl
    | true => exact absurd (he ▸ hmem) (h.stopTask hs).2.1
  · obtain ⟨i, hi, timePoint, hstop⟩ := hstop
    rcases List.mem_append.mp hi with hi | hi
    · exact absurd ⟨i, hi, timePoint, hstop⟩ hnostop
    · rw [List.mem_singleton.mp hi] at hstop
      have hts : task = c.stop := congrArg Prod.fst (Option.some.inj (hadded.symm.trans hstop))
      exact .inl (congrArg Worker.took hts)

theorem execute_ok (h : Inv c) (epoch : τ) : (next epoch c .execute).Ok Inv := by
  simp only [next]
  cases hw : c.worker with
  | took task =>
    obtain ⟨hthread, hmem, hself, hst⟩ := h.took hw
    have hexecuted := h.executed
    unfold Executed at hexecuted
    rw [hw] at hexecuted
    dsimp only
    split
    next hstop =>
      exact ⟨h.order, h.owned, h.stamped, h.callers, h.calls, h.stopTask, h.nodup, h.taken, trivial,
        ⟨_, hexecuted⟩, fun _ => .inr rfl⟩
    next hstop =>
      have hne : ∀ t ∈ c.thread.tasks, t ≠ task := fun t ht he => hmem (he ▸ ht)
      have howner : ∀ t, t ≠ task → Function.update c.owner task .caller t = c.owner t :=
        fun t ht => Function.update_of_ne ht _ _
      refine ⟨h.order, fun t ht => ?_, h.stamped, fun t ht => ?_, fun t ht => ?_, fun hs => ?_, h.nodup,
        h.taken, trivial, hexecuted, fun htook => ?_⟩
      · exact ⟨(howner t (hne t ht)).trans (h.owned t ht).1, (h.owned t ht).2⟩
      · by_cases htt : t = task
        · exact htt ▸ hself
        · exact h.callers t ((howner t htt).symm.trans ht)
      · have htt : t ≠ task := fun he => by simp [he] at ht
        exact h.calls t ((howner t htt).symm.trans ht)
      · obtain ⟨ho, hm, hp⟩ := h.stopTask hs
        exact ⟨(howner _ (Ne.symm hstop)).trans ho, hm, hp⟩
      · rcases h.tookStop htook with hs | hs <;> rw [hw] at hs <;> cases hs
        exact absurd rfl hstop
  | _ => trivial

/-! ## Every run -/

theorem next_ok (h : Inv c) (epoch : τ) (a : Act τ) : (next epoch c a).Ok Inv := by
  cases a with
  | createTask task => exact createTask_ok h epoch task
  | dropTask task => exact dropTask_ok h epoch task
  | addTask task timePoint => exact addTask_ok h epoch task timePoint
  | insert task => exact insert_ok h epoch task
  | stop => exact stop_ok h epoch
  | tick now => exact tick_ok h epoch now
  | lock => exact lock_ok h epoch
  | look => exact look_ok h epoch
  | choose => exact choose_ok h epoch
  | wake timeout => exact wake_ok h epoch timeout
  | take => exact take_ok h epoch
  | execute => exact execute_ok h epoch
  | executed => exact executed_ok h epoch

theorem reachable_inv {epoch : τ} (h : Runs.Reachable (next epoch) Init c) : Inv c :=
  h.invariant (fun _ => init_inv) fun _ a hi => next_ok hi epoch a

/-! ## One step -/

/-- What a step may do to the worker, and to what was taken and executed. -/
inductive Stepped (c : Config τ) : Act τ → Config τ → Prop
  /-- The worker is left alone, or notified. -/
  | others {a d} (hworker : d.worker = c.worker ∨ d.worker = c.worker.notify) (hstop : d.stop = c.stop)
      (htaken : d.taken = c.taken) (hexecuted : d.executed = c.executed) : Stepped c a d
  | moves {a} (y : Worker τ) (hw : ∀ task, c.worker ≠ .took task) (hstopped : c.worker ≠ .stopped) :
      Stepped c a { c with worker := y }
  | take {thread task} (hw : c.worker = .due) (ht : c.thread.takeFirstTask = .next (thread, task)) :
      Stepped c .take { c with thread, worker := .took task, taken := c.taken ++ [c.stamp task] }
  | stops (hw : c.worker = .took c.stop) : Stepped c .execute { c with worker := .stopped }
  | execute {task} (hw : c.worker = .took task) (hne : task ≠ c.stop) : Stepped c .execute { c with
      worker := .executing task, owner := Function.update c.owner task .caller
      executed := c.executed ++ [c.stamp task] }

theorem next_stepped (epoch : τ) (c : Config τ) (a : Act τ) : (next epoch c a).Yields (Stepped c a) := by
  cases a with
  | createTask task | dropTask task | tick now =>
    simp only [next, yields_bind, yields_requiring]
    exact fun _ => yields_next.mpr (.others (.inl rfl) rfl rfl rfl)
  | insert task =>
    simp only [next, yields_bind, yields_requiring]
    exact fun _ => yields_next.mpr (.others (.inr rfl) rfl rfl rfl)
  | addTask task timePoint =>
    simp only [next, yields_bind, yields_requiring]
    exact fun _ _ _ => yields_next.mpr (.others (.inl rfl) rfl rfl rfl)
  | stop =>
    simp only [next]
    split
    · exact yields_bind.mpr fun _ _ => yields_next.mpr (.others (.inl rfl) rfl rfl rfl)
    · exact yields_next.mpr (.others (.inl rfl) rfl rfl rfl)
  | lock | look | executed =>
    simp only [next]
    split
    · next hw => exact yields_next.mpr (.moves _ (by simp [hw]) (by simp [hw]))
    · exact yields_blocked
  | choose =>
    simp only [next]
    split
    · exact yields_failed
    · next hw _ => exact yields_next.mpr (.moves _ (by simp [hw]) (by simp [hw]))
    · exact yields_blocked
  | wake timeout =>
    simp only [next]
    split
    · next hw =>
      simp only [yields_bind, yields_requiring]
      exact fun _ => yields_next.mpr (.moves _ (by simp [hw]) (by simp [hw]))
    · next hw =>
      simp only [yields_bind, yields_requiring]
      exact fun _ => yields_next.mpr (.moves _ (by simp [hw]) (by simp [hw]))
    · exact yields_blocked
  | take =>
    simp only [next]
    split
    · next hw =>
      simp only [yields_bind]
      exact fun r hr => yields_next.mpr (.take hw hr)
    · exact yields_blocked
  | execute =>
    simp only [next]
    split
    · next task hw =>
      split
      · next heq => exact yields_next.mpr (.stops (heq ▸ hw))
      · next hne => exact yields_next.mpr (.execute hw hne)
    · exact yields_blocked

/-- Nothing is taken by the others. -/
theorem next_taken (epoch : τ) (c : Config τ) {a : Act τ} (ha : a ≠ .take) :
    (next epoch c a).Yields fun d => d.taken = c.taken := by
  intro d hd
  cases next_stepped epoch c a d hd with
  | others _ _ htaken => exact htaken
  | take => exact absurd rfl ha
  | moves | stops | execute => rfl

/-- After the stop task the worker does nothing. -/
theorem next_stopping (epoch : τ) (h : Stopping c) (a : Act τ) :
    (next epoch c a).Yields fun d => Stopping d ∧ d.taken = c.taken ∧ d.executed = c.executed := by
  intro d hd
  cases next_stepped epoch c a d hd with
  | others hworker hstop htaken hexecuted =>
    refine ⟨?_, htaken, hexecuted⟩
    unfold Stopping
    rw [hstop]
    rcases hworker with hworker | hworker
    · exact hworker ▸ h
    · exact hworker ▸ h.notify
  | moves y hw hstopped => exact (h.elim (hw c.stop) hstopped).elim
  | take hw => rcases h with h | h <;> cases h.symm.trans hw
  | stops => exact ⟨.inr rfl, rfl, rfl⟩
  | execute hw hne =>
    rcases h with h | h
    · exact absurd (Worker.took.inj (hw.symm.trans h)) hne
    · cases h.symm.trans hw

/-- What a step may take: the first task, whose time has come. All others are
due later, or at the same time and were added later. -/
def TakesFirst (c d : Config τ) : Prop :=
  ∃ task rest, c.thread.tasks = task :: rest ∧ d.worker = .took task ∧ d.taken = c.taken ++ [c.stamp task] ∧
    c.thread.timePoint task ≤ c.now ∧ ∀ t ∈ rest, Before c.thread.timePoint c.stamp task t

theorem Inv.takesFirst (h : Inv c) {epoch : τ} {d : Config τ} (hd : next epoch c .take = .next d) :
    TakesFirst c d := by
  have hw : c.worker = .due := by
    simp only [next] at hd
    split at hd
    · assumption
    · cases hd
  obtain ⟨task, rest, htasks, hdue, he⟩ := h.take_eq epoch hw
  rw [he] at hd
  cases hd
  have horder := h.order
  rw [htasks] at horder
  exact ⟨task, rest, htasks, rfl, rfl, hdue, (List.pairwise_cons.mp horder).1⟩

theorem Inv.executed_prefix (h : Inv c) : c.executed <+: c.taken := by
  have he := h.executed
  unfold Executed at he
  split at he
  · exact ⟨_, he.symm⟩
  · obtain ⟨i, he⟩ := he
    exact ⟨_, he.symm⟩
  · exact ⟨[], by rw [he, List.append_nil]⟩

/-- **Tasks are executed in order, each when its time has come.** In whatever
order tasks are added, time passes, the thread is stopped and the worker wakes
up: what is taken is the first task of those in the set, and its time point has
been reached; nothing that was added once is taken twice, and only what was
taken is executed; the worker does not wait for a moment after the time point
of any task unless it has been notified; once the stop task was taken nothing
is taken or executed; and no assertion fails. -/
theorem in_order {epoch : τ} (h : Runs.Reachable (next epoch) Init c) :
    (∀ a d, next epoch c a = .next d → d.taken = c.taken ∨ TakesFirst c d) ∧
    (c.taken.Nodup ∧ (∀ i ∈ c.taken, i < c.added.length) ∧ c.executed <+: c.taken ∧
      ∀ t ∈ c.thread.tasks, c.added[c.stamp t]? = some (t, c.thread.timePoint t) ∧ c.stamp t ∉ c.taken) ∧
    ((∀ notified, c.worker = .waiting notified → c.thread.tasks = [] ∨ notified = true) ∧
      ∀ limit notified, c.worker = .waitingUntil limit notified →
        (∀ t ∈ c.thread.tasks, limit ≤ c.thread.timePoint t) ∨ notified = true) ∧
    (TookStop c → ∀ as d, Runs.run (next epoch) c as = .next d →
      d.taken = c.taken ∧ d.executed = c.executed) ∧
    ∀ a, next epoch c a ≠ .failed := by
  have hi := reachable_inv h
  have hk := hi.knows
  unfold Knows at hk
  refine ⟨fun a d hd => ?_, ⟨hi.nodup, hi.taken, hi.executed_prefix, hi.stamped⟩, ⟨fun notified hw => ?_,
    fun limit notified hw => ?_⟩, fun hstop as d hd => ?_, fun a => (next_ok hi epoch a).not_failed⟩
  · by_cases ha : a = .take
    · subst ha
      exact .inr (hi.takesFirst hd)
    · exact .inl (next_taken epoch c ha d hd)
  · rw [hw] at hk
    exact hk
  · rw [hw] at hk
    exact hk.2
  · exact (Runs.yields_run (I := Stopping)
      (R := fun c d : Config τ => d.taken = c.taken ∧ d.executed = c.executed)
      (fun _ => ⟨rfl, rfl⟩) (fun h h' => ⟨h'.1.trans h.1, h'.2.trans h.2⟩)
      (fun _ a hs => next_stopping epoch hs a) (hi.tookStop hstop) d hd).2

/-- An earlier task comes while the worker waits for a later one. -/
def earlier : List (Act Nat) :=
  [.createTask 1, .createTask 2, .addTask 1 50, .insert 1, .lock, .look, .choose, .addTask 2 20, .insert 2,
   .wake false, .choose, .tick 30, .wake true]

theorem in_order_earlier : ∃ c d : Config Nat,
    Runs.run (next 0) (new 0 10 fun _ => 0) earlier = .next c ∧ next 0 c .take = .next d ∧ TakesFirst c d := by
  obtain ⟨c, d, hc, hd, htaken⟩ : ∃ c d : Config Nat,
      Runs.run (next 0) (new 0 10 fun _ => 0) earlier = .next c ∧ next 0 c .take = .next d ∧
        d.taken ≠ c.taken := ⟨_, _, rfl, rfl, by decide⟩
  have hreach : Runs.Reachable (next 0) Init c := .run (.init ⟨0, 10, _, rfl⟩) hc
  exact ⟨c, d, hc, hd, ((in_order hreach).1 .take d hd).resolve_left htaken⟩

end TimeoutsThread
