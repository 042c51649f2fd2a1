/-
A task whose time has come is executed, by what the worker does next.

Whatever place the worker has got to, it goes on to the first task (`nextAct`),
and needs no wake-up for that but a notification that it was sent, or a time-out
that is due (`Deserved`). Every task that it takes brings it nearer to the one
in question (`distance`).
-/
import CxxHeaders.TimeoutsThreadOrder

open Outcome

namespace TimeoutsThread

variable {τ : Type} [LinearOrder τ] {c d : Config τ} {t : Nat}

/-- What the worker does next; a wait that was not notified has to time out. -/
def nextAct (c : Config τ) : Act τ :=
  match c.worker with
  | .starting => .lock
  | .locked => .look
  | .waiting _ => .wake false
  | .choosing => .choose
  | .waitingUntil _ notified => .wake !notified
  | .due => .take
  | .took _ => .execute
  | .executing _ | .stopped => .executed

/-- An action of the worker, woken up by a notification or a time-out. -/
def Deserved (c : Config τ) : Act τ → Prop
  | .wake timeout =>
    match c.worker with
    | .waiting notified | .waitingUntil _ notified => timeout = true ∨ notified = true
    | _ => False
  | .lock | .look | .choose | .take | .execute | .executed => True
  | _ => False

/-- How many steps it is at most until a task is taken. -/
def Worker.steps : Worker τ → Nat
  | .due => 0
  | .choosing => 1
  | .locked | .waitingUntil _ _ => 2
  | .starting | .waiting _ => 3
  | .executing _ => 4
  | .took _ => 5
  | .stopped => 0

def distance (c : Config τ) : Nat := 6 * c.thread.tasks.length + c.worker.steps

/-- The thread is to be stopped before the task comes. -/
def StopsBefore (c : Config τ) (t : Nat) : Prop :=
  c.stop ∈ c.thread.tasks ∧ StableInsert.Before c.thread.timePoint c.stamp c.stop t

/-- The worker goes on. -/
structure Onward (c : Config τ) (t : Nat) (d : Config τ) : Prop where
  now : d.now = c.now
  added : d.added = c.added
  stamp : d.stamp = c.stamp
  timePoint : d.thread.timePoint = c.thread.timePoint
  stop : d.stop = c.stop
  tasks : ∀ x ∈ d.thread.tasks, x ∈ c.thread.tasks
  stopping : Stopping d → Stopping c ∨ t = c.stop ∨ StopsBefore c t

theorem Onward.refl (c : Config τ) (t : Nat) : Onward c t c :=
  ⟨rfl, rfl, rfl, rfl, rfl, fun _ hx => hx, .inl⟩

theorem Onward.trans {e : Config τ} (h : Onward c t d) (h' : Onward d t e) : Onward c t e := by
  refine ⟨h'.now.trans h.now, h'.added.trans h.added, h'.stamp.trans h.stamp,
    h'.timePoint.trans h.timePoint, h'.stop.trans h.stop, fun x hx => h.tasks x (h'.tasks x hx), fun hs => ?_⟩
  rcases h'.stopping hs with hs | hs | ⟨hmem, hb⟩
  · exact h.stopping hs
  · exact .inr (.inl (hs.trans h.stop))
  · rw [h.stop, h.timePoint, h.stamp] at hb
    exact .inr (.inr ⟨h.stop ▸ h.tasks _ hmem, hb⟩)

/-- The worker moves on, without a task. -/
theorem Onward.move (c : Config τ) (t : Nat) {w : Worker τ} (hw : w.seeking = true) :
    Onward c t { c with worker := w } := by
  refine ⟨rfl, rfl, rfl, rfl, rfl, fun _ hx => hx, fun hs => ?_⟩
  rcases hs with hs | hs
  · have hs : w = .took c.stop := hs
    rw [hs] at hw
    cases hw
  · have hs : w = .stopped := hs
    rw [hs] at hw
    cases hw

/-- The worker is nearer to the task, or has taken it, or the thread was stopped. -/
def Nearer (c : Config τ) (t : Nat) (d : Config τ) : Prop :=
  t ∈ d.thread.tasks ∧ distance d < distance c ∨ d.worker = .took t ∨ d.worker = .stopped

omit [LinearOrder τ] in
/-- Only the worker's place changes. -/
theorem Nearer.of_steps {w : Worker τ} (ht : t ∈ c.thread.tasks) (hw : w.steps < c.worker.steps) :
    Nearer c t { c with worker := w } :=
  .inl ⟨ht, Nat.add_lt_add_left hw _⟩

theorem next_nearer (epoch : τ) (h : Inv c) (ht : t ∈ c.thread.tasks) (hdue : c.thread.timePoint t ≤ c.now)
    (hw : c.worker ≠ .stopped) :
    (next epoch c (nextAct c)).Returns fun d => Onward c t d ∧ Nearer c t d ∧ Deserved c (nextAct c) := by
  obtain ⟨task, rest, htasks⟩ := List.exists_cons_of_ne_nil (List.ne_nil_of_mem ht)
  have hfirst : c.thread.timePoint task ≤ c.now := (h.least htasks t ht).trans hdue
  have hk := h.knows
  unfold Knows at hk
  unfold nextAct
  cases hwk : c.worker with
  | starting =>
    simp only [next, hwk]
    exact ⟨Onward.move c t rfl, .of_steps ht (by simp [hwk, Worker.steps]), trivial⟩
  | locked =>
    simp only [next, hwk, htasks, List.isEmpty_cons, Bool.false_eq_true, if_false]
    exact ⟨Onward.move c t rfl, .of_steps ht (by simp [hwk, Worker.steps]), trivial⟩
  | waiting notified =>
    rw [hwk] at hk
    have hn : notified = true := hk.resolve_left (List.ne_nil_of_mem ht)
    simp only [next, hwk, returns_bind, returns_requiring]
    exact ⟨by simp, Onward.move c t rfl, .of_steps ht (by simp [hwk, Worker.steps]), by simp [Deserved, hwk, hn]⟩
  | choosing =>
    simp only [next, hwk, htasks, if_pos hfirst]
    exact ⟨Onward.move c t rfl, .of_steps ht (by simp [hwk, Worker.steps]), trivial⟩
  | waitingUntil limit notified =>
    rw [hwk] at hk
    obtain ⟨-, hlimit⟩ := hk
    cases notified with
    | true =>
      simp only [next, hwk, returns_bind, returns_requiring]
      exact ⟨by simp, Onward.move c t rfl, .of_steps ht (by simp [hwk, Worker.steps]), by simp [Deserved, hwk]⟩
    | false =>
      have hle : limit ≤ c.now := (hlimit.resolve_right (by simp) t ht).trans hdue
      simp only [next, hwk, returns_bind, returns_requiring]
      exact ⟨fun _ => hle, Onward.move c t rfl, .of_steps ht (by simp [hwk, Worker.steps]), by simp [Deserved, hwk]⟩
  | due =>
    obtain ⟨first, others, hfirst, -, hnext⟩ := h.take_eq epoch hwk
    have horder := h.order
    rw [hfirst] at horder ht
    have hmem : ∀ x ∈ others, x ∈ c.thread.tasks := fun x hx => by
      rw [hfirst]
      exact List.mem_cons_of_mem first hx
    simp only [hnext]
    refine ⟨⟨rfl, rfl, rfl, rfl, rfl, hmem, fun hs => ?_⟩, ?_, trivial⟩
    · rcases hs with hs | hs
      · have hs : first = c.stop := Worker.took.inj hs
        rw [hs] at hfirst ht horder
        rcases List.mem_cons.mp ht with rfl | ht
        · exact .inr (.inl rfl)
        · exact .inr (.inr ⟨by simp [hfirst], (List.pairwise_cons.mp horder).1 t ht⟩)
      · cases hs
    · rcases List.mem_cons.mp ht with rfl | ht
      · exact .inr (.inl rfl)
      · refine .inl ⟨ht, ?_⟩
        simp only [distance, hfirst, List.length_cons, hwk, Worker.steps]
        omega
  | took task =>
    simp only [next, hwk]
    split
    next hstop =>
      refine ⟨⟨rfl, rfl, rfl, rfl, rfl, fun _ hx => hx, fun _ => .inl (.inl ?_)⟩, .inr (.inr rfl), trivial⟩
      rw [hwk, hstop]
    next =>
      refine ⟨⟨rfl, rfl, rfl, rfl, rfl, fun _ hx => hx, fun hs => ?_⟩,
        .inl ⟨ht, by simp [distance, hwk, Worker.steps]⟩, trivial⟩
      rcases hs with hs | hs <;> cases hs
  | executing task =>
    simp only [next, hwk]
    exact ⟨Onward.move c t rfl, .of_steps ht (by simp [hwk, Worker.steps]), trivial⟩
  | stopped => exact absurd hwk hw

/-- The worker takes the task, if it is not stopped before. -/
theorem exists_run_took (epoch : τ) (n : Nat) (hn : distance c < n) (h : Inv c) (ht : t ∈ c.thread.tasks)
    (hdue : c.thread.timePoint t ≤ c.now) :
    ∃ as d, Runs.run (next epoch) c as = .next d ∧ Runs.Meets (next epoch) Deserved c as ∧ Onward c t d ∧
      (d.worker = .took t ∨ d.worker = .stopped) := by
  induction n generalizing c with
  | zero => cases hn
  | succ n ih =>
    by_cases hw : c.worker = .stopped
    · exact ⟨[], c, rfl, trivial, .refl c t, .inr hw⟩
    · obtain ⟨m, hm, hsame, hnearer, hdeserved⟩ := (next_nearer epoch h ht hdue hw).exists
      rcases hnearer with ⟨hmem, hlt⟩ | hend
      · have hinv := (next_ok h epoch (nextAct c)).of_next hm
        have hdue' : m.thread.timePoint t ≤ m.now := by rwa [hsame.timePoint, hsame.now]
        obtain ⟨as, d, hrun, hmeets, hsame', hd⟩ := ih (by omega) hinv hmem hdue'
        refine ⟨nextAct c :: as, d, ?_, .cons hdeserved hm hmeets, hsame.trans hsame', hd⟩
        rw [Runs.run, hm, next_bind, hrun]
      · refine ⟨[nextAct c], m, ?_, .cons hdeserved hm trivial, hsame, hend⟩
        rw [Runs.run, hm]
        rfl

/-- What was taken is executed, or stops the worker. -/
theorem execute_took (epoch : τ) (hw : c.worker = .took t) : ∃ d, next epoch c .execute = .next d ∧
    d.added = c.added ∧ (t ≠ c.stop ∧ c.stamp t ∈ d.executed ∨ d.worker = .stopped ∧ t = c.stop) := by
  by_cases hts : t = c.stop
  · exact ⟨{ c with worker := .stopped }, by simp only [next, hw, if_pos hts]; rfl, rfl, .inr ⟨rfl, hts⟩⟩
  · refine ⟨{ c with
      worker := .executing t, owner := Function.update c.owner t .caller
      executed := c.executed ++ [c.stamp t] }, by simp only [next, hw, if_neg hts]; rfl, rfl, .inl ⟨hts, ?_⟩⟩
    exact List.mem_append_right _ (List.mem_singleton.mpr rfl)

/-- **A task whose time has come is executed.** Wherever the worker is and
whatever has happened before, what it does next leads it to execute the task,
without a spurious wake-up, and without anybody else doing anything; unless the
thread was stopped, or is to be stopped before. The same way it comes to the
stop. -/
theorem due_is_executed {epoch : τ} (h : Runs.Reachable (next epoch) Init c) (ht : t ∈ c.thread.tasks)
    (hdue : c.thread.timePoint t ≤ c.now) :
    ∃ as d, Runs.run (next epoch) c as = .next d ∧ Runs.Meets (next epoch) Deserved c as ∧
      d.added = c.added ∧ (t ≠ c.stop ∧ c.stamp t ∈ d.executed ∨
        d.worker = .stopped ∧ (Stopping c ∨ t = c.stop ∨ StopsBefore c t)) := by
  have hinv := reachable_inv h
  obtain ⟨as, m, hrun, hmeets, hm, hw⟩ := exists_run_took epoch _ (Nat.lt_succ_self _) hinv ht hdue
  rcases hw with hw | hw
  · obtain ⟨d, hd, hadded, hend⟩ := execute_took epoch hw
    have hexecute : Runs.Meets (next epoch) Deserved m [.execute] := .cons trivial hd trivial
    refine ⟨as ++ [.execute], d, ?_, hmeets.append hrun hexecute, hadded.trans hm.added, ?_⟩
    · rw [Runs.run_append, hrun, next_bind, Runs.run, hd]
      rfl
    · rw [hm.stop, hm.stamp] at hend
      exact hend.imp_right fun hs => ⟨hs.1, .inr (.inl hs.2)⟩
  · exact ⟨as, m, hrun, hmeets, hm.added, .inr ⟨hw, hm.stopping (.inr hw)⟩⟩

/-- The worker waits for a task that is not due when it is stopped. -/
theorem due_is_executed_stop : ∃ c d : Config Nat, ∃ as,
    Runs.run (next 0) (new 0 10 fun _ => 0) [.createTask 1, .addTask 1 50, .insert 1, .lock, .look, .choose,
      .stop, .insert 0] = .next c ∧
    Runs.run (next 0) c as = .next d ∧ Runs.Meets (next 0) Deserved c as ∧ d.worker = .stopped := by
  obtain ⟨c, hc, hmem, hdue, hstop⟩ : ∃ c : Config Nat,
      Runs.run (next 0) (new 0 10 fun _ => 0) [.createTask 1, .addTask 1 50, .insert 1, .lock, .look,
        .choose, .stop, .insert 0] = .next c ∧ 0 ∈ c.thread.tasks ∧ c.thread.timePoint 0 ≤ c.now ∧
      c.stop = 0 := ⟨_, rfl, by decide, by decide, rfl⟩
  have hreach : Runs.Reachable (next 0) Init c := .run (.init ⟨0, 10, _, rfl⟩) hc
  obtain ⟨as, d, hrun, hmeets, -, ⟨hne, -⟩ | ⟨hw, -⟩⟩ := due_is_executed hreach hmem hdue
  · exact absurd hstop.symm hne
  · exact ⟨c, d, as, hc, hrun, hmeets, hw⟩

end TimeoutsThread
