/-
Stopping a pool that others take part in.

When `stopAndJoin` returns nobody has a place, so no task is being executed,
and none will be, whoever comes to take part (`stop_is_final`). And it does
return, without luck, if tasks do (`stop_returns`): one thread after the other
sees the stop and leaves, first the one that has the head lock.
-/
import CxxHeaders.ParticipatoryThreadPoolFacts

open Outcome

namespace ParticipatoryThreadPool

variable {ω τ : Type} {max : Nat} {c d : Config ω τ} {w : ω}

/-! ## Safety -/

/-- Nobody does anything in the pool. -/
theorem Inv.final (h : Inv max c) (hstop : c.pool.pool.stop = true) (hn : c.numParticipants = 0) :
    ThreadPool.Final c.pool c.pool.popped := by
  refine ⟨hstop, rfl, fun w => .inl (h.idle w fun m hm => ?_)⟩
  have hout := h.places.zero_iff.mp hn w
  rw [hm] at hout
  cases hout

variable [DecidableEq ω]

theorem next_final {popped : List τ} (h : ThreadPool.Final c.pool popped) (a : Act ω τ) :
    (next max c a).Yields fun d => ThreadPool.Final d.pool popped := by
  intro d hd
  by_cases hpool : ∃ b, a = .pool b
  · obtain ⟨b, rfl⟩ := hpool
    exact h.next b _ (next_pool hd).1
  · obtain ⟨v, hown⟩ := next_own (fun b he => hpool ⟨b, he⟩) hd
    rw [hown.pool]
    exact h

/-- `join` returns where nobody has a place. -/
theorem numParticipants_of_joined {a : Act ω τ} (h : next max c a = .next d)
    (hj : d.joined ≠ c.joined) : c.numParticipants = 0 ∧ d.pool = c.pool := by
  by_cases hpool : ∃ b, a = .pool b
  · obtain ⟨b, rfl⟩ := hpool
    exact absurd (next_pool h).2.2.1 hj
  · obtain ⟨v, hown⟩ := next_own (fun b he => hpool ⟨b, he⟩) h
    exact ⟨hown.joined.resolve_left hj, hown.pool⟩

theorem run_final {popped : List τ} (h : ThreadPool.Final c.pool popped) (as : List (Act ω τ)) :
    (Runs.run (next max) c as).Yields fun d => ThreadPool.Final d.pool popped := by
  induction as generalizing c with
  | nil => exact yields_next.mpr h
  | cons a as ih => exact yields_bind.mpr ((next_final h a).mono fun _ hm => ih hm)

/-- **Stopping is final.** When `stopAndJoin` returns, which is when its `join`
does after the stop was notified, nobody is executing or holding a task, and
from then on, whatever is submitted and whoever comes to take part, no task is
popped or executed any more. -/
theorem stop_is_final (h : Runs.Reachable (next max) Init c) (hstop : c.pool.pool.stop = true) {a : Act ω τ}
    (hd : next max c a = .next d) (hj : d.joined ≠ c.joined) (as : List (Act ω τ)) :
    (Runs.run (next max) d as).Yields fun e => e.pool.popped = c.pool.popped ∧
      ∀ w task job, e.pool.worker w ≠ .popped task ∧ e.pool.worker w ≠ .executing job := by
  obtain ⟨hzero, hpool⟩ := numParticipants_of_joined hd hj
  have hfinal := (reachable_inv h).final hstop hzero
  rw [← hpool] at hfinal
  refine (run_final hfinal as).mono fun e he => ⟨he.popped.trans (by rw [hpool]), fun w task job => ?_⟩
  rcases he.worker w with hw | hw <;> simp [hw]

/-- A pool of two places, with nobody in it. -/
def new : Config Bool Nat := ⟨ThreadPool.new 0 fun _ => ⟨none, none⟩, 0, fun _ => .outside, [], 0⟩

theorem init_new : Init new := ⟨⟨0, _, rfl⟩, rfl, fun _ => rfl, rfl, rfl⟩

/-- A thread comes to take part after the stop, and sees it. -/
theorem stop_is_final_late : ∃ c d e : Config Bool Nat,
    Runs.run (next 2) new [.pool (.createTask 1 10), .pool (.submit 1), .pool .notifyStop] = .next c ∧
    next 2 c (.join false) = .next d ∧ d.joined = 1 ∧
    Runs.run (next 2) d [.participate true ⟨false, false⟩, .pool (.lockHead true), .pool (.check true),
      .leave true] = .next e ∧ e.returned = [(true, .stopNotified)] ∧ e.pool.popped = [] := by
  obtain ⟨c, d, e, hc, hstop, hp, hd, hj, hj', he, hret⟩ : ∃ c d e : Config Bool Nat,
      Runs.run (next 2) new [.pool (.createTask 1 10), .pool (.submit 1), .pool .notifyStop] = .next c ∧
      c.pool.pool.stop = true ∧ c.pool.popped = [] ∧ next 2 c (.join false) = .next d ∧ d.joined = 1 ∧
      d.joined ≠ c.joined ∧ Runs.run (next 2) d [.participate true ⟨false, false⟩, .pool (.lockHead true),
        .pool (.check true), .leave true] = .next e ∧ e.returned = [(true, .stopNotified)] :=
    ⟨_, _, _, rfl, rfl, rfl, rfl, rfl, by decide, rfl, rfl⟩
  have hfinal := stop_is_final (.run (.init init_new) hc) hstop hd hj' _ e he
  exact ⟨c, d, e, hc, hd, hj, he, hret, hfinal.1.trans hp⟩

/-! ## Liveness -/

/-- How far a thread is from leaving, once there is a stop. -/
def rank (c : Config ω τ) (w : ω) : Nat :=
  match c.role w with
  | .inside _ => (c.pool.worker w).haltPhase
  | .leaving _ => 1
  | _ => 0

/-- What a thread with a place does next. -/
def nextAct (c : Config ω τ) (w : ω) : Act ω τ :=
  match c.role w with
  | .leaving _ => .leave w
  | _ => .pool (ThreadPool.nextAct c.pool w)

/-- The stop was notified, and nobody else has the head lock. -/
structure MayLeave (max : Nat) (c : Config ω τ) (w : ω) : Prop where
  inv : Inv max c
  stop : c.pool.pool.stop = true
  mutex : c.pool.headMutex = none ∨ c.pool.headMutex = some w

/-- Others are where they were, and no `join` has returned. -/
structure Alone (c d : Config ω τ) (w : ω) : Prop where
  role : ∀ v, v ≠ w → d.role v = c.role v
  joined : d.joined = c.joined

theorem two_le_haltPhase (x : ThreadPool.Worker τ) : 2 ≤ x.haltPhase := by
  cases x <;> simp [ThreadPool.Worker.haltPhase, ThreadPool.Worker.phase]

omit [DecidableEq ω] in
theorem isTimeout_nextAct (p : ThreadPool.Config ω τ) (w : ω) : isTimeout (ThreadPool.nextAct p w) = false := by
  unfold ThreadPool.nextAct
  cases p.worker w <;> rfl

/-- **A thread with a place comes forward** on its way out. -/
theorem leave_step (h : MayLeave max c w) (hw : (c.role w).takesPart = true) :
    (next max c (nextAct c w)).Returns fun d => MayLeave max d w ∧ Alone c d w ∧ rank d w < rank c w ∧
      (d.role w = .outside ∨ (d.role w).takesPart = true) := by
  cases hr : c.role w with
  | leaving status =>
    have hact : nextAct c w = .leave w := by simp [nextAct, hr]
    obtain ⟨d, hd, hinv⟩ := (h.inv.leave hr).exists
    have hd' := hd
    simp only [next, hr, bind_eq_next, pure_eq, Outcome.next.injEq] at hd'
    obtain ⟨-, -, hd'⟩ := hd'
    rw [hact, hd]
    have hrole : d.role w = .outside := by
      rw [← hd']
      exact Function.update_self ..
    have hpool : d.pool = c.pool := by rw [← hd']; rfl
    refine ⟨⟨hinv, hpool ▸ h.stop, hpool ▸ h.mutex⟩, ⟨fun v hv => ?_, ?_⟩, ?_, .inl hrole⟩
    · rw [← hd']
      exact Function.update_of_ne hv ..
    · rw [← hd']
      rfl
    · simp [rank, hrole, hr]
  | inside m =>
    have hact : nextAct c w = .pool (ThreadPool.nextAct c.pool w) := by simp [nextAct, hr]
    obtain ⟨nodes, waiting, hv⟩ := h.inv.pool
    obtain ⟨q, hq, hstop, hm, -, hfewer⟩ := (ThreadPool.halt hv h.stop h.mutex).exists
    have hactor : ThreadPool.actor (ThreadPool.nextAct c.pool w) = some w := ThreadPool.actor_nextAct
    have hnext : next max c (nextAct c w) =
        .next { c.setRole w (goesOn m (ThreadPool.nextAct c.pool w) (q.worker w)) with pool := q } := by
      rw [hact]
      simp [next, hactor, hr, isTimeout_nextAct, requiring, hq]
    have hrole : ∀ r, (c.setRole w r).role w = r := fun r => Function.update_self ..
    rw [hnext]
    refine ⟨⟨h.inv.work hr hactor hq, hstop, hm⟩, ⟨fun v hv => Function.update_of_ne hv .., rfl⟩, ?_⟩
    simp only [rank, hrole, hr]
    rcases goesOn_spec hq hactor m with hin | ⟨status, hl, -⟩
    · rw [hin]
      refine ⟨hfewer.resolve_left fun hc => ?_, .inr rfl⟩
      rw [hc.1, hc.2] at hin
      cases hin
    · rw [hl]
      exact ⟨two_le_haltPhase _, .inr rfl⟩
  | _ =>
    rw [hr] at hw
    cases hw

/-- Where a thread waits, it is not in vain. -/
def Wakeful (max : Nat) (c : Config ω τ) (a : Act ω τ) : Prop :=
  ∀ w cond, (signals max).actor a = some w → Waits c w cond → Ready max c w

omit [DecidableEq ω] in
theorem actor_nextAct : (signals max).actor (nextAct c w) = some w := by
  unfold nextAct
  split
  · rfl
  · exact ThreadPool.actor_nextAct

omit [DecidableEq ω] in
theorem nextAct_wakeful (hstop : c.pool.pool.stop = true) (hw : (c.role w).takesPart = true) :
    Wakeful max c (nextAct c w) := by
  intro v cond hv hwaits
  rw [actor_nextAct] at hv
  cases hv
  cases cond with
  | data =>
    obtain ⟨m, hm⟩ := hwaits.1
    exact (ready_inside hm).mpr (.inl hstop)
  | participants =>
    rcases hwaits with ⟨m, hr⟩ | hr <;>
    · rw [hr] at hw
      cases hw

/-- By induction on how far it is. -/
theorem leave_run (n : Nat) : ∀ {c : Config ω τ}, MayLeave max c w → (c.role w).takesPart = true → rank c w ≤ n →
    ∃ as d, (∀ a ∈ as, (signals max).actor a = some w) ∧ Runs.run (next max) c as = .next d ∧
      Runs.Meets (next max) (Wakeful max) c as ∧ MayLeave max d w ∧ Alone c d w ∧ d.role w = .outside := by
  induction n with
  | zero =>
    intro c h hw hn
    obtain ⟨d, -, -, -, hlt, -⟩ := (leave_step h hw).exists
    omega
  | succ n ih =>
    intro c h hw hn
    obtain ⟨m, hm, hmay, halone, hlt, hout⟩ := (leave_step h hw).exists
    have hwake : Wakeful max c (nextAct c w) := nextAct_wakeful h.stop hw
    rcases hout with hout | hpart
    · refine ⟨[nextAct c w], m, fun a ha => ?_, ?_, .cons hwake hm trivial, hmay, halone, hout⟩
      · rw [List.mem_singleton.mp ha]
        exact actor_nextAct
      · rw [Runs.run, hm]
        rfl
    · obtain ⟨as, d, has, hrun, hmeets, hd, halone', hout⟩ := ih hmay hpart (by omega)
      refine ⟨nextAct c w :: as, d, fun a ha => ?_, ?_, .cons hwake hm hmeets, hd, ?_, hout⟩
      · rcases List.mem_cons.mp ha with rfl | ha
        · exact actor_nextAct
        · exact has a ha
      · rw [Runs.run, hm, next_bind, hrun]
      · exact ⟨fun v hv => (halone'.role v hv).trans (halone.role v hv), halone'.joined.trans halone.joined⟩

omit [DecidableEq ω] in
/-- Who leaves first: the thread with the head lock, if there is one. -/
theorem exists_mayLeave (h : Inv max c) (hstop : c.pool.pool.stop = true) (hn : c.numParticipants ≠ 0) :
    ∃ w, MayLeave max c w ∧ (c.role w).takesPart = true := by
  obtain ⟨nodes, waiting, hv⟩ := h.pool
  cases hm : c.pool.headMutex with
  | none =>
    obtain ⟨w, hw⟩ : ∃ w, (c.role w).takesPart ≠ false :=
      Classical.not_forall.mp (h.places.zero_iff.not.mp hn)
    exact ⟨w, ⟨h, hstop, .inl hm⟩, by simpa using hw⟩
  | some w =>
    refine ⟨w, ⟨h, hstop, .inr hm⟩, Classical.byContradiction fun hw => ?_⟩
    have hidle : c.pool.worker w = .idle := h.idle w fun m hr => hw (by rw [hr]; rfl)
    have hin := (hv.mutex w).mpr hm
    rw [hidle] at hin
    cases hin

/-- By induction on how many there are. -/
theorem all_leave (n : Nat) : ∀ {c : Config ω τ}, Inv max c → c.pool.pool.stop = true → c.numParticipants = n →
    ∃ as d, (∀ a ∈ as, ∃ w, (signals max).actor a = some w ∧ (c.role w).takesPart = true) ∧
      Runs.run (next max) c as = .next d ∧ Runs.Meets (next max) (Wakeful max) c as ∧
      d.numParticipants = 0 ∧ d.joined = c.joined ∧
      ∀ w, (c.role w).takesPart = false → d.role w = c.role w := by
  induction n with
  | zero =>
    intro c _ _ hn
    exact ⟨[], c, by simp, rfl, trivial, hn, rfl, fun _ _ => rfl⟩
  | succ n ih =>
    intro c h hstop hn
    obtain ⟨w, hmay, hw⟩ := exists_mayLeave h hstop (by omega)
    obtain ⟨as, m, has, hrun, hmeets, hm, halone, hout⟩ := leave_run (rank c w) hmay hw (Nat.le_refl _)
    have hrole : m.role = Function.update c.role w .outside := by
      funext v
      by_cases hv : v = w
      · rw [hv, Function.update_self, hout]
      · rw [Function.update_of_ne hv, halone.role v hv]
    have hnum : m.numParticipants = n := by
      have hplaces := h.places.remove (r := .outside) hw rfl
      rw [← hrole, hn] at hplaces
      exact hm.inv.places.unique hplaces
    obtain ⟨bs, d, hbs, hrun', hmeets', hd, hjoined, hothers⟩ := ih hm.inv hm.stop hnum
    have hpart : ∀ v, v ≠ w → m.role v = c.role v := halone.role
    refine ⟨as ++ bs, d, fun a ha => ?_, ?_, hmeets.append hrun hmeets', hd,
      hjoined.trans halone.joined, fun v hv => ?_⟩
    · rcases List.mem_append.mp ha with ha | ha
      · exact ⟨w, has a ha, hw⟩
      · obtain ⟨v, hav, hv⟩ := hbs a ha
        refine ⟨v, hav, ?_⟩
        rwa [← hpart v fun he => ?_]
        rw [he, hout] at hv
        cases hv
    · rw [Runs.run_append, hrun, next_bind, hrun']
    · have hvw : v ≠ w := fun he => by rw [he, hw] at hv; cases hv
      rw [hothers v (by rw [hpart v hvw]; exact hv), hpart v hvw]

/-- **Stopping comes to an end.** In every state that threads reach that take
part, work, sleep and are woken up: whoever sleeps waits for what is not there,
on either condition variable, there are never more participants than places,
and no assertion fails. If a stop was notified and a thread is in `join`, it
returns by the actions of those who have places, one after the other, and its
own last look, without a wake-up but the notifications, and without anybody
who comes to take part. -/
theorem stop_returns {c : Sleepers.Config (Config ω τ) ω Cond}
    (h : Runs.Reachable (Sleepers.next (next max) (signals max)) (Sleepers.Init Init) c) :
    (∀ p ∈ c.asleep, Waits c.state p.1 p.2 ∧ ¬Ready max c.state p.1) ∧
    Places c.state.role c.state.numParticipants ∧ c.state.numParticipants ≤ max ∧
    (∀ a, next max c.state a ≠ .failed) ∧
    (c.state.pool.pool.stop = true → ∀ w, c.state.role w = .joining → ∃ bs d,
      (∀ b ∈ bs, ∃ a woken v, b = .act a woken ∧ (signals max).actor a = some v ∧
        ((c.state.role v).takesPart = true ∨ a = .joined w)) ∧
      Runs.run (Sleepers.next (next max) (signals max)) c bs = .next d ∧
      d.state.role w = .outside ∧ d.state.joined = c.state.joined + 1) := by
  have hreach := Sleepers.reachable_base h
  have hv := reachable_inv hreach
  refine ⟨Sleepers.no_lost_wakeup enough (fun _ => reachable_inv) h, hv.places, hv.bounded,
    fun a => (next_ok hv a).not_failed, fun hstop w hw => ?_⟩
  obtain ⟨as, m, has, hrun, hmeets, hzero, hjoined, hothers⟩ := all_leave _ hv hstop rfl
  have hmw : m.role w = .joining := (hothers w (by rw [hw]; rfl)).trans hw
  have hlast : next max m (.joined w) = .next { m.setRole w .outside with joined := m.joined + 1 } := by
    simp [next, hmw, Config.awaitEmpty, hzero]
  have hwake : Wakeful max m (.joined w) := by
    intro v cond hv' _
    cases hv'
    exact (ready_joining hmw).mpr hzero
  have hall : Runs.run (next max) c.state (as ++ [.joined w]) =
      .next { m.setRole w .outside with joined := m.joined + 1 } := by
    rw [Runs.run_append, hrun, next_bind, Runs.run, hlast]
    rfl
  obtain ⟨bs, left, hbs, hrun'⟩ := Sleepers.exists_notified_run enough (fun _ => reachable_inv) h hall
    (hmeets.append hrun (.cons hwake hlast trivial))
  refine ⟨bs, _, fun b hb => ?_, hrun', Function.update_self .., congrArg (· + 1) hjoined⟩
  obtain ⟨a, ha, woken, hb⟩ := hbs b hb
  rcases List.mem_append.mp ha with ha | ha
  · obtain ⟨v, hav, hv⟩ := has a ha
    exact ⟨a, woken, v, hb, hav, .inl hv⟩
  · cases List.mem_singleton.mp ha
    exact ⟨_, woken, w, hb, rfl, .inr rfl⟩

/-- One thread sleeps for a task, the other one in `join`, when the stop comes. -/
theorem stop_returns_asleep : ∃ c d : Sleepers.Config (Config Bool Nat) Bool Cond, ∃ bs,
    Runs.run (Sleepers.next (next 2) (signals 2)) ⟨new, []⟩ [.act (.participate true ⟨false, false⟩) none,
      .act (.pool (.lockHead true)) none, .act (.pool (.check true)) none, .act (.join false) none,
      .act (.pool .notifyStop) none] = .next c ∧ c.asleep = [(false, .participants)] ∧
    Runs.run (Sleepers.next (next 2) (signals 2)) c bs = .next d ∧ d.state.joined = 1 := by
  obtain ⟨c, hc, hsl, hstop, hrole, hj⟩ : ∃ c : Sleepers.Config (Config Bool Nat) Bool Cond,
      Runs.run (Sleepers.next (next 2) (signals 2)) ⟨new, []⟩ [.act (.participate true ⟨false, false⟩) none,
        .act (.pool (.lockHead true)) none, .act (.pool (.check true)) none, .act (.join false) none,
        .act (.pool .notifyStop) none] = .next c ∧ c.asleep = [(false, .participants)] ∧
      c.state.pool.pool.stop = true ∧ c.state.role false = .joining ∧ c.state.joined = 0 :=
    ⟨_, rfl, rfl, rfl, rfl, rfl⟩
  obtain ⟨bs, d, -, hrun, -, hd⟩ :=
    (stop_returns (.run (.init ⟨init_new, rfl⟩) hc)).2.2.2.2 hstop false hrole
  exact ⟨c, d, bs, hc, hsl, hrun, hd.trans (by rw [hj])⟩

end ParticipatoryThreadPool
