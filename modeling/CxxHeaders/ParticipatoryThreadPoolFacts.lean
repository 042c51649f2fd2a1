/-
Who takes part in a pool, and who sleeps.

`m_numParticipants` is the number of threads that have a place (`Inv.places`),
and a thread without one does nothing in the pool (`Inv.idle`). Threads sleep on
two condition variables, and both are notified enough (`enough`).
-/
import CxxHeaders.ParticipatoryThreadPool

open Outcome

namespace ParticipatoryThreadPool

variable {ω τ : Type} {max : Nat}

/-- So many threads have a place. -/
def Places (role : ω → Role) (n : Nat) : Prop :=
  ∃ l : List ω, l.Nodup ∧ l.length = n ∧ ∀ w, w ∈ l ↔ (role w).takesPart

structure Inv (max : Nat) (c : Config ω τ) : Prop where
  pool : ∃ nodes waiting, ThreadPool.Inv c.pool nodes waiting
  idle : ∀ w, (∀ m, c.role w ≠ .inside m) → c.pool.worker w = .idle
  places : Places c.role c.numParticipants
  bounded : c.numParticipants ≤ max
  leaving : ∀ w, c.role w = .leaving .stopNotified → c.pool.pool.stop = true
  returned : ∀ w, (w, .stopNotified) ∈ c.returned → c.pool.pool.stop = true

variable {c d : Config ω τ} {role : ω → Role} {n : Nat} {w : ω} {r : Role}

/-! ## Places -/

theorem Places.zero_iff (h : Places role n) : n = 0 ↔ ∀ w, (role w).takesPart = false := by
  obtain ⟨l, -, hlen, hmem⟩ := h
  rw [← hlen, List.length_eq_zero_iff, List.eq_nil_iff_forall_not_mem]
  simp [hmem]

theorem Places.unique {m : Nat} (h : Places role n) (h' : Places role m) : n = m := by
  obtain ⟨l, hnodup, hlen, hmem⟩ := h
  obtain ⟨l', hnodup', hlen', hmem'⟩ := h'
  have hperm : l.Perm l' := (List.perm_ext_iff_of_nodup hnodup hnodup').mpr fun w => by
    rw [hmem, hmem']
  rw [← hlen, ← hlen', hperm.length_eq]

theorem Places.pos (h : Places role n) (hw : (role w).takesPart = true) : 0 < n := by
  refine Nat.pos_of_ne_zero fun he => ?_
  rw [h.zero_iff.mp he w] at hw
  cases hw

section
variable [DecidableEq ω]

theorem takesPart_update (v : ω) : (Function.update role w r v).takesPart =
    if v = w then r.takesPart else (role v).takesPart := by
  by_cases hv : v = w
  · rw [hv, Function.update_self, if_pos rfl]
  · rw [Function.update_of_ne hv, if_neg hv]

theorem Places.same (h : Places role n) (hr : r.takesPart = (role w).takesPart) :
    Places (Function.update role w r) n := by
  obtain ⟨l, hnodup, hlen, hmem⟩ := h
  refine ⟨l, hnodup, hlen, fun v => ?_⟩
  rw [hmem, takesPart_update]
  split
  · next hv => rw [hv, hr]
  · rfl

theorem Places.add (h : Places role n) (hw : (role w).takesPart = false) (hr : r.takesPart = true) :
    Places (Function.update role w r) (n + 1) := by
  obtain ⟨l, hnodup, hlen, hmem⟩ := h
  have hnew : w ∉ l := by simp [hmem, hw]
  refine ⟨w :: l, List.nodup_cons.mpr ⟨hnew, hnodup⟩, by simp [hlen], fun v => ?_⟩
  rw [List.mem_cons, hmem, takesPart_update]
  by_cases hv : v = w
  · simp [hv, hr]
  · simp [hv]

theorem Places.remove (h : Places role n) (hw : (role w).takesPart = true) (hr : r.takesPart = false) :
    Places (Function.update role w r) (n - 1) := by
  obtain ⟨l, hnodup, hlen, hmem⟩ := h
  have hold : w ∈ l := (hmem w).mpr hw
  refine ⟨l.erase w, hnodup.erase w, by rw [List.length_erase_of_mem hold, hlen], fun v => ?_⟩
  rw [hnodup.mem_erase_iff, hmem, takesPart_update]
  by_cases hv : v = w
  · simp [hv, hr]
  · simp [hv]

end

/-! ## The steps -/

theorem init_inv (h : Init c) : Inv max c := by
  obtain ⟨hpool, hn, hrole, hreturned, -⟩ := h
  have hidle : ∀ w, c.pool.worker w = .idle := by
    obtain ⟨dummy, garbage, hnew⟩ := hpool
    simp [hnew, ThreadPool.new]
  refine ⟨(ThreadPool.init_inv hpool).imp fun _ hv => ⟨[], hv⟩, fun w _ => hidle w, ⟨[], ?_⟩, ?_, ?_, ?_⟩
  · simp [hn, hrole, Role.takesPart]
  · omega
  · simp [hrole]
  · simp [hreturned]

variable [DecidableEq ω]

/-- A thread that is no worker goes from one role to another. -/
theorem Inv.setRole (h : Inv max c) (hw : ∀ m, c.role w ≠ .inside m) (hr : r ≠ .leaving .stopNotified)
    (hp : Places (Function.update c.role w r) n) (hn : n ≤ max) :
    Inv max { c.setRole w r with numParticipants := n } := by
  refine ⟨h.pool, fun v hv => ?_, hp, hn, fun v hv => ?_, h.returned⟩
  · by_cases hvw : v = w
    · exact hvw ▸ h.idle w hw
    · refine h.idle v fun m he => hv m ?_
      exact (Function.update_of_ne hvw ..).trans he
  · by_cases hvw : v = w
    · replace hv : Function.update c.role w r v = .leaving .stopNotified := hv
      rw [hvw, Function.update_self] at hv
      exact absurd hv hr
    · exact h.leaving v ((Function.update_of_ne hvw ..).symm.trans hv)

theorem Inv.outside (h : Inv max c) (hw : (c.role w).takesPart = false) (hr : r.takesPart = false) :
    Inv max (c.setRole w r) := by
  refine h.setRole (fun m he => ?_) (fun he => ?_) (h.places.same (by rw [hr, hw])) h.bounded
  · rw [he] at hw
    cases hw
  · rw [he] at hr
    cases hr

theorem Inv.enter (h : Inv max c) (hw : (c.role w).takesPart = false) (m : Mode) :
    Inv max (c.enter max w m) := by
  unfold Config.enter
  split
  · next hlt =>
    refine h.setRole (fun m he => ?_) (fun he => by cases he) (h.places.add hw rfl) hlt
    rw [he] at hw
    cases hw
  · exact h.outside hw rfl

theorem Inv.awaitEmpty (h : Inv max c) (hw : (c.role w).takesPart = false) : Inv max (c.awaitEmpty w) := by
  unfold Config.awaitEmpty
  have hout := h.outside (r := .outside) hw rfl
  split
  · exact ⟨hout.pool, hout.idle, hout.places, hout.bounded, hout.leaving, hout.returned⟩
  · exact h.outside hw rfl

omit [DecidableEq ω] in
theorem Inv.return (h : Inv max c) {status : Status} (hs : status = .stopNotified → c.pool.pool.stop = true) :
    Inv max { c with returned := (w, status) :: c.returned } := by
  refine ⟨h.pool, h.idle, h.places, h.bounded, h.leaving, fun v hmem => ?_⟩
  rcases List.mem_cons.mp hmem with he | hmem
  · exact hs (congrArg Prod.snd he).symm
  · exact h.returned v hmem

theorem Inv.leave (h : Inv max c) {status : Status} (hw : c.role w = .leaving status) :
    (next max c (.leave w)).Returns (Inv max) := by
  have hpart : (c.role w).takesPart = true := by rw [hw]; rfl
  have hpos : 0 < c.numParticipants := h.places.pos hpart
  simp only [next, hw, asserting_true hpos]
  have hout := h.setRole (r := .outside) (fun m he => by rw [hw] at he; cases he) (fun he => by cases he)
    (h.places.remove hpart rfl) (Nat.le_trans (Nat.sub_le ..) h.bounded)
  exact hout.return fun he => h.leaving w (he ▸ hw)

/-! ## Workers -/

/-- What an action of the pool leaves its worker: where it does not go on it is
idle. -/
theorem goesOn_spec {p q : ThreadPool.Config ω τ} {a : ThreadPool.Act ω τ} (h : ThreadPool.next p a = .next q)
    (hw : ThreadPool.actor a = some w) (m : Mode) :
    goesOn m a (q.worker w) = .inside m ∨ ∃ status, goesOn m a (q.worker w) = .leaving status ∧
      q.worker w = .idle ∧ (status = .stopNotified → q.pool.stop = true) := by
  cases ThreadPool.next_stepped p a q h with
  | createTask | dropTask | submit | notifyStop => cases hw
  | lockHead | detach | execute => exact .inl rfl
  | stopNotified _ hc =>
    cases hw
    simp only [Function.update_self]
    exact .inr ⟨.stopNotified, rfl, trivial, fun _ => ThreadPool.check_eq_stopNotified.mp hc⟩
  | available | empty =>
    cases hw
    simp only [Function.update_self]
    exact .inl rfl
  | timeout =>
    cases hw
    exact .inr ⟨.timeout, rfl, Function.update_self .., fun he => by cases he⟩
  | executed =>
    cases hw
    cases ho : m.once with
    | false => exact .inl (by simp [goesOn, ho])
    | true => exact .inr ⟨.ok, by simp [goesOn, ho], Function.update_self .., fun he => by cases he⟩

/-- A stop is for ever. -/
theorem next_stop {p : ThreadPool.Config ω τ} (hp : ∃ nodes waiting, ThreadPool.Inv p nodes waiting)
    (a : ThreadPool.Act ω τ) :
    (ThreadPool.next p a).Yields fun q => p.pool.stop = true → q.pool.stop = true := by
  obtain ⟨nodes, waiting, hv⟩ := hp
  exact fun q hq hstop => (ThreadPool.next_after hv hstop a q hq).stop

/-- A worker takes a step in the pool. -/
theorem Inv.work (h : Inv max c) {m : Mode} (hr : c.role w = .inside m) {a : ThreadPool.Act ω τ}
    (hw : ThreadPool.actor a = some w) {q : ThreadPool.Config ω τ} (hq : ThreadPool.next c.pool a = .next q) :
    Inv max { c.setRole w (goesOn m a (q.worker w)) with pool := q } := by
  obtain ⟨nodes, waiting, hv⟩ := h.pool
  obtain ⟨hothers, -⟩ := ThreadPool.next_others a q hq
  have hstop := next_stop h.pool a q hq
  have hspec := goesOn_spec hq hw m
  refine ⟨(ThreadPool.next_ok hv a).of_next hq, fun v hr' => ?_, ?_, h.bounded, fun v hr' => ?_,
    fun v hr' => hstop (h.returned v hr')⟩
  · by_cases hvw : v = w
    · rcases hspec with hin | ⟨status, -, hidle, -⟩
      · exact absurd ((congrArg _ hvw).trans ((Function.update_self ..).trans hin)) (hr' m)
      · exact hvw ▸ hidle
    · refine (hothers v fun he => hvw (Option.some.inj (hw.symm.trans he)).symm).trans ?_
      refine h.idle v fun m' he => hr' m' ?_
      exact (Function.update_of_ne hvw ..).trans he
  · refine h.places.same ?_
    rw [hr]
    rcases hspec with hin | ⟨status, hl, -⟩
    · rw [hin]
    · rw [hl]
      rfl
  · by_cases hvw : v = w
    · replace hr' : Function.update c.role w (goesOn m a (q.worker w)) v = .leaving .stopNotified := hr'
      rw [hvw, Function.update_self] at hr'
      rcases hspec with hin | ⟨status, hl, -, hs⟩
      · rw [hin] at hr'
        cases hr'
      · rw [hl] at hr'
        cases hr'
        exact hs rfl
    · exact hstop (h.leaving v ((Function.update_of_ne hvw ..).symm.trans hr'))

/-- Somebody else does something with the pool. -/
theorem Inv.use (h : Inv max c) {a : ThreadPool.Act ω τ} (hw : ThreadPool.actor a = none)
    {q : ThreadPool.Config ω τ} (hq : ThreadPool.next c.pool a = .next q) : Inv max { c with pool := q } := by
  obtain ⟨nodes, waiting, hv⟩ := h.pool
  obtain ⟨hothers, -⟩ := ThreadPool.next_others a q hq
  have hstop := next_stop h.pool a q hq
  refine ⟨(ThreadPool.next_ok hv a).of_next hq, fun w hr => ?_, h.places, h.bounded,
    fun w hr => hstop (h.leaving w hr), fun w hr => hstop (h.returned w hr)⟩
  exact (hothers w (by rw [hw]; simp)).trans (h.idle w hr)

theorem next_ok (h : Inv max c) (a : Act ω τ) : (next max c a).Ok (Inv max) := by
  cases a with
  | pool a =>
    obtain ⟨nodes, waiting, hv⟩ := h.pool
    have hok := ThreadPool.next_ok hv a
    simp only [next]
    cases hw : ThreadPool.actor a with
    | none =>
      cases hq : ThreadPool.next c.pool a with
      | next q => exact h.use hw hq
      | failed => rw [hq] at hok; exact hok.elim
      | _ => trivial
    | some w =>
      dsimp only
      cases hr : c.role w with
      | inside m =>
        simp only [ok_bind, ok_requiring]
        intro _
        cases hq : ThreadPool.next c.pool a with
        | next q => exact h.work hr hw hq
        | failed => rw [hq] at hok; exact hok.elim
        | _ => trivial
      | _ => trivial
  | participate w m =>
    simp only [next]
    cases hr : c.role w with
    | outside => exact h.enter (by rw [hr]; rfl) m
    | _ => trivial
  | enter w =>
    simp only [next]
    cases hr : c.role w with
    | entering m => exact h.enter (by rw [hr]; rfl) m
    | _ => trivial
  | giveUp w =>
    simp only [next]
    cases hr : c.role w with
    | entering m =>
      simp only [ok_bind, ok_requiring]
      exact fun _ => (h.outside (r := .outside) (by rw [hr]; rfl) rfl).return fun he => by cases he
    | _ => trivial
  | leave w =>
    cases hr : c.role w with
    | leaving status => exact (h.leave hr).ok
    | _ => simp [next, hr]
  | join w =>
    simp only [next]
    cases hr : c.role w with
    | outside => exact h.awaitEmpty (by rw [hr]; rfl)
    | _ => trivial
  | joined w =>
    simp only [next]
    cases hr : c.role w with
    | joining => exact h.awaitEmpty (by rw [hr]; rfl)
    | _ => trivial

theorem reachable_inv (h : Runs.Reachable (next max) Init c) : Inv max c :=
  h.invariant (fun _ => init_inv) fun _ a hv => next_ok hv a

/-! ## Sleep -/

/-- Who may be asleep, and where. -/
def Waits (c : Config ω τ) (w : ω) : Cond → Prop
  | .data => (∃ m, c.role w = .inside m) ∧ c.pool.worker w = .waiting
  | .participants => (∃ m, c.role w = .entering m) ∨ c.role w = .joining

/-- What it waits for. -/
def Ready (max : Nat) (c : Config ω τ) (w : ω) : Prop :=
  match c.role w with
  | .entering _ => c.numParticipants < max
  | .joining => c.numParticipants = 0
  | _ => ThreadPool.HasWork c.pool

section
omit [DecidableEq ω]

theorem ready_inside {m : Mode} (h : c.role w = .inside m) :
    Ready max c w ↔ ThreadPool.HasWork c.pool := by
  simp [Ready, h]

theorem ready_entering {m : Mode} (h : c.role w = .entering m) :
    Ready max c w ↔ c.numParticipants < max := by
  simp [Ready, h]

theorem ready_joining (h : c.role w = .joining) : Ready max c w ↔ c.numParticipants = 0 := by
  simp [Ready, h]

end

/-- What a thread does for itself: the number of places that are taken goes down
only with a notification, and the thread sleeps for good reason. -/
structure OwnStep (max : Nat) (c : Config ω τ) (a : Act ω τ) (d : Config ω τ) (w : ω) : Prop where
  actor : (signals max).actor a = some w
  pool : d.pool = c.pool
  role : ∀ v, v ≠ w → d.role v = c.role v
  fewer : c.numParticipants ≤ d.numParticipants ∨ (signals max).notifies c a = .all .participants
  joined : d.joined = c.joined ∨ c.numParticipants = 0
  sleeps : ∀ cond, (signals max).sleeps c a = some cond → Waits d w cond ∧ ¬Ready max d w

variable {a : Act ω τ}

theorem enter_own {m : Mode} (ha : (signals max).actor a = some w)
    (hs : (signals max).sleeps c a = if c.numParticipants < max then none else some .participants) :
    OwnStep max c a (c.enter max w m) w := by
  by_cases hlt : c.numParticipants < max
  · have he : c.enter max w m = { c.setRole w (.inside m) with
        numParticipants := c.numParticipants + 1 } := if_pos hlt
    rw [he]
    refine ⟨ha, rfl, fun v hv => Function.update_of_ne hv .., .inl (Nat.le_succ _), .inl rfl,
      fun cond hc => ?_⟩
    rw [hs, if_pos hlt] at hc
    cases hc
  · have he : c.enter max w m = c.setRole w (.entering m) := if_neg hlt
    have hrole : (c.setRole w (.entering m)).role w = .entering m := Function.update_self ..
    rw [he]
    refine ⟨ha, rfl, fun v hv => Function.update_of_ne hv .., .inl (Nat.le_refl _), .inl rfl,
      fun cond hc => ?_⟩
    rw [hs, if_neg hlt] at hc
    cases hc
    exact ⟨.inl ⟨m, hrole⟩, (ready_entering hrole).not.mpr hlt⟩

theorem awaitEmpty_own (ha : (signals max).actor a = some w)
    (hs : (signals max).sleeps c a = if c.numParticipants = 0 then none else some .participants) :
    OwnStep max c a (c.awaitEmpty w) w := by
  by_cases hz : c.numParticipants = 0
  · have he : c.awaitEmpty w = { c.setRole w .outside with joined := c.joined + 1 } := if_pos hz
    rw [he]
    refine ⟨ha, rfl, fun v hv => Function.update_of_ne hv .., .inl (Nat.le_refl _), .inr hz,
      fun cond hc => ?_⟩
    rw [hs, if_pos hz] at hc
    cases hc
  · have he : c.awaitEmpty w = c.setRole w .joining := if_neg hz
    have hrole : (c.setRole w .joining).role w = .joining := Function.update_self ..
    rw [he]
    refine ⟨ha, rfl, fun v hv => Function.update_of_ne hv .., .inl (Nat.le_refl _), .inl rfl,
      fun cond hc => ?_⟩
    rw [hs, if_neg hz] at hc
    cases hc
    exact ⟨.inr hrole, (ready_joining hrole).not.mpr hz⟩

theorem next_own (ha : ∀ b, a ≠ .pool b) (h : next max c a = .next d) : ∃ w, OwnStep max c a d w := by
  cases a with
  | pool b => exact absurd rfl (ha b)
  | participate w m =>
    cases hr : c.role w with
    | outside =>
      simp only [next, hr, pure_eq, Outcome.next.injEq] at h
      exact h ▸ ⟨w, enter_own rfl rfl⟩
    | _ => simp [next, hr] at h
  | enter w =>
    cases hr : c.role w with
    | entering m =>
      simp only [next, hr, pure_eq, Outcome.next.injEq] at h
      exact h ▸ ⟨w, enter_own rfl rfl⟩
    | _ => simp [next, hr] at h
  | giveUp w =>
    cases hr : c.role w with
    | entering m =>
      simp only [next, hr, bind_eq_next, pure_eq, Outcome.next.injEq] at h
      obtain ⟨-, -, rfl⟩ := h
      exact ⟨w, rfl, rfl, fun _ hv => Function.update_of_ne hv .., .inl (Nat.le_refl _), .inl rfl,
        fun _ hs => by cases hs⟩
    | _ => simp [next, hr] at h
  | leave w =>
    cases hr : c.role w with
    | leaving status =>
      simp only [next, hr, bind_eq_next, pure_eq, Outcome.next.injEq] at h
      obtain ⟨-, -, rfl⟩ := h
      exact ⟨w, rfl, rfl, fun _ hv => Function.update_of_ne hv .., .inr rfl, .inl rfl,
        fun _ hs => by cases hs⟩
    | _ => simp [next, hr] at h
  | join w =>
    cases hr : c.role w with
    | outside =>
      simp only [next, hr, pure_eq, Outcome.next.injEq] at h
      exact h ▸ ⟨w, awaitEmpty_own rfl rfl⟩
    | _ => simp [next, hr] at h
  | joined w =>
    cases hr : c.role w with
    | joining =>
      simp only [next, hr, pure_eq, Outcome.next.injEq] at h
      exact h ▸ ⟨w, awaitEmpty_own rfl rfl⟩
    | _ => simp [next, hr] at h

/-- A step in the pool. -/
theorem next_pool {b : ThreadPool.Act ω τ} (h : next max c (.pool b) = .next d) :
    ThreadPool.next c.pool b = .next d.pool ∧ d.numParticipants = c.numParticipants ∧
    d.joined = c.joined ∧
    (∀ v, ThreadPool.actor b ≠ some v → d.role v = c.role v) ∧
    ∀ w, ThreadPool.actor b = some w → ∃ m, c.role w = .inside m ∧
      d.role w = goesOn m b (d.pool.worker w) := by
  simp only [next] at h
  cases hw : ThreadPool.actor b with
  | none =>
    simp only [hw, bind_eq_next, pure_eq, Outcome.next.injEq] at h
    obtain ⟨q, hq, rfl⟩ := h
    exact ⟨hq, rfl, rfl, fun _ _ => rfl, fun w he => by cases he⟩
  | some w =>
    simp only [hw] at h
    cases hr : c.role w with
    | inside m =>
      simp only [hr, bind_eq_next, pure_eq, Outcome.next.injEq] at h
      obtain ⟨-, -, q, hq, rfl⟩ := h
      refine ⟨hq, rfl, rfl, fun v hv => Function.update_of_ne (fun he => hv (congrArg some he.symm)) ..,
        fun v hv => ?_⟩
      cases hv
      exact ⟨m, hr, Function.update_self ..⟩
    | _ => simp [hr] at h

omit [DecidableEq ω] in
/-- Whoever waits on `m_cond` goes on to do so while the number does not go down. -/
theorem Waits.keep (h : Waits c w .participants) (hready : ¬Ready max c w) (hrole : d.role w = c.role w)
    (hle : c.numParticipants ≤ d.numParticipants) : ¬Ready max d w := by
  rcases h with ⟨m, hr⟩ | hr
  · rw [ready_entering hr] at hready
    rw [ready_entering (hrole.trans hr)]
    omega
  · rw [ready_joining hr] at hready
    rw [ready_joining (hrole.trans hr)]
    omega

omit [DecidableEq ω] in
theorem Waits.congr {cond : Cond} (h : Waits c w cond) (hrole : d.role w = c.role w)
    (hworker : d.pool.worker w = c.pool.worker w) : Waits d w cond := by
  cases cond with
  | data => exact ⟨h.1.imp fun _ hr => hrole.trans hr, hworker.trans h.2⟩
  | participants => exact h.imp (Exists.imp fun _ hr => hrole.trans hr) hrole.trans

/-- A step in the pool keeps the waits of others. -/
theorem pool_keeps (hi : Inv max c) {b : ThreadPool.Act ω τ} (hn : next max c (.pool b) = .next d)
    (hw : ThreadPool.actor b ≠ some w) {cond : Cond} (hwaits : Waits c w cond) (hready : ¬Ready max c w) :
    Waits d w cond ∧ (Ready max d w → (signals max).notifies c (.pool b) = .all cond ∨
      (signals max).notifies c (.pool b) = .one cond ∧ ∀ v, Waits c v cond → v = w) := by
  obtain ⟨hq, hnum, -, hrole, -⟩ := next_pool hn
  obtain ⟨hothers, -⟩ := ThreadPool.next_others b _ hq
  refine ⟨hwaits.congr (hrole w hw) (hothers w hw), fun hr => ?_⟩
  cases cond with
  | participants => exact absurd hr (hwaits.keep hready (hrole w hw) (by omega))
  | data =>
    obtain ⟨m, hm⟩ := hwaits.1
    rw [ready_inside hm] at hready
    rw [ready_inside ((hrole w hw).trans hm)] at hr
    have henough := (ThreadPool.enough.keeps (c := ()) hi.pool hq hw hwaits.2 hready).2 hr
    simp only [signals]
    rcases henough with hall | ⟨hone, honly⟩
    · rw [hall]
      exact .inl rfl
    · rw [hone]
      exact .inr ⟨rfl, fun v hv => honly v hv.2⟩

theorem pool_sleeps {b : ThreadPool.Act ω τ} (hn : next max c (.pool b) = .next d)
    (hw : ThreadPool.actor b = some w) {cond : Cond} (hs : (signals max).sleeps c (.pool b) = some cond) :
    Waits d w cond ∧ ¬Ready max d w := by
  obtain ⟨hq, -, -, -, hrole⟩ := next_pool hn
  obtain ⟨m, -, hm⟩ := hrole w hw
  simp only [signals, Option.map_eq_some_iff] at hs
  obtain ⟨u, hs, rfl⟩ := hs
  obtain ⟨hwait, hwork⟩ := ThreadPool.next_sleeps hq hw (by rw [hs]; rfl)
  have hin : d.role w = .inside m := by
    rcases goesOn_spec hq hw m with hin | ⟨-, -, hidle, -⟩
    · exact hm.trans hin
    · rw [hwait] at hidle
      cases hidle
  exact ⟨⟨⟨m, hin⟩, hwait⟩, (ready_inside hin).not.mpr hwork⟩

/-- **Both condition variables notify enough**: the pool's as in any pool, and
`m_cond` because a thread that leaves notifies all. -/
theorem enough : Sleepers.Enough (next max) (signals max) (Inv (ω := ω) (τ := τ) max) Waits (Ready max) where
  sleeps := by
    intro c a d w cond hi hn hw hs
    by_cases hpool : ∃ b, a = .pool b
    · obtain ⟨b, rfl⟩ := hpool
      exact pool_sleeps hn hw hs
    · obtain ⟨v, hown⟩ := next_own (fun b he => hpool ⟨b, he⟩) hn
      have hwv : w = v := Option.some.inj (hw.symm.trans hown.actor)
      exact hwv ▸ hown.sleeps cond hs
  keeps := by
    intro c a d w cond hi hn hw hwaits hready
    by_cases hpool : ∃ b, a = .pool b
    · obtain ⟨b, rfl⟩ := hpool
      exact pool_keeps hi hn hw hwaits hready
    · obtain ⟨v, hown⟩ := next_own (fun b he => hpool ⟨b, he⟩) hn
      have hrole := hown.role w fun hwv => hw (hwv ▸ hown.actor)
      refine ⟨hwaits.congr hrole (by rw [hown.pool]), fun hr => .inl ?_⟩
      cases cond with
      | data =>
        obtain ⟨m, hm⟩ := hwaits.1
        rw [ready_inside hm] at hready
        rw [ready_inside (hrole.trans hm), hown.pool] at hr
        exact absurd hr hready
      | participants => exact hown.fewer.resolve_left fun hle => hwaits.keep hready hrole hle hr

end ParticipatoryThreadPool
