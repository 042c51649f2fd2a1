/-
A strand runs its jobs one at a time, in order, and forgets none.

The slice task is a token: it is always in one `Place`, and whoever holds it
is the only one who takes jobs off the queue. `Inv` ties that place to the
contents of the queue: unless the strand is stopped, the token is parked only
while the queue is empty, and on its way to the queue only while it is not.
-/
import CxxHeaders.Strand

open Outcome LinkedQueue

namespace Strand

variable {ω σ τ : Type}

/-! ## The critical sections -/

theorem submit_eq {s : Strand τ} {task : Nat} {job : τ} (h : s.heap task = ⟨some job, none⟩) :
    s.submit task = .next ({ s with
      heap := link s.heap s.tail task, tail := task,
      sliceTask := s.sliceTask && !s.threadPool }, s.sliceTask && s.threadPool) := by
  have hv : (s.heap task).value.isSome := by rw [h]; rfl
  have hn : (s.heap task).next = none := by rw [h]
  simp only [submit, asserting_true hv, asserting_true hn, next_bind, pure_eq]
  cases hs : s.sliceTask <;> cases ht : s.threadPool <;> simp

theorem retrieve_stopping {s : Strand τ} (ht : s.threadPool = false) (hs : s.sliceTask = false) :
    s.retrieve = .next ({ s with sliceTask := true }, none) := by
  simp [retrieve, ht, hs]

theorem retrieve_eq {s : Strand τ} {as : List Nat} {x : τ} {xs : List τ} (ht : s.threadPool = true)
    (h : Rep s.toQueue as (x :: xs)) : ∃ a b bs, as = a :: b :: bs ∧ a ∉ b :: bs ∧
      unlink s.heap a a = ⟨some x, none⟩ ∧ Rep ⟨unlink s.heap a, some b, s.tail⟩ (b :: bs) xs ∧
      s.retrieve = .next ({ s with heap := unlink s.heap a, head := some b }, some a) := by
  have hne : s.head ≠ some s.tail := fun he => List.cons_ne_nil x xs (h.head_eq_tail.mp he)
  obtain ⟨a, b, bs, has, hh, ha, hn, hu, hr⟩ := h.pop
  refine ⟨a, b, bs, has, hn, hu, hr, ?_⟩
  rw [hh] at hne
  have htail : a ≠ s.tail := fun he => hne (congrArg some he)
  simp [retrieve, ht, hh, asserting_true htail, ha]

theorem resubmit_eq {s : Strand τ} {as : List Nat} {xs : List τ} (h : Rep s.toQueue as xs)
    (hs : s.sliceTask = false) :
    (s.threadPool = true ∧ xs ≠ [] ∧ s.resubmit = .next (s, true)) ∨
    ((s.threadPool = true → xs = []) ∧ s.resubmit = .next ({ s with sliceTask := true }, false)) := by
  have hiff := h.head_eq_tail
  by_cases hgo : s.threadPool = true ∧ xs ≠ []
  · exact .inl ⟨hgo.1, hgo.2, by simp [resubmit, hgo.1, hiff, hgo.2]⟩
  · refine .inr ⟨fun ht => by_contra fun hne => hgo ⟨ht, hne⟩, ?_⟩
    have hno : ¬(s.threadPool = true ∧ s.head ≠ some s.tail) := by rwa [ne_eq, hiff]
    simp [resubmit, hno, hs]

/-! ## What the strand stands for -/

/-- Where the slice task is. -/
inductive Place (ω τ : Type) where
  | parked
  | queued
  | held (w : ω) (x : Worker τ)

namespace Place

def isParked : Place ω τ → Bool
  | .parked => true
  | _ => false

def isQueued : Place ω τ → Bool
  | .queued => true
  | _ => false

/-- Whoever has the slice task there is about to take a job off the queue. -/
def isComing : Place ω τ → Bool
  | .queued => true
  | .held _ .started => true
  | _ => false

/-- Where it is after a task was put in. -/
def submitted (threadPool : Bool) : Place ω τ → Place ω τ
  | .parked => if threadPool then .queued else .parked
  | p => p

/-- The workers, when the slice task is there. -/
def worker [DecidableEq ω] : Place ω τ → ω → Worker τ
  | .held w x => Function.update (fun _ => .idle) w x
  | _ => fun _ => .idle

end Place

/-- Where the slice task is, the nodes of the queue, the job in the hand of a
worker, and those that wait. -/
structure View (ω τ : Type) where
  place : Place ω τ
  nodes : List Nat
  hand : List τ
  waiting : List τ

/-- A task off the queue that only the strand can reach. -/
structure Detached (c : Config ω σ τ) (nodes : List Nat) (task : Nat) (job : τ) : Prop where
  owner : c.owner task = .strand
  not_mem : task ∉ nodes
  node : c.strand.heap task = ⟨some job, none⟩

/-- What is in hand: a task that was retrieved and is not yet executed. -/
def InHand (c : Config ω σ τ) (nodes : List Nat) : Place ω τ → List τ → Prop
  | .held _ (.retrieved task), hand => ∃ job, Detached c nodes task job ∧ hand = [job]
  | _, hand => hand = []

/-- It stays there while nobody touches what is the strand's. -/
theorem InHand.mono {c d : Config ω σ τ} {as bs : List Nat} {p : Place ω τ} {hand : List τ}
    (h : InHand c as p hand)
    (hf : ∀ task job, Detached c as task job → Detached d bs task job) : InHand d bs p hand := by
  unfold InHand at h ⊢
  split at h
  · obtain ⟨job, hd, hh⟩ := h
    exact ⟨job, hf _ _ hd, hh⟩
  · exact h

theorem InHand.submitted {c : Config ω σ τ} {as : List Nat} {p : Place ω τ} {hand : List τ}
    (h : InHand c as p hand) (threadPool : Bool) : InHand c as (p.submitted threadPool) hand := by
  cases p with
  | parked => cases threadPool <;> exact h
  | queued => exact h
  | held => exact h

variable [DecidableEq ω]

/-- The slice task is at `p`, and nowhere else. -/
structure Config.At (c : Config ω σ τ) (p : Place ω τ) : Prop where
  sliceTask : c.strand.sliceTask = p.isParked
  pool : c.pool = p.isQueued.toNat
  worker : c.worker = p.worker
  busy : ∀ {w x}, p = .held w x → x ≠ .idle

structure Inv (c : Config ω σ τ) (v : View ω τ) : Prop where
  token : c.At v.place
  queue : Rep c.strand.toQueue v.nodes v.waiting
  owned : ∀ a ∈ v.nodes, c.owner a = .strand
  callers : ∀ a, c.owner a = .caller → ∃ job, c.strand.heap a = ⟨some job, none⟩
  hand : InHand c v.nodes v.place v.hand
  fifo : c.submitted = c.started ++ v.hand ++ v.waiting
  awake : c.strand.threadPool = true → v.place = .parked → v.waiting = []
  coming : c.strand.threadPool = true → v.place.isComing = true → v.waiting ≠ []

theorem Inv.not_mem {c : Config ω σ τ} {v : View ω τ} (h : Inv c v) {a : Nat}
    (ha : c.owner a ≠ .strand) : a ∉ v.nodes :=
  fun hm => ha (h.owned a hm)

theorem Inv.owner_tail {c : Config ω σ τ} {v : View ω τ} (h : Inv c v) :
    c.owner c.strand.tail = .strand :=
  h.owned _ (List.mem_of_getLast? h.queue.tail)

theorem init_inv {c : Config ω σ τ} (h : Init c) : ∃ v, Inv c v := by
  obtain ⟨dummy, threadPool, garbage, rfl⟩ := h
  refine ⟨⟨.parked, [dummy], [], []⟩, ⟨rfl, rfl, rfl, nofun⟩, .empty (Function.update_self ..), ?_,
    ?_, rfl, rfl,
    fun _ _ => rfl, nofun⟩
  · intro a ha
    rw [List.mem_singleton.mp ha]
    simp [new]
  · intro a ha
    by_cases hd : a = dummy
    · rw [hd] at ha
      simp [new] at ha
    · simp [new, hd] at ha

/-! ## The slice task -/

/-- Whoever is in `run` holds it. -/
theorem Config.At.held {c : Config ω σ τ} {p : Place ω τ} (h : c.At p) {w : ω} {x : Worker τ}
    (hw : c.worker w = x) (hx : x ≠ .idle) : p = .held w x := by
  rw [h.worker] at hw
  cases p with
  | parked => exact absurd hw.symm hx
  | queued => exact absurd hw.symm hx
  | held v y =>
    by_cases hv : w = v
    · subst hv
      rw [← hw]
      simp [Place.worker]
    · simp only [Place.worker, Function.update_of_ne hv] at hw
      exact absurd hw.symm hx

theorem Config.At.queued {c : Config ω σ τ} {p : Place ω τ} (h : c.At p) (hpool : 0 < c.pool) :
    p = .queued := by
  rw [h.pool] at hpool
  cases p with
  | queued => rfl
  | _ => cases hpool

/-- The holder moves on. -/
theorem Config.At.step {c : Config ω σ τ} {w : ω} {x : Worker τ} (h : c.At (.held w x)) (y : Worker τ) :
    Function.update c.worker w y = (Place.held w y).worker := by
  rw [h.worker]
  exact Function.update_idem ..

/-- The holder gives it away. -/
theorem Config.At.release {c : Config ω σ τ} {w : ω} {x : Worker τ} (h : c.At (.held w x)) :
    Function.update c.worker w .idle = fun _ => .idle := by
  rw [h.step]
  exact Function.update_eq_self (α := ω) _ _

theorem Config.At.submitted {c d : Config ω σ τ} {p : Place ω τ} (h : c.At p)
    (hs : d.strand.sliceTask = (c.strand.sliceTask && !c.strand.threadPool))
    (hp : d.pool = c.pool + (c.strand.sliceTask && c.strand.threadPool).toNat)
    (hw : d.worker = c.worker) : d.At (p.submitted c.strand.threadPool) := by
  rw [h.sliceTask] at hs hp
  rw [h.pool] at hp
  rw [h.worker] at hw
  cases p with
  | parked =>
    cases ht : c.strand.threadPool with
    | true =>
      rw [ht] at hs hp
      exact ⟨hs, hp, hw, fun he => by cases he⟩
    | false =>
      rw [ht] at hs hp
      exact ⟨hs, hp, hw, fun he => by cases he⟩
  | queued => exact ⟨hs, hp, hw, h.busy⟩
  | held => exact ⟨hs, hp, hw, h.busy⟩

/-- There is one slice task: in `m_sliceTask`, or in the pool, or with one
worker. -/
def OneSliceTask (c : Config ω σ τ) : Prop :=
  (c.strand.sliceTask = true ∧ c.pool = 0 ∧ ∀ w, c.worker w = .idle) ∨
  (c.strand.sliceTask = false ∧ c.pool = 1 ∧ ∀ w, c.worker w = .idle) ∨
  (c.strand.sliceTask = false ∧ c.pool = 0 ∧ ∃! w, c.worker w ≠ .idle)

theorem Config.At.oneSliceTask {c : Config ω σ τ} {p : Place ω τ} (h : c.At p) : OneSliceTask c := by
  obtain ⟨hs, hn, hw, hbusy⟩ := h
  cases p with
  | parked => exact .inl ⟨hs, hn, fun w => congrFun hw w⟩
  | queued => exact .inr (.inl ⟨hs, hn, fun w => congrFun hw w⟩)
  | held w x =>
    refine .inr (.inr ⟨hs, hn, w, ?_, ?_⟩)
    · show c.worker w ≠ .idle
      rw [hw, Place.worker, Function.update_self]
      exact hbusy rfl
    · intro u hu
      by_contra hne
      rw [hw, Place.worker, Function.update_of_ne hne] at hu
      exact hu rfl

/-! ## The steps -/

/-- Stopping the strand moves nothing. -/
theorem Inv.stop {c : Config ω σ τ} {v : View ω τ} (h : Inv c v) (stopper : σ → Stopper) :
    Inv { c with strand := { c.strand with threadPool := false }, stopper := stopper } v :=
  ⟨⟨h.token.sliceTask, h.token.pool, h.token.worker, h.token.busy⟩, h.queue, h.owned, h.callers,
    h.hand.mono fun _ _ hd => ⟨hd.owner, hd.not_mem, hd.node⟩, h.fifo, nofun, nofun⟩

variable [DecidableEq σ]

theorem createTask_ok {c : Config ω σ τ} {v : View ω τ} (h : Inv c v) (task : Nat) (job : τ) :
    (next c (.createTask task job)).Ok fun d => Inv d v := by
  simp only [next, ok_bind, ok_requiring]
  intro hfree
  have hne : ∀ a, c.owner a ≠ .nobody → a ≠ task := fun a ha he => ha (he ▸ hfree)
  have hstrand : ∀ a, c.owner a = .strand → a ≠ task := fun a ha => hne a (by rw [ha]; decide)
  refine ⟨⟨h.token.sliceTask, h.token.pool, h.token.worker, h.token.busy⟩,
    h.queue.frame (h.not_mem (by rw [hfree]; decide)) _, ?_, ?_, ?_, h.fifo, h.awake, h.coming⟩
  · intro a ha
    show Function.update c.owner task .caller a = .strand
    rw [Function.update_of_ne (hstrand a (h.owned a ha))]
    exact h.owned a ha
  · intro a ha
    show ∃ job', Function.update c.strand.heap task ⟨some job, none⟩ a = ⟨some job', none⟩
    by_cases hat : a = task
    · exact ⟨job, by rw [hat, Function.update_self]⟩
    · rw [Function.update_of_ne hat]
      exact h.callers a (by rwa [← Function.update_of_ne hat .caller c.owner])
  · refine h.hand.mono fun t j hd => ?_
    have ht := hstrand t hd.owner
    exact ⟨(Function.update_of_ne ht _ _).trans hd.owner, hd.not_mem,
      (Function.update_of_ne ht _ _).trans hd.node⟩

theorem dropTask_ok {c : Config ω σ τ} {v : View ω τ} (h : Inv c v) (task : Nat) :
    (next c (.dropTask task)).Ok fun d => Inv d v := by
  simp only [next, ok_bind, ok_requiring]
  intro hcaller
  have hstrand : ∀ a, c.owner a = .strand → a ≠ task := fun a ha he => by
    rw [he, hcaller] at ha
    cases ha
  refine ⟨⟨h.token.sliceTask, h.token.pool, h.token.worker, h.token.busy⟩, h.queue, ?_, ?_, ?_,
    h.fifo, h.awake, h.coming⟩
  · intro a ha
    exact (Function.update_of_ne (hstrand a (h.owned a ha)) _ _).trans (h.owned a ha)
  · intro a ha
    have hat : a ≠ task := fun he => by
      rw [he] at ha
      simp at ha
    exact h.callers a (by rwa [← Function.update_of_ne hat .nobody c.owner])
  · exact h.hand.mono fun t j hd =>
      ⟨(Function.update_of_ne (hstrand t hd.owner) _ _).trans hd.owner, hd.not_mem, hd.node⟩

theorem submit_ok {c : Config ω σ τ} {v : View ω τ} (h : Inv c v) (task : Nat) :
    (next c (.submit task)).Ok fun d => ∃ w, Inv d w := by
  simp only [next, ok_bind, ok_requiring]
  intro hcaller
  obtain ⟨job, hnode⟩ := h.callers task hcaller
  have hnew : task ∉ v.nodes := h.not_mem (by rw [hcaller]; decide)
  have hstrand : ∀ a, c.owner a = .strand → a ≠ task := fun a ha he => by
    rw [he, hcaller] at ha
    cases ha
  have howner : ∀ a, c.owner a = .strand → Function.update c.owner task .strand a = .strand :=
    fun a ha => by
    rw [Function.update_of_ne (hstrand a ha), ha]
  rw [submit_eq hnode, hnode]
  refine ⟨⟨v.place.submitted c.strand.threadPool, v.nodes ++ [task], v.hand, v.waiting ++ [job]⟩,
    h.token.submitted rfl rfl rfl, h.queue.push hnew hnode, ?_, ?_, ?_, ?_, ?_, ?_⟩
  · intro a ha
    rcases List.mem_append.mp ha with hm | hm
    · exact howner a (h.owned a hm)
    · rw [List.mem_singleton.mp hm]
      exact Function.update_self ..
  · intro a ha
    have hat : a ≠ task := fun he => by
      rw [he] at ha
      simp at ha
    replace ha : c.owner a = .caller := by rwa [← Function.update_of_ne hat .strand c.owner]
    have htail : a ≠ c.strand.tail := fun he => by
      rw [he, h.owner_tail] at ha
      cases ha
    obtain ⟨job', hj⟩ := h.callers a ha
    exact ⟨job', (link_of_ne _ htail hat).trans hj⟩
  · refine (h.hand.mono fun t j hd => ?_).submitted _
    have ht := hstrand t hd.owner
    have htail : t ≠ c.strand.tail := fun he => hd.not_mem (he ▸ List.mem_of_getLast? h.queue.tail)
    refine ⟨howner t hd.owner, ?_, (link_of_ne _ htail ht).trans hd.node⟩
    rw [List.mem_append, List.mem_singleton, not_or]
    exact ⟨hd.not_mem, ht⟩
  · show c.submitted ++ [job] = c.started ++ v.hand ++ (v.waiting ++ [job])
    rw [h.fifo, List.append_assoc]
  · intro ht hp
    replace ht : c.strand.threadPool = true := ht
    cases hq : v.place <;> rw [hq, ht] at hp <;> cases hp
  · intro _ _
    simp

theorem take_ok {c : Config ω σ τ} {v : View ω τ} (h : Inv c v) (w : ω) :
    (next c (.take w)).Ok fun d => ∃ w, Inv d w := by
  simp only [next]
  cases hw : c.worker w with
  | idle =>
    simp only [ok_bind, ok_requiring]
    intro hpool
    have hp := h.token.queued hpool
    obtain ⟨hs, hn, hworker, -⟩ := h.token
    rw [hp] at hs hn hworker
    refine ⟨{ v with place := .held w .started }, ⟨hs, ?_, ?_, ?_⟩, h.queue, h.owned, h.callers, ?_,
      h.fifo, ?_, fun ht _ => h.coming ht (by rw [hp]; rfl)⟩
    · show c.pool - 1 = 0
      rw [hn]
      rfl
    · show Function.update c.worker w .started = _
      rw [hworker]
      rfl
    · intro u x he
      cases he
      intro hx
      cases hx
    · have hh := h.hand
      rw [hp] at hh
      exact hh
    · intro _ he
      cases he
  | _ => trivial

theorem retrieve_ok {c : Config ω σ τ} {v : View ω τ} (h : Inv c v) (w : ω) :
    (next c (.retrieve w)).Ok fun d => ∃ w, Inv d w := by
  simp only [next]
  cases hw : c.worker w with
  | started =>
    have hp := h.token.held hw nofun
    have hat := h.token
    have hh := h.hand
    rw [hp] at hat hh
    have hs : c.strand.sliceTask = false := hat.sliceTask
    replace hh : v.hand = [] := hh
    have hfifo := h.fifo
    rw [hh, List.append_nil] at hfifo
    cases ht : c.strand.threadPool with
    | false =>
      rw [retrieve_stopping ht hs]
      refine ⟨⟨.parked, v.nodes, [], v.waiting⟩, ⟨rfl, hat.pool, hat.release, nofun⟩, h.queue, h.owned,
        h.callers, rfl, ?_, ?_, nofun⟩
      · rw [List.append_nil]
        exact hfifo
      · intro ht'
        rw [ht] at ht'
        cases ht'
    | true =>
      have hne := h.coming ht (by rw [hp]; rfl)
      obtain ⟨job, rest, hx⟩ := List.exists_cons_of_ne_nil hne
      have hq := h.queue
      rw [hx] at hq hfifo
      obtain ⟨a, b, bs, has, hn, hu, hr, he⟩ := retrieve_eq ht hq
      have hown : ∀ n ∈ a :: b :: bs, c.owner n = .strand := has ▸ h.owned
      rw [he]
      refine ⟨⟨.held w (.retrieved a), b :: bs, [job], rest⟩, ⟨hs, hat.pool, hat.step _, ?_⟩, hr, ?_, ?_,
        ⟨job, ⟨hown a (by simp), hn, hu⟩, rfl⟩, ?_, nofun, nofun⟩
      · intro u x hux
        cases hux
        exact nofun
      · exact fun n hm => hown n (List.mem_cons_of_mem a hm)
      · intro n hcaller
        have hna : n ≠ a := fun hna => by
          rw [hna] at hcaller
          exact nomatch hcaller.symm.trans (hown a (by simp))
        obtain ⟨j, hj⟩ := h.callers n hcaller
        exact ⟨j, (unlink_of_ne _ hna).trans hj⟩
      · rw [List.append_assoc]
        exact hfifo
  | _ => trivial

theorem execute_ok {c : Config ω σ τ} {v : View ω τ} (h : Inv c v) (w : ω) :
    (next c (.execute w)).Ok fun d => ∃ w, Inv d w := by
  simp only [next]
  cases hw : c.worker w with
  | retrieved task =>
    have hp := h.token.held hw nofun
    have hat := h.token
    have hh := h.hand
    rw [hp] at hat hh
    obtain ⟨job, hd, hhand⟩ := hh
    have hnode := hd.node
    simp only [hnode]
    refine ⟨⟨.held w (.executing job), v.nodes, [], v.waiting⟩,
      ⟨hat.sliceTask, hat.pool, hat.step _, ?_⟩,
      h.queue, ?_, ?_, rfl, ?_, nofun, nofun⟩
    · intro u x hux
      cases hux
      exact nofun
    · intro a ha
      exact (Function.update_of_ne (fun he : a = task => hd.not_mem (he ▸ ha)) _ _).trans (h.owned a ha)
    · intro a ha
      by_cases hat : a = task
      · exact ⟨job, hat ▸ hnode⟩
      · exact h.callers a (by rwa [← Function.update_of_ne hat .caller c.owner])
    · rw [h.fifo, hhand, List.append_nil]
  | _ => trivial

theorem executed_ok {c : Config ω σ τ} {v : View ω τ} (h : Inv c v) (w : ω) :
    (next c (.executed w)).Ok fun d => ∃ w, Inv d w := by
  simp only [next]
  cases hw : c.worker w with
  | executing job =>
    have hp := h.token.held hw nofun
    have hat := h.token
    have hh := h.hand
    rw [hp] at hat hh
    refine ⟨{ v with place := .held w .executed }, ⟨hat.sliceTask, hat.pool, hat.step _, ?_⟩, h.queue,
      h.owned, h.callers, hh, h.fifo, nofun, nofun⟩
    intro u x hux
    cases hux
    exact nofun
  | _ => trivial

theorem resubmit_ok {c : Config ω σ τ} {v : View ω τ} (h : Inv c v) (w : ω) :
    (next c (.resubmit w)).Ok fun d => ∃ w, Inv d w := by
  simp only [next]
  cases hw : c.worker w with
  | executed =>
    have hp := h.token.held hw nofun
    have hat := h.token
    have hh := h.hand
    rw [hp] at hat hh
    have hs : c.strand.sliceTask = false := hat.sliceTask
    have hn : c.pool = 0 := hat.pool
    rcases resubmit_eq h.queue hs with ⟨ht, hne, he⟩ | ⟨hempty, he⟩
    · rw [he]
      exact ⟨{ v with place := .queued }, ⟨hs, by rw [hn]; rfl, hat.release, nofun⟩, h.queue, h.owned,
        h.callers, hh, h.fifo, nofun, fun _ _ => hne⟩
    · rw [he]
      exact ⟨{ v with place := .parked }, ⟨rfl, hn, hat.release, nofun⟩, h.queue, h.owned,
        h.callers, hh, h.fifo, fun ht _ => hempty ht, nofun⟩
  | _ => trivial

theorem next_ok {c : Config ω σ τ} {v : View ω τ} (h : Inv c v) (a : Act ω σ τ) :
    (next c a).Ok fun d => ∃ w, Inv d w := by
  cases a with
  | createTask task job => exact (createTask_ok h task job).mono fun _ hd => ⟨v, hd⟩
  | dropTask task => exact (dropTask_ok h task).mono fun _ hd => ⟨v, hd⟩
  | submit task => exact submit_ok h task
  | take w => exact take_ok h w
  | retrieve w => exact retrieve_ok h w
  | execute w => exact execute_ok h w
  | executed w => exact executed_ok h w
  | resubmit w => exact resubmit_ok h w
  | stopAndJoin s =>
    simp only [next]
    cases c.stopper s with
    | idle => exact ⟨v, h.stop _⟩
    | _ => trivial
  | joined s =>
    simp only [next]
    cases c.stopper s with
    | waiting =>
      simp only [ok_bind, ok_requiring]
      exact fun _ => ⟨v, ⟨h.token.sliceTask, h.token.pool, h.token.worker, h.token.busy⟩, h.queue, h.owned,
        h.callers, h.hand.mono fun _ _ hd => ⟨hd.owner, hd.not_mem, hd.node⟩, h.fifo, h.awake, h.coming⟩
    | _ => trivial
  | stopInJob w =>
    simp only [next]
    cases c.worker w with
    | executing => exact ⟨v, h.stop _⟩
    | _ => trivial

/-! ## Every run -/

theorem reachable_inv {c : Config ω σ τ} (h : Runs.Reachable next Init c) : ∃ v, Inv c v :=
  h.invariant (I := fun c => ∃ v, Inv c v) (fun _ => init_inv) fun _ a ⟨_, hv⟩ => next_ok hv a

/-- **A strand serialises its jobs.** In whatever order its critical sections
are run, by any number of workers: there is one slice task; no two jobs run at
the same time; the jobs started are the first ones submitted, in order, and
the others wait, but for one in the hand of a worker; while the strand is not
stopped and jobs wait, the slice task is in the pool or with a worker; and no
assertion fails. -/
theorem serialises {c : Config ω σ τ} (h : Runs.Reachable next Init c) :
    OneSliceTask c ∧
    (∀ u w i j, c.worker u = .executing i → c.worker w = .executing j → u = w) ∧
    (c.started <+: c.submitted ∧ ∃ nodes hand waiting, Rep c.strand.toQueue nodes waiting ∧
      c.submitted = c.started ++ hand ++ waiting ∧
      (hand = [] ∨ ∃ w task job, c.worker w = .retrieved task ∧ hand = [job])) ∧
    (c.strand.threadPool = true → c.strand.head ≠ some c.strand.tail →
      c.pool = 1 ∨ ∃ w, c.worker w ≠ .idle) ∧
    ∀ a, next c a ≠ .failed := by
  obtain ⟨v, hv⟩ := reachable_inv h
  refine ⟨hv.token.oneSliceTask, ?_, ⟨⟨v.hand ++ v.waiting, ?_⟩, v.nodes, v.hand, v.waiting, hv.queue,
    hv.fifo, ?_⟩, ?_, fun a => (next_ok hv a).not_failed⟩
  · intro u w i j hu hw
    have hp := (hv.token.held hu nofun).symm.trans (hv.token.held hw nofun)
    injection hp
  · rw [← List.append_assoc]
    exact hv.fifo.symm
  · have hh := hv.hand
    have hworker := hv.token.worker
    unfold InHand at hh
    split at hh
    · next w task hp =>
      obtain ⟨job, -, hj⟩ := hh
      rw [hp] at hworker
      refine .inr ⟨w, task, job, ?_, hj⟩
      rw [hworker, Place.worker, Function.update_self]
    · exact .inl hh
  · intro ht hne
    have hwait : v.waiting ≠ [] := fun he => hne (hv.queue.head_eq_tail.mpr he)
    rcases hv.token.oneSliceTask with ⟨hs, -, -⟩ | ⟨-, hn, -⟩ | ⟨-, -, w, hw, -⟩
    · have hp : v.place = .parked := by
        have hsp := hv.token.sliceTask
        rw [hs] at hsp
        cases hq : v.place with
        | parked => rfl
        | _ => rw [hq] at hsp; cases hsp
      exact absurd (hv.awake ht hp) hwait
    · exact .inl hn
    · exact .inr ⟨w, hw⟩

/-- Two tasks; the second arrives while a worker has the slice task and has
not yet looked for the first. -/
def twoTasks : List (Act Bool Unit Nat) :=
  [.createTask 1 10, .createTask 2 20, .submit 1, .take false, .submit 2, .retrieve false, .execute false,
   .executed false, .resubmit false, .take true, .retrieve true, .execute true]

theorem serialises_twoTasks : ∃ c : Config Bool Unit Nat,
    Runs.run next (new 0 true fun _ => ⟨none, none⟩) twoTasks = .next c ∧ OneSliceTask c := by
  obtain ⟨c, hc⟩ : ∃ c : Config Bool Unit Nat,
    Runs.run next (new 0 true fun _ => ⟨none, none⟩) twoTasks = .next c := ⟨_, rfl⟩
  exact ⟨c, hc, (serialises (.run (.init ⟨0, true, _, rfl⟩) hc)).1⟩

end Strand
