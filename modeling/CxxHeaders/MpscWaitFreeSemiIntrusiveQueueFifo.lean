/-
The queue is a fifo queue, and gives its nodes back clean.

The nodes from the head to the tail are a list that is cut behind every node
whose successor is in the hands of a producer (`CutList.Rep`). A pop that finds
a successor finds the one that was exchanged next, and nobody owes a link to
the node it gives out: the only producer that could have has paid.
-/
import CxxHeaders.CutList
import CxxHeaders.MpscWaitFreeSemiIntrusiveQueue

open Outcome

namespace MpscWaitFreeSemiIntrusiveQueue

variable {ω τ : Type}

/-- The link a producer still has to store. -/
def Producer.owed : Producer → Option (Nat × Nat)
  | .linking oldTail newNode => some (oldTail, newNode)
  | _ => none

theorem Producer.linking_of_owed {p : Producer} {a b : Nat} (h : p.owed = some (a, b)) : p = .linking a b := by
  cases p with
  | linking oldTail newNode =>
    injection h with h
    injection h with ha hb
    rw [ha, hb]
  | _ => cases h

/-- Where the consumer stands, the head is the first or the second of the nodes. -/
def Stands (q : MpscWaitFreeSemiIntrusiveQueue τ) (nodes : List Nat) : Consumer → Prop
  | .idle => q.head = nodes.head?
  | .popping h | .asking h => q.head = some h ∧ nodes.head? = some h
  | .taking h n | .moved h n =>
    q.head = some h ∧ nodes.head? = some h ∧ (q.heap h).next = some n
  | .advanced h => ∃ n, q.head = some n ∧ nodes.head? = some h ∧ (q.heap h).next = some n

/-- What was exchanged and not yet popped. -/
def waiting (heap : Nat → Node τ) (nodes : List Nat) : Consumer → List τ
  | .moved h _ | .advanced h => (heap h).data :: (nodes.drop 2).map fun a => (heap a).data
  | _ => nodes.tail.map fun a => (heap a).data

structure Inv (c : Config ω τ) (follows : Nat → Option Nat) (nodes : List Nat) : Prop where
  links : CutList.Rep (fun a => (c.queue.heap a).next) (fun w => (c.producer w).owed) follows nodes
  tail : nodes.getLast? = c.queue.tail
  nonempty : nodes ≠ []
  stands : Stands c.queue nodes c.consumer
  owned : ∀ a ∈ nodes, c.owner a = .queue
  ready : ∀ a, c.owner a ≠ .nobody → c.owner a ≠ .queue → (c.queue.heap a).next = none
  pushing : ∀ w a, c.producer w = .pushing a → c.owner a = .producer w
  fifo : c.exchanged = c.popped ++ waiting c.queue.heap nodes c.consumer

/-! ## The memory -/

theorem storeNext_self (heap : Nat → Node τ) (a : Nat) (x : Option Nat) :
    (storeNext heap a x a).next = x := by
  simp [storeNext]

theorem storeNext_of_ne (heap : Nat → Node τ) {a b : Nat} (x : Option Nat) (h : b ≠ a) :
    storeNext heap a x b = heap b :=
  Function.update_of_ne h ..

theorem storeData_of_ne (heap : Nat → Node τ) {a b : Nat} (x : τ) (h : b ≠ a) :
    storeData heap a x b = heap b :=
  Function.update_of_ne h ..

theorem moveData_of_ne {moved : τ → τ} (heap : Nat → Node τ) {a b n : Nat} (hn : n ≠ a) (hb : n ≠ b) :
    moveData moved heap a b n = heap n := by
  rw [moveData, storeData_of_ne _ _ hn, storeData_of_ne _ _ hb]

theorem moveData_self {moved : τ → τ} (heap : Nat → Node τ) (a b : Nat) :
    (moveData moved heap a b a).data = (heap b).data := by
  simp [moveData, storeData]

@[simp] theorem data_storeNext (heap : Nat → Node τ) (a b : Nat) (x : Option Nat) :
    (storeNext heap a x b).data = (heap b).data := by
  by_cases h : b = a
  · simp [storeNext, h]
  · rw [storeNext_of_ne _ _ h]

@[simp] theorem next_storeData (heap : Nat → Node τ) (a b : Nat) (x : τ) :
    (storeData heap a x b).next = (heap b).next := by
  by_cases h : b = a
  · simp [storeData, h]
  · rw [storeData_of_ne _ _ h]

@[simp] theorem next_moveData (moved : τ → τ) (heap : Nat → Node τ) (a b n : Nat) :
    (moveData moved heap a b n).next = (heap n).next := by
  simp [moveData]

theorem next_storeNext (heap : Nat → Node τ) (a : Nat) (x : Option Nat) :
    (fun b => (storeNext heap a x b).next) = Function.update (fun b => (heap b).next) a x := by
  funext b
  by_cases h : b = a
  · rw [h, storeNext_self, Function.update_self]
  · rw [storeNext_of_ne _ _ h, Function.update_of_ne h]

theorem next_update (heap : Nat → Node τ) (a : Nat) (n : Node τ) :
    (fun b => (Function.update heap a n b).next) = Function.update (fun b => (heap b).next) a n.next := by
  funext b
  by_cases h : b = a
  · rw [h, Function.update_self, Function.update_self]
  · rw [Function.update_of_ne h, Function.update_of_ne h]

/-! ## Where the consumer stands -/

variable {q q' : MpscWaitFreeSemiIntrusiveQueue τ} {nodes : List Nat} {s : Consumer}

/-- What waits is in the nodes. -/
theorem waiting_congr {heap : Nat → Node τ} (hs : Stands q nodes s)
    (h : ∀ a ∈ nodes, (heap a).data = (q.heap a).data) :
    waiting heap nodes s = waiting q.heap nodes s := by
  have htail : ∀ a ∈ nodes.tail, (heap a).data = (q.heap a).data := fun a ha => h a (List.mem_of_mem_tail ha)
  have hdrop : ∀ a ∈ nodes.drop 2, (heap a).data = (q.heap a).data := fun a ha => h a (List.mem_of_mem_drop ha)
  cases s with
  | moved b n =>
    simp only [waiting, h b (List.mem_of_head? hs.2.1), List.map_congr_left hdrop]
  | advanced b =>
    obtain ⟨n, -, hb, -⟩ := hs
    simp only [waiting, h b (List.mem_of_head? hb), List.map_congr_left hdrop]
  | _ => simp only [waiting, List.map_congr_left htail]

/-- A node that is put in behind waits. -/
theorem waiting_append {heap : Nat → Node τ} {h : Nat} {rest : List Nat} {b : Nat}
    (hs : Stands q (h :: rest) s) (hr : ∀ n, (q.heap h).next = some n → rest ≠ []) :
    waiting heap (h :: rest ++ [b]) s = waiting heap (h :: rest) s ++ [(heap b).data] := by
  have hdrop : ∀ n, (q.heap h).next = some n → (rest ++ [b]).drop 1 = rest.drop 1 ++ [b] := by
    intro n hn
    exact List.drop_append_of_le_length (List.length_pos_iff.mpr (hr n hn))
  cases s with
  | moved a n =>
    obtain ⟨-, ha, hn⟩ := hs
    injection ha with ha
    simp [waiting, hdrop n (ha ▸ hn)]
  | advanced a =>
    obtain ⟨n, -, ha, hn⟩ := hs
    injection ha with ha
    simp [waiting, hdrop n (ha ▸ hn)]
  | _ => simp [waiting]

theorem Stands.append (h : Stands q nodes s) (hn : nodes ≠ []) (b : Nat) (tail : Option Nat) :
    Stands { q with tail } (nodes ++ [b]) s := by
  have hhead : (nodes ++ [b]).head? = nodes.head? := List.head?_append_of_ne_nil _ hn
  cases s with
  | idle => exact h.trans hhead.symm
  | advanced a =>
    obtain ⟨n, hq, ha, hl⟩ := h
    exact ⟨n, hq, hhead.trans ha, hl⟩
  | popping a => exact ⟨h.1, hhead.trans h.2⟩
  | asking a => exact ⟨h.1, hhead.trans h.2⟩
  | taking a n => exact ⟨h.1, hhead.trans h.2.1, h.2.2⟩
  | moved a n => exact ⟨h.1, hhead.trans h.2.1, h.2.2⟩

/-- The consumer does not see what happens to links that were not there, nor
to nodes that are not in the queue. -/
theorem Stands.congr {heap : Nat → Node τ} (h : Stands q nodes s)
    (hk : ∀ a ∈ nodes, ∀ n, (q.heap a).next = some n → (heap a).next = some n) :
    Stands { q with heap } nodes s := by
  cases s with
  | idle => exact h
  | popping a => exact h
  | asking a => exact h
  | advanced a =>
    obtain ⟨n, hq, ha, hl⟩ := h
    exact ⟨n, hq, ha, hk a (List.mem_of_head? ha) n hl⟩
  | taking a n => exact ⟨h.1, h.2.1, hk a (List.mem_of_head? h.2.1) n h.2.2⟩
  | moved a n => exact ⟨h.1, h.2.1, hk a (List.mem_of_head? h.2.1) n h.2.2⟩

/-! ## What holds between the steps -/

theorem init_inv {c : Config ω τ} (h : Init c) : ∃ follows nodes, Inv c follows nodes := by
  obtain ⟨node, heap, rfl⟩ := h
  refine ⟨fun _ => none, [node], .singleton (storeNext_self ..), rfl, by simp, rfl, ?_, ?_, ?_, rfl⟩
  · intro a ha
    rw [List.mem_singleton.mp ha]
    simp [new]
  · intro a hn hq
    by_cases ha : a = node
    · rw [ha]
      exact storeNext_self ..
    · simp [new, ha] at hn
  · intro w a hw
    cases hw

variable {c : Config ω τ} {follows : Nat → Option Nat}

theorem Inv.not_mem (h : Inv c follows nodes) {a : Nat} (ha : c.owner a ≠ .queue) : a ∉ nodes :=
  fun hm => ha (h.owned a hm)

theorem Inv.producer_not_owing (h : Inv c follows nodes) {w : ω} {a : Nat} (hw : c.producer w = .pushing a) :
    a ∉ nodes ∧ (c.queue.heap a).next = none := by
  have ho := h.pushing w a hw
  exact ⟨h.not_mem (by simp [ho]), h.ready a (by simp [ho]) (by simp [ho])⟩

/-- A node from outside is changed. -/
theorem Inv.outside (h : Inv c follows nodes) {a : Nat} (ha : a ∉ nodes) {n : Node τ} (hn : n.next = none)
    (owner : Nat → Owner ω) (hp : ∀ w, c.producer w ≠ .pushing a)
    (hothers : ∀ b, b ≠ a → owner b = c.owner b) :
    Inv { c with
      queue := { c.queue with heap := Function.update c.queue.heap a n }, owner := owner } follows nodes := by
  have hne : ∀ b ∈ nodes, b ≠ a := fun b hb he => ha (he ▸ hb)
  have hheap : ∀ b ∈ nodes, Function.update c.queue.heap a n b = c.queue.heap b := fun b hb =>
    Function.update_of_ne (hne b hb) ..
  refine ⟨?_, h.tail, h.nonempty, ?_, ?_, ?_, ?_, ?_⟩
  · show CutList.Rep (fun b => (Function.update c.queue.heap a n b).next) _ _ _
    rw [next_update]
    exact h.links.frame ha _
  · exact h.stands.congr fun b hb m hm => by rw [hheap b hb]; exact hm
  · intro b hb
    exact (hothers b (hne b hb)).trans (h.owned b hb)
  · intro b hn' hq
    by_cases hba : b = a
    · show (Function.update c.queue.heap a n b).next = none
      rw [hba, Function.update_self]
      exact hn
    · show (Function.update c.queue.heap a n b).next = none
      rw [Function.update_of_ne hba]
      have ho : owner b = c.owner b := hothers b hba
      exact h.ready b (ho ▸ hn') (ho ▸ hq)
  · intro w b hw
    have hba : b ≠ a := fun he => hp w (he ▸ hw)
    exact (hothers b hba).trans (h.pushing w b hw)
  · show c.exchanged = c.popped ++ waiting (Function.update c.queue.heap a n) nodes c.consumer
    rw [waiting_congr h.stands fun b hb => by rw [hheap b hb]]
    exact h.fifo

/-- The caller's node becomes somebody else's. -/
theorem Inv.give (h : Inv c follows nodes) {node : Nat} (hcaller : c.owner node = .caller) (x : Owner ω) :
    Inv { c with owner := Function.update c.owner node x } follows nodes := by
  have hne : ∀ b, c.owner b ≠ .caller → Function.update c.owner node x b = c.owner b :=
    fun b hb => Function.update_of_ne (fun he : b = node => hb (he ▸ hcaller)) ..
  refine ⟨h.links, h.tail, h.nonempty, h.stands, ?_, ?_, ?_, h.fifo⟩
  · intro a ha
    have ho := h.owned a ha
    exact (hne a (by simp [ho])).trans ho
  · intro a hn hq
    by_cases han : a = node
    · rw [han]
      exact h.ready node (by simp [hcaller]) (by simp [hcaller])
    · have ho : Function.update c.owner node x a = c.owner a := Function.update_of_ne han ..
      exact h.ready a (ho ▸ hn) (ho ▸ hq)
  · intro w a hw
    have ho := h.pushing w a hw
    exact (hne a (by simp [ho])).trans ho

/-- Between its calls the consumer finds the first node at the head. -/
theorem Inv.head (h : Inv c follows nodes) (hc : c.consumer = .idle) :
    ∃ a, c.queue.head = some a ∧ nodes.head? = some a := by
  have hs := h.stands
  rw [hc] at hs
  obtain ⟨a, rest, rfl⟩ := List.exists_cons_of_ne_nil h.nonempty
  exact ⟨a, hs, rfl⟩

/-- The consumer goes on, and reads at most. -/
theorem Inv.move (h : Inv c follows nodes) {s : Consumer} (hs : Stands c.queue nodes s)
    (hw : waiting c.queue.heap nodes s = waiting c.queue.heap nodes c.consumer) :
    Inv { c with consumer := s } follows nodes :=
  ⟨h.links, h.tail, h.nonempty, hs, h.owned, h.ready, h.pushing, hw ▸ h.fifo⟩

/-- The first two nodes, while the consumer takes the second one's data. -/
theorem Inv.front (h : Inv c follows nodes) {a n : Nat} (ha : nodes.head? = some a)
    (hn : (c.queue.heap a).next = some n) : ∃ rest, nodes = a :: n :: rest := by
  obtain ⟨rest, rfl⟩ : ∃ rest, nodes = a :: rest := by
    cases nodes with
    | nil => cases ha
    | cons b rest =>
      injection ha with ha
      exact ⟨rest, by rw [ha]⟩
  obtain ⟨rest', hr⟩ := h.links.next_front hn
  exact ⟨rest', by rw [hr]⟩

/-- Where a pop finds nothing, everything was popped or somebody is linking. -/
theorem Inv.nothing (h : Inv c follows nodes) {head : Nat} (hc : c.consumer = .popping head)
    (hn : (c.queue.heap head).next = none) :
    c.popped = c.exchanged ∨ ∃ w oldTail newNode, c.producer w = .linking oldTail newNode := by
  have hs := h.stands
  have hfifo := h.fifo
  rw [hc] at hs hfifo
  obtain ⟨a, rest, rfl⟩ := List.exists_cons_of_ne_nil h.nonempty
  have ha : a = head := Option.some.inj hs.2
  rcases h.links.next_front_none (ha ▸ hn) with rfl | ⟨w, b, hw⟩
  · left
    rw [hfifo]
    simp [waiting]
  · right
    exact ⟨w, a, b, Producer.linking_of_owed hw⟩

/-! ## Nodes outside -/

section
variable [DecidableEq ω] {moved : τ → τ}

theorem createNode_ok (h : Inv c follows nodes) (node : Nat) (data : τ) :
    (next moved c (.createNode node data)).Ok fun d => Inv d follows nodes := by
  simp only [next, ok_bind, ok_requiring]
  intro hfree
  refine h.outside (h.not_mem (by simp [hfree])) rfl _ ?_ fun b hb => Function.update_of_ne hb ..
  intro w hw
  have ho := h.pushing w node hw
  rw [hfree] at ho
  cases ho

theorem dropNode_ok (h : Inv c follows nodes) (node : Nat) :
    (next moved c (.dropNode node)).Ok fun d => Inv d follows nodes := by
  simp only [next, ok_bind, ok_requiring]
  exact fun hcaller => h.give hcaller .nobody

theorem setData_ok (h : Inv c follows nodes) (node : Nat) (data : τ) :
    (next moved c (.setData node data)).Ok fun d => Inv d follows nodes := by
  simp only [next, ok_bind, ok_requiring]
  intro hcaller
  refine h.outside (h.not_mem (by simp [hcaller])) ?_ c.owner ?_ fun _ _ => rfl
  · exact h.ready node (by simp [hcaller]) (by simp [hcaller])
  · intro w hw
    have ho := h.pushing w node hw
    rw [hcaller] at ho
    cases ho

/-! ## The producers -/

theorem owed_update (producer : ω → Producer) (w : ω) (x : Producer) :
    (fun u => (Function.update producer w x u).owed) =
      Function.update (fun u => (producer u).owed) w x.owed :=
  Function.comp_update Producer.owed producer w x

theorem push_ok (h : Inv c follows nodes) (w : ω) (node : Nat) :
    (next moved c (.push w node)).Ok fun d => Inv d follows nodes := by
  simp only [next, ok_bind, ok_requiring, ok_asserting]
  rintro ⟨hidle, hcaller⟩
  have hi := h.give hcaller (.producer w)
  refine ⟨h.ready node (by simp [hcaller]) (by simp [hcaller]), ?_, hi.tail, hi.nonempty, hi.stands,
    hi.owned, hi.ready, ?_, hi.fifo⟩
  · refine h.links.congr_owed fun u => ?_
    by_cases hu : u = w
    · show (Function.update c.producer w (.pushing node) u).owed = (c.producer u).owed
      rw [hu, Function.update_self, hidle]
      rfl
    · show (Function.update c.producer w (.pushing node) u).owed = (c.producer u).owed
      rw [Function.update_of_ne hu]
  · intro u a hu
    by_cases huw : u = w
    · subst huw
      replace hu : Function.update c.producer u (.pushing node) u = .pushing a := hu
      rw [Function.update_self] at hu
      injection hu with hna
      rw [← hna]
      exact Function.update_self ..
    · exact hi.pushing u a ((Function.update_of_ne huw ..).symm.trans hu)

/-- Who is pushing after a producer went on was pushing before. -/
theorem pushing_of_update {producer : ω → Producer} {w u : ω} {x : Producer} {a : Nat}
    (hx : x ≠ .pushing a) (hu : Function.update producer w x u = .pushing a) :
    u ≠ w ∧ producer u = .pushing a := by
  by_cases huw : u = w
  · rw [huw, Function.update_self] at hu
    exact absurd hu hx
  · exact ⟨huw, (Function.update_of_ne huw ..).symm.trans hu⟩

/-- The list grows, and is cut before the new node. -/
theorem exchange_ok (h : Inv c follows nodes) (w : ω) : (next moved c (.exchange w)).Ok fun d =>
    ∃ oldTail newNode, Inv d (Function.update follows oldTail (some newNode)) (nodes ++ [newNode]) := by
  simp only [next]
  cases hw : c.producer w with
  | pushing newNode =>
    obtain ⟨hnew, hnext⟩ := h.producer_not_owing hw
    have hown := h.pushing w newNode hw
    have hpure : (c.producer w).owed = none := by rw [hw]; rfl
    cases htail : c.queue.tail with
    | none => exact h.nonempty (List.getLast?_eq_none_iff.mp (h.tail.trans htail))
    | some oldTail =>
      have hne : ∀ b, b ≠ newNode → Function.update c.owner newNode .queue b = c.owner b :=
        fun b hb => Function.update_of_ne hb ..
      refine ⟨oldTail, newNode, ?_, by simp, by simp, h.stands.append h.nonempty _ _, ?_, ?_, ?_, ?_⟩
      · show CutList.Rep _ (fun u => (Function.update c.producer w (.linking oldTail newNode) u).owed) _ _
        rw [owed_update]
        exact h.links.exchange (h.tail.trans htail) hnew hnext hpure
      · intro a ha
        by_cases han : a = newNode
        · rw [han]
          exact Function.update_self ..
        · have hm : a ∈ nodes := by simpa [han] using ha
          exact (hne a han).trans (h.owned a hm)
      · intro a hn hq
        by_cases han : a = newNode
        · rw [han]
          exact hnext
        · have ho := hne a han
          exact h.ready a (ho ▸ hn) (ho ▸ hq)
      · intro u a hu
        obtain ⟨huw, hu⟩ := pushing_of_update (x := .linking oldTail newNode) nofun hu
        have ho := h.pushing u a hu
        have han : a ≠ newNode := by
          intro he
          rw [he, hown] at ho
          injection ho with ho
          exact huw ho.symm
        exact (hne a han).trans ho
      · show c.exchanged ++ [(c.queue.heap newNode).data] =
          c.popped ++ waiting c.queue.heap (nodes ++ [newNode]) c.consumer
        obtain ⟨a, rest, rfl⟩ := List.exists_cons_of_ne_nil h.nonempty
        rw [waiting_append h.stands, h.fifo, List.append_assoc]
        intro n hn he
        obtain ⟨rest', hr⟩ := h.links.next_front hn
        rw [he] at hr
        cases hr
  | _ => trivial

/-- The link is stored, and the list is whole there. -/
theorem link_ok (h : Inv c follows nodes) (w : ω) :
    (next moved c (.link w)).Ok fun d => Inv d follows nodes := by
  simp only [next]
  cases hw : c.producer w with
  | linking oldTail newNode =>
    have hdebt : (c.producer w).owed = some (oldTail, newNode) := by rw [hw]; rfl
    have hnone : (c.queue.heap oldTail).next = none := (h.links.debt w _ _ hdebt).2
    refine ⟨?_, h.tail, h.nonempty, h.stands.congr ?_, h.owned, ?_, ?_, ?_⟩
    · show CutList.Rep (fun a => (storeNext c.queue.heap oldTail (some newNode) a).next)
        (fun u => (Function.update c.producer w .idle u).owed) _ _
      rw [next_storeNext, owed_update]
      exact h.links.link hdebt
    · intro a _ n hn
      have ha : a ≠ oldTail := by
        intro he
        rw [he, hnone] at hn
        cases hn
      rw [storeNext_of_ne _ _ ha]
      exact hn
    · intro a hn hq
      have ha : a ≠ oldTail := fun he => hq (h.owned a (he ▸ h.links.mem_of_owed hdebt))
      show (storeNext c.queue.heap oldTail (some newNode) a).next = none
      rw [storeNext_of_ne _ _ ha]
      exact h.ready a hn hq
    · intro u a hu
      exact h.pushing u a (pushing_of_update (x := .idle) nofun hu).2
    · show c.exchanged = c.popped ++ waiting (storeNext c.queue.heap oldTail (some newNode)) nodes c.consumer
      rw [waiting_congr h.stands fun a _ => data_storeNext ..]
      exact h.fifo
  | _ => trivial

/-! ## The consumer -/

theorem pop_ok (h : Inv c follows nodes) : (next moved c .pop).Ok fun d => Inv d follows nodes := by
  simp only [next]
  cases hc : c.consumer with
  | idle =>
    obtain ⟨a, hhead, hfirst⟩ := h.head hc
    rw [hhead]
    exact h.move (s := .popping a) ⟨hhead, hfirst⟩ (by rw [hc]; rfl)
  | _ => trivial

theorem loadNext_ok (h : Inv c follows nodes) : (next moved c .loadNext).Ok fun d => Inv d follows nodes := by
  have hs := h.stands
  simp only [next]
  cases hc : c.consumer with
  | popping head =>
    rw [hc] at hs
    dsimp only
    cases hn : (c.queue.heap head).next with
    | none => exact h.move (s := .idle) (hs.1.trans hs.2.symm) (by rw [hc]; rfl)
    | some n => exact h.move (s := .taking head n) ⟨hs.1, hs.2, hn⟩ (by rw [hc]; rfl)
  | _ => trivial

theorem moveData_ok (h : Inv c follows nodes) : (next moved c .moveData).Ok fun d => Inv d follows nodes := by
  have hs := h.stands
  have hfifo := h.fifo
  simp only [next]
  cases hc : c.consumer with
  | taking head n =>
    rw [hc] at hs hfifo
    obtain ⟨hq, hh, hn⟩ := hs
    obtain ⟨rest, rfl⟩ := h.front hh hn
    have hnext : ∀ a, (moveData moved c.queue.heap head n a).next = (c.queue.heap a).next :=
      next_moveData _ _ _ _
    refine ⟨?_, h.tail, h.nonempty, ⟨hq, hh, (hnext head).trans hn⟩, h.owned, ?_, h.pushing, ?_⟩
    · show CutList.Rep (fun a => (moveData moved c.queue.heap head n a).next) _ _ _
      rw [funext hnext]
      exact h.links
    · intro a hno hqo
      exact (hnext a).trans (h.ready a hno hqo)
    · obtain ⟨hhead, hnodup⟩ := List.nodup_cons.mp h.links.nodup
      have hkeep : ∀ a ∈ rest, (moveData moved c.queue.heap head n a).data = (c.queue.heap a).data := by
        intro a ha
        have hah : a ≠ head := fun he => hhead (he ▸ List.mem_cons_of_mem n ha)
        have han : a ≠ n := fun he => (List.nodup_cons.mp hnodup).1 (he ▸ ha)
        rw [moveData_of_ne _ hah han]
      show c.exchanged = c.popped ++ ((moveData moved c.queue.heap head n head).data ::
        rest.map fun a => (moveData moved c.queue.heap head n a).data)
      rw [hfifo, moveData_self, List.map_congr_left hkeep]
      rfl
  | _ => trivial

theorem storeHead_ok (h : Inv c follows nodes) : (next moved c .storeHead).Ok fun d => Inv d follows nodes := by
  have hs := h.stands
  have hfifo := h.fifo
  simp only [next]
  cases hc : c.consumer with
  | moved head n =>
    rw [hc] at hs hfifo
    exact ⟨h.links, h.tail, h.nonempty, ⟨n, rfl, hs.2⟩, h.owned, h.ready, h.pushing, hfifo⟩
  | _ => trivial

/-- What a pop gives out, and that its node leaves the list. -/
theorem clearNext_ok (h : Inv c follows nodes) : (next moved c .clearNext).Ok fun d =>
    ∃ head n rest, nodes = head :: n :: rest ∧ Inv d (Function.update follows head none) (n :: rest) ∧
      d.popped = c.popped ++ [(c.queue.heap head).data] := by
  have hs := h.stands
  have hfifo := h.fifo
  simp only [next]
  cases hc : c.consumer with
  | advanced head =>
    rw [hc] at hs hfifo
    obtain ⟨n, hq, hh, hn⟩ := hs
    obtain ⟨rest, rfl⟩ := h.front hh hn
    have hhead : head ∉ n :: rest := (List.nodup_cons.mp h.links.nodup).1
    have hne : ∀ a ∈ n :: rest, a ≠ head := fun a ha he => hhead (he ▸ ha)
    refine ⟨head, n, rest, rfl, ⟨?_, ?_, by simp, hq, ?_, ?_, ?_, ?_⟩, rfl⟩
    · show CutList.Rep (fun a => (storeNext c.queue.heap head none a).next) _ _ _
      rw [next_storeNext]
      exact h.links.unlink hn
    · rw [← h.tail, List.getLast?_cons_cons]
    · intro a ha
      exact (Function.update_of_ne (hne a ha) ..).trans (h.owned a (List.mem_cons_of_mem head ha))
    · intro a hno hqo
      show (storeNext c.queue.heap head none a).next = none
      by_cases hah : a = head
      · rw [hah, storeNext_self]
      · have ho : Function.update c.owner head .caller a = c.owner a := Function.update_of_ne hah ..
        rw [storeNext_of_ne _ _ hah]
        exact h.ready a (ho ▸ hno) (ho ▸ hqo)
    · intro w a hw
      have ho := h.pushing w a hw
      have hah : a ≠ head := by
        intro he
        rw [he, h.owned head List.mem_cons_self] at ho
        cases ho
      exact (Function.update_of_ne hah ..).trans ho
    · show c.exchanged = c.popped ++ [(c.queue.heap head).data] ++
        rest.map fun a => (storeNext c.queue.heap head none a).data
      rw [hfifo, List.append_assoc]
      simp [waiting]
  | _ => trivial

theorem empty_ok (h : Inv c follows nodes) : (next moved c .empty).Ok fun d => Inv d follows nodes := by
  simp only [next]
  cases hc : c.consumer with
  | idle =>
    obtain ⟨a, hhead, hfirst⟩ := h.head hc
    rw [hhead]
    exact h.move (s := .asking a) ⟨hhead, hfirst⟩ (by rw [hc]; rfl)
  | _ => trivial

theorem answer_ok (h : Inv c follows nodes) : (next moved c .answer).Ok fun d => Inv d follows nodes := by
  have hs := h.stands
  have hfifo := h.fifo
  simp only [next]
  cases hc : c.consumer with
  | asking head =>
    rw [hc] at hs hfifo
    exact ⟨h.links, h.tail, h.nonempty, hs.1.trans hs.2.symm, h.owned, h.ready, h.pushing, hfifo⟩
  | _ => trivial

/-! ## Whole runs -/

theorem next_ok (h : Inv c follows nodes) (a : Act ω τ) :
    (next moved c a).Ok fun d => ∃ follows nodes, Inv d follows nodes := by
  have hsame : ∀ {x : Outcome (Config ω τ)}, x.Ok (fun d => Inv d follows nodes) →
      x.Ok fun d => ∃ follows nodes, Inv d follows nodes := fun hx => hx.mono fun _ hd => ⟨_, _, hd⟩
  cases a with
  | createNode node data => exact hsame (createNode_ok h node data)
  | dropNode node => exact hsame (dropNode_ok h node)
  | setData node data => exact hsame (setData_ok h node data)
  | push w node => exact hsame (push_ok h w node)
  | exchange w => exact (exchange_ok h w).mono fun _ ⟨_, _, hd⟩ => ⟨_, _, hd⟩
  | link w => exact hsame (link_ok h w)
  | pop => exact hsame (pop_ok h)
  | loadNext => exact hsame (loadNext_ok h)
  | moveData => exact hsame (moveData_ok h)
  | storeHead => exact hsame (storeHead_ok h)
  | clearNext => exact (clearNext_ok h).mono fun _ ⟨_, _, _, _, hd, _⟩ => ⟨_, _, hd⟩
  | empty => exact hsame (empty_ok h)
  | answer => exact hsame (answer_ok h)

theorem reachable_inv (h : Runs.Reachable (next moved) Init c) : ∃ follows nodes, Inv c follows nodes :=
  h.invariant (fun _ => init_inv) fun _ a ⟨_, _, hi⟩ => next_ok hi a

/-- Whoever does not own a node from outside does not touch it. -/
theorem next_leaves (h : Inv c follows nodes) {node : Nat} (hcaller : c.owner node = .caller)
    (a : Act ω τ) (ha : a.Leaves node) :
    (next moved c a).Yields fun d => d.owner node = .caller ∧ d.queue.heap node = c.queue.heap node := by
  have hmem : ∀ b ∈ nodes, node ≠ b := by
    intro b hb he
    rw [he, h.owned b hb] at hcaller
    cases hcaller
  have hkeep : ∀ b x, node ≠ b → Function.update c.owner b x node = .caller := fun b x hb =>
    (Function.update_of_ne hb ..).trans hcaller
  cases a with
  | createNode n data =>
    simp only [next, yields_bind, yields_requiring]
    intro hfree
    have hn : node ≠ n := by
      intro he
      rw [he, hfree] at hcaller
      cases hcaller
    exact yields_next.mpr ⟨hkeep n _ hn, Function.update_of_ne hn ..⟩
  | dropNode n =>
    simp only [next, yields_bind, yields_requiring]
    intro _
    exact yields_next.mpr ⟨hkeep n _ (Ne.symm ha), rfl⟩
  | setData n data =>
    simp only [next, yields_bind, yields_requiring]
    intro _
    exact yields_next.mpr ⟨hcaller, storeData_of_ne _ _ (Ne.symm ha)⟩
  | push w n =>
    simp only [next, yields_bind, yields_requiring, yields_asserting]
    intro _ _
    exact yields_next.mpr ⟨hkeep n _ (Ne.symm ha), rfl⟩
  | exchange w =>
    simp only [next]
    cases hw : c.producer w with
    | pushing newNode =>
      have hn : node ≠ newNode := by
        intro he
        rw [he, h.pushing w newNode hw] at hcaller
        cases hcaller
      cases c.queue.tail with
      | none => exact yields_failed
      | some oldTail => exact yields_next.mpr ⟨hkeep newNode _ hn, rfl⟩
    | _ => exact yields_blocked
  | link w =>
    simp only [next]
    cases hw : c.producer w with
    | linking oldTail newNode =>
      have hdebt : (c.producer w).owed = some (oldTail, newNode) := by rw [hw]; rfl
      exact yields_next.mpr ⟨hcaller, storeNext_of_ne _ _ (hmem _ (h.links.mem_of_owed hdebt))⟩
    | _ => exact yields_blocked
  | moveData =>
    have hs := h.stands
    simp only [next]
    cases hc : c.consumer with
    | taking head n =>
      rw [hc] at hs
      obtain ⟨rest, rfl⟩ := h.front hs.2.1 hs.2.2
      exact yields_next.mpr ⟨hcaller, moveData_of_ne _ (hmem head (by simp)) (hmem n (by simp))⟩
    | _ => exact yields_blocked
  | clearNext =>
    have hs := h.stands
    simp only [next]
    cases hc : c.consumer with
    | advanced head =>
      rw [hc] at hs
      obtain ⟨n, -, hh, -⟩ := hs
      have hn := hmem head (List.mem_of_head? hh)
      exact yields_next.mpr ⟨hkeep head _ hn, storeNext_of_ne _ _ hn⟩
    | _ => exact yields_blocked
  | pop | empty =>
    simp only [next]
    cases c.consumer with
    | idle =>
      cases c.queue.head with
      | none => exact yields_failed
      | some head => exact yields_next.mpr ⟨hcaller, rfl⟩
    | _ => exact yields_blocked
  | loadNext =>
    simp only [next]
    cases c.consumer with
    | popping head =>
      dsimp only
      cases (c.queue.heap head).next with
      | none => exact yields_next.mpr ⟨hcaller, rfl⟩
      | some n => exact yields_next.mpr ⟨hcaller, rfl⟩
    | _ => exact yields_blocked
  | storeHead =>
    simp only [next]
    cases c.consumer with
    | moved head n => exact yields_next.mpr ⟨hcaller, rfl⟩
    | _ => exact yields_blocked
  | answer =>
    simp only [next]
    cases c.consumer with
    | asking head => exact yields_next.mpr ⟨hcaller, rfl⟩
    | _ => exact yields_blocked

theorem run_leaves (h : Inv c follows nodes) {node : Nat} (hcaller : c.owner node = .caller)
    (as : List (Act ω τ)) (has : ∀ a ∈ as, a.Leaves node) :
    (Runs.run (next moved) c as).Yields fun d =>
      d.owner node = .caller ∧ d.queue.heap node = c.queue.heap node := by
  induction as generalizing c follows nodes with
  | nil => exact yields_next.mpr ⟨hcaller, rfl⟩
  | cons a as ih =>
    refine yields_bind.mpr fun d hd => ?_
    obtain ⟨_, _, hi⟩ := (next_ok h a).of_next hd
    obtain ⟨ho, hn⟩ := next_leaves h hcaller a (has a List.mem_cons_self) d hd
    refine (ih hi ho fun b hb => has b (List.mem_cons_of_mem a hb)).mono fun e he => ?_
    exact ⟨he.1, he.2.trans hn⟩

/-! ## Popping until nothing is left -/

/-- One pop, while nobody is linking and something waits. -/
theorem pop_one (moved : τ → τ) (h : Inv c follows nodes) (hc : c.consumer = .idle)
    (hw : ∀ w oldTail newNode, c.producer w ≠ .linking oldTail newNode) {a n : Nat} {rest : List Nat}
    (hnodes : nodes = a :: n :: rest) : ∃ d follows', Runs.run (next moved) c popSteps = .next d ∧
      Inv d follows' (n :: rest) ∧ d.consumer = .idle ∧ d.producer = c.producer ∧
      d.exchanged = c.exchanged := by
  subst hnodes
  have hs := h.stands
  rw [hc] at hs
  have hhead : c.queue.head = some a := hs
  have hnext : (c.queue.heap a).next = some n := by
    cases hn : (c.queue.heap a).next with
    | none =>
      rcases h.links.next_front_none hn with he | ⟨w, b, ho⟩
      · cases he
      · exact absurd (Producer.linking_of_owed ho) (hw w a b)
    | some m =>
      obtain ⟨rest', hr⟩ := h.links.next_front hn
      injection hr with hr
      rw [hr]
  let c₁ : Config ω τ := { c with consumer := .popping a }
  let c₂ : Config ω τ := { c with consumer := .taking a n }
  let c₃ : Config ω τ := { c with
    queue := { c.queue with heap := moveData moved c.queue.heap a n }, consumer := .moved a n }
  let c₄ : Config ω τ := { c₃ with queue := { c₃.queue with head := some n }, consumer := .advanced a }
  have h₁ : next moved c .pop = .next c₁ := by simp [next, hc, hhead, c₁]
  have h₂ : next moved c₁ .loadNext = .next c₂ := by simp [next, hnext, c₁, c₂]
  have h₃ : next moved c₂ .moveData = .next c₃ := rfl
  have h₄ : next moved c₃ .storeHead = .next c₄ := rfl
  have hi₁ : Inv c₁ follows (a :: n :: rest) := (pop_ok h).of_next h₁
  have hi₂ : Inv c₂ follows (a :: n :: rest) := (loadNext_ok hi₁).of_next h₂
  have hi₃ : Inv c₃ follows (a :: n :: rest) := (moveData_ok hi₂).of_next h₃
  have hi₄ : Inv c₄ follows (a :: n :: rest) := (storeHead_ok hi₃).of_next h₄
  have h₅ : (next moved c₄ .clearNext).Ok _ := clearNext_ok hi₄
  obtain ⟨head, m, rest', hr, hi₅, -⟩ := h₅.of_next rfl
  injection hr with hhd hr
  rw [← hr] at hi₅
  refine ⟨_, _, ?_, hi₅, rfl, rfl, rfl⟩
  simp only [popSteps, Runs.run, h₁, h₂, h₃, h₄, next_bind]
  rfl

/-- A pop that finds nothing leaves all as it was. -/
theorem pop_nothing (h : Inv c follows nodes) (hc : c.consumer = .idle) {a : Nat} (hnodes : nodes = [a]) :
    Runs.run (next moved) c [.pop, .loadNext] = .next c := by
  subst hnodes
  have hs := h.stands
  rw [hc] at hs
  have hhead : c.queue.head = some a := hs
  have hnext : (c.queue.heap a).next = none := by
    cases hn : (c.queue.heap a).next with
    | none => rfl
    | some m =>
      obtain ⟨rest', hr⟩ := h.links.next_front hn
      cases hr
  have hsame : ({ c with consumer := .idle } : Config ω τ) = c := by rw [← hc]
  simp [Runs.run, next, hc, hhead, hnext, hsame]

theorem drain (h : Inv c follows nodes) (hc : c.consumer = .idle)
    (hw : ∀ w oldTail newNode, c.producer w ≠ .linking oldTail newNode) :
    ∃ d, Runs.run (next moved) c (List.replicate (nodes.length - 1) popSteps).flatten = .next d ∧
      d.popped = c.exchanged ∧ Runs.run (next moved) d [.pop, .loadNext] = .next d := by
  induction hl : nodes.length generalizing c follows nodes with
  | zero => exact absurd (List.length_eq_zero_iff.mp hl) h.nonempty
  | succ k ih =>
    cases nodes with
    | nil => cases hl
    | cons a rest =>
      cases rest with
      | nil =>
        injection hl with hl
        subst hl
        refine ⟨c, rfl, ?_, pop_nothing h hc rfl⟩
        have hfifo := h.fifo
        rw [hc] at hfifo
        simpa [waiting] using hfifo.symm
      | cons n rest =>
        obtain ⟨d, follows', hr, hi, hd, hp, he⟩ := pop_one moved h hc hw rfl
        injection hl with hl
        obtain ⟨e, hrun, hpop, hnot⟩ := ih hi hd (hp ▸ hw) hl
        refine ⟨e, ?_, hpop.trans he, hnot⟩
        subst hl
        show Runs.run (next moved) c (popSteps ++ (List.replicate rest.length popSteps).flatten) = _
        rw [Runs.run_append, hr]
        exact hrun

/-- **The queue is a fifo queue** for any number of producers: it gives out the
data in the order in which the nodes were exchanged, each once, and misses
none: a pop that finds nothing while something waits finds a producer that has
not linked yet, and popping until nothing is found gives out all, when nobody
is. A node given out has nothing behind it, and only its owner changes it. -/
theorem pops_in_order {c : Config ω τ} (h : Runs.Reachable (next moved) Init c) :
    (∀ a, next moved c a ≠ .failed) ∧ c.popped <+: c.exchanged ∧
    (∀ head, c.consumer = .popping head → (c.queue.heap head).next = none →
      c.popped = c.exchanged ∨ ∃ w oldTail newNode, c.producer w = .linking oldTail newNode) ∧
    (c.consumer = .idle → (∀ w oldTail newNode, c.producer w ≠ .linking oldTail newNode) →
      ∃ d, Runs.run (next moved) c
          (List.replicate (c.exchanged.length - c.popped.length) popSteps).flatten = .next d ∧
        d.popped = c.exchanged ∧ Runs.run (next moved) d [.pop, .loadNext] = .next d) ∧
    ∀ node, c.owner node = .caller → (c.queue.heap node).next = none ∧
      ∀ as d, (∀ a ∈ as, a.Leaves node) → Runs.run (next moved) c as = .next d →
        d.owner node = .caller ∧ d.queue.heap node = c.queue.heap node := by
  obtain ⟨follows, nodes, hi⟩ := reachable_inv h
  refine ⟨fun a => (next_ok hi a).not_failed, ⟨_, hi.fifo.symm⟩, fun _ => hi.nothing, ?_, ?_⟩
  · intro hc hw
    have hlength : c.exchanged.length - c.popped.length = nodes.length - 1 := by
      rw [hi.fifo, hc, List.length_append]
      simp [waiting]
    rw [hlength]
    exact drain hi hc hw
  · intro node hcaller
    refine ⟨hi.ready node (by simp [hcaller]) (by simp [hcaller]), fun as d has hd => ?_⟩
    exact run_leaves hi hcaller as has d hd

end

/-- Two producers; the first is late with its link, and the consumer finds
nothing until it has stored it. -/
def stalled : List (Act Bool Nat) :=
  [.createNode 1 10, .createNode 2 20, .push true 1, .push false 2, .exchange true, .exchange false,
   .link false, .pop, .loadNext, .link true]

theorem pops_in_order_stalled : ∃ c d : Config Bool Nat,
    Runs.run (next fun _ => 0) (new 0 fun _ => ⟨none, 0⟩) stalled = .next c ∧
    Runs.run (next fun _ => 0) c (popSteps ++ popSteps) = .next d ∧ d.popped = [10, 20] := by
  obtain ⟨c, hc, he, hp, hidle, hw⟩ : ∃ c : Config Bool Nat,
      Runs.run (next fun _ => 0) (new 0 fun _ => ⟨none, 0⟩) stalled = .next c ∧
        c.exchanged = [10, 20] ∧ c.popped = [] ∧ c.consumer = .idle ∧ ∀ w, c.producer w = .idle :=
    ⟨_, rfl, rfl, rfl, rfl, by decide⟩
  have hreach : Runs.Reachable (next fun _ => 0) Init c := .run (.init ⟨0, _, rfl⟩) hc
  obtain ⟨d, hd, hpopped, -⟩ := (pops_in_order hreach).2.2.2.1 hidle fun w _ _ hl => by
    rw [hw w] at hl
    cases hl
  rw [he, hp] at hd
  exact ⟨c, d, hc, hd, hpopped.trans he⟩

end MpscWaitFreeSemiIntrusiveQueue
