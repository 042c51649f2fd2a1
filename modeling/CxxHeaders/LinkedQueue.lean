/-
A singly linked queue that ends in an empty node: an element is put into the
node that was last, and the node it arrived in becomes the new, empty last
one. `Rep` says which elements a queue in memory holds, and which nodes are
its own; a node put in or taken out changes hands whole.
-/
import Mathlib.Data.List.Basic
import Mathlib.Logic.Function.Basic

namespace LinkedQueue

/-- A node: its element, and the node behind it. -/
structure Node (τ : Type*) where
  value : Option τ
  next : Option Nat

variable {τ : Type*}

/-- The nodes `as`, linked in this order, hold `xs`; the last one is empty. -/
inductive Chain (heap : Nat → Node τ) : List Nat → List τ → Prop
  | last {t} : heap t = ⟨none, none⟩ → Chain heap [t] []
  | cons {a b as x xs} : heap a = ⟨some x, some b⟩ → a ∉ b :: as → Chain heap (b :: as) xs →
      Chain heap (a :: b :: as) (x :: xs)

/-- The memory after node `task` is put behind the node `tail`. -/
def link (heap : Nat → Node τ) (tail task : Nat) : Nat → Node τ :=
  Function.update (Function.update heap tail ⟨(heap task).value, some task⟩) task
    { heap task with value := none }

/-- The memory after node `a` is taken off the front. -/
def unlink (heap : Nat → Node τ) (a : Nat) : Nat → Node τ :=
  Function.update heap a { heap a with next := none }

theorem link_of_ne (heap : Nat → Node τ) {tail task a : Nat} (htail : a ≠ tail) (htask : a ≠ task) :
    link heap tail task a = heap a := by
  rw [link, Function.update_of_ne htask, Function.update_of_ne htail]

theorem unlink_of_ne (heap : Nat → Node τ) {a b : Nat} (h : b ≠ a) : unlink heap a b = heap b :=
  Function.update_of_ne h _ _

theorem Chain.congr {heap heap' : Nat → Node τ} {as : List Nat} {xs : List τ} (h : Chain heap as xs)
    (heq : ∀ a ∈ as, heap' a = heap a) : Chain heap' as xs := by
  induction h with
  | last ht => exact .last (by rw [heq _ (by simp)]; exact ht)
  | cons ha hn _ ih =>
    exact .cons (by rw [heq _ (by simp)]; exact ha) hn (ih fun b hb => heq b (by simp [hb]))

theorem Chain.ne_nil {heap : Nat → Node τ} {as : List Nat} {xs : List τ} (h : Chain heap as xs) :
    as ≠ [] := by
  cases h <;> simp

/-- The last node is the only empty one. -/
theorem Chain.getLast?_eq_head? {heap : Nat → Node τ} {as : List Nat} {xs : List τ}
    (h : Chain heap as xs) : as.getLast? = as.head? ↔ xs = [] := by
  cases h with
  | last => simp
  | @cons a b as x xs _ hn hc =>
    simp only [List.getLast?_cons_cons, List.head?_cons, reduceCtorEq, iff_false]
    exact fun he => hn (List.mem_of_getLast? he)

theorem Chain.link {heap : Nat → Node τ} {as : List Nat} {xs : List τ} (h : Chain heap as xs)
    {tail task : Nat} {x : τ} (htail : as.getLast? = some tail) (hnew : task ∉ as)
    (htask : heap task = ⟨some x, none⟩) : Chain (link heap tail task) (as ++ [task]) (xs ++ [x]) := by
  have hlast : LinkedQueue.link heap tail task task = ⟨none, none⟩ := by simp [LinkedQueue.link, htask]
  induction h with
  | @last t ht =>
    simp only [List.getLast?_singleton, Option.some.injEq] at htail
    subst htail
    have hne : t ≠ task := by simpa [eq_comm] using hnew
    exact .cons (by simp [LinkedQueue.link, hne, htask]) (by simpa using hne) (.last hlast)
  | @cons a b as y ys ha hn hc ih =>
    rw [List.getLast?_cons_cons] at htail
    have hnew' : task ∉ b :: as := fun hm => hnew (List.mem_cons_of_mem _ hm)
    have hat : a ≠ tail := fun he => hn (he ▸ List.mem_of_getLast? htail)
    have hne : a ≠ task := fun he => hnew (he ▸ List.mem_cons_self)
    refine .cons ?_ ?_ (ih htail hnew')
    · simp [LinkedQueue.link, hat, hne, ha]
    · show a ∉ (b :: as) ++ [task]
      rw [List.mem_append, List.mem_singleton, not_or]
      exact ⟨hn, hne⟩

/-- A queue in memory. -/
structure Queue (τ : Type*) where
  heap : Nat → Node τ
  head : Option Nat
  tail : Nat

/-- The queue's nodes are `as`, and it holds `xs`. -/
structure Rep (q : Queue τ) (as : List Nat) (xs : List τ) : Prop where
  chain : Chain q.heap as xs
  head : q.head = as.head?
  tail : as.getLast? = some q.tail

variable {q : Queue τ} {as : List Nat} {xs : List τ}

theorem Rep.empty {heap : Nat → Node τ} {t : Nat} (h : heap t = ⟨none, none⟩) :
    Rep ⟨heap, some t, t⟩ [t] [] :=
  ⟨.last h, rfl, rfl⟩

theorem Rep.head_eq_tail (h : Rep q as xs) : q.head = some q.tail ↔ xs = [] := by
  rw [h.head, ← h.tail, eq_comm, h.chain.getLast?_eq_head?]

/-- Memory that is not the queue's may change. -/
theorem Rep.frame (h : Rep q as xs) {a : Nat} (ha : a ∉ as) (n : Node τ) :
    Rep { q with heap := Function.update q.heap a n } as xs :=
  ⟨h.chain.congr fun b hb => Function.update_of_ne (fun he : b = a => ha (he ▸ hb)) _ _, h.head, h.tail⟩

theorem Rep.push (h : Rep q as xs) {task : Nat} {x : τ} (hnew : task ∉ as)
    (htask : q.heap task = ⟨some x, none⟩) :
    Rep ⟨link q.heap q.tail task, q.head, task⟩ (as ++ [task]) (xs ++ [x]) := by
  refine ⟨h.chain.link h.tail hnew htask, ?_, by simp⟩
  rw [h.head, List.head?_append_of_ne_nil _ h.chain.ne_nil]

/-- What is at the front of a queue that is not empty. -/
theorem Rep.front {x : τ} (h : Rep q as (x :: xs)) : ∃ a b bs, as = a :: b :: bs ∧ q.head = some a ∧
    q.heap a = ⟨some x, some b⟩ ∧ a ∉ b :: bs ∧ Rep { q with head := some b } (b :: bs) xs := by
  obtain ⟨hc, hh, ht⟩ := h
  cases hc with
  | @cons a b bs _ _ ha hn hc =>
    rw [List.getLast?_cons_cons] at ht
    exact ⟨a, b, bs, rfl, hh, ha, hn, hc, rfl, ht⟩

/-- The front node taken off comes back with its element and nothing behind it. -/
theorem Rep.pop {x : τ} (h : Rep q as (x :: xs)) : ∃ a b bs, as = a :: b :: bs ∧ q.head = some a ∧
    q.heap a = ⟨some x, some b⟩ ∧ a ∉ b :: bs ∧ unlink q.heap a a = ⟨some x, none⟩ ∧
    Rep ⟨unlink q.heap a, some b, q.tail⟩ (b :: bs) xs := by
  obtain ⟨a, b, bs, has, hh, ha, hn, hr⟩ := h.front
  exact ⟨a, b, bs, has, hh, ha, hn, by simp [unlink, ha], hr.frame hn _⟩

end LinkedQueue
