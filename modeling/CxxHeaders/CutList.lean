/-
A linked list that grows in two steps: a new node becomes the last one, and
only later is it linked to the node before it. Until then the list is cut
there, and whoever put the node in owes the link; the list may be cut in many
places at once. `Rep` says which nodes the list has, in order, which links are
in memory and which are owed.
-/
import Mathlib.Data.List.Chain
import Mathlib.Data.List.Nodup
import Mathlib.Logic.Function.Basic

namespace CutList

variable {α ω : Type*}

/-- The list is `nodes`. `next` is in memory; `follows` is what is there when
all that is owed is paid. -/
structure Rep (next : α → Option α) (owed : ω → Option (α × α)) (follows : α → Option α)
    (nodes : List α) : Prop where
  chain : nodes.IsChain fun a b => follows a = some b
  nodup : nodes.Nodup
  last : ∀ a ∈ nodes.getLast?, follows a = none
  outside : ∀ a, a ∉ nodes → follows a = none
  memory : ∀ a ∈ nodes, ∀ b, next a = some b → follows a = some b
  debt : ∀ w a b, owed w = some (a, b) → follows a = some b ∧ next a = none
  linked : ∀ a b, follows a = some b → next a = some b ∨ ∃ w, owed w = some (a, b)
  unique : ∀ u w a b b', owed u = some (a, b) → owed w = some (a, b') → u = w

variable {next : α → Option α} {owed : ω → Option (α × α)} {follows : α → Option α} {nodes rest : List α}
  {a b : α} {w : ω}

theorem Rep.singleton (h : next a = none) : Rep next (fun _ : ω => none) (fun _ => none) [a] where
  chain := .singleton a
  nodup := List.nodup_singleton a
  last _ _ := rfl
  outside _ _ := rfl
  memory b hb c hc := by
    rw [List.mem_singleton.mp hb, h] at hc
    cases hc
  debt _ _ _ h := by cases h
  linked _ _ h := by cases h
  unique _ _ _ _ _ h := by cases h

theorem Rep.mem_of_follows (h : Rep next owed follows nodes) (hf : follows a = some b) : a ∈ nodes := by
  by_contra hm
  rw [h.outside a hm] at hf
  cases hf

theorem Rep.mem_of_owed (h : Rep next owed follows nodes) (ho : owed w = some (a, b)) : a ∈ nodes :=
  h.mem_of_follows (h.debt w a b ho).1

theorem Rep.not_owed (h : Rep next owed follows nodes) (hn : next a = some b) (w : ω) (x : α) :
    owed w ≠ some (a, x) := by
  intro ho
  rw [(h.debt w a x ho).2] at hn
  cases hn

/-- The node behind the first one, where the link is in memory. -/
theorem Rep.next_front (h : Rep next owed follows (a :: rest)) (hn : next a = some b) :
    ∃ rest', rest = b :: rest' := by
  have hf : follows a = some b := h.memory a List.mem_cons_self b hn
  cases rest with
  | nil =>
    rw [h.last a rfl] at hf
    cases hf
  | cons c rest' =>
    have hc : follows a = some c := (List.isChain_cons_cons.mp h.chain).1
    rw [hf] at hc
    injection hc with hc
    exact ⟨rest', by rw [hc]⟩

/-- Where nothing is behind the first node the list ends, or is cut there. -/
theorem Rep.next_front_none (h : Rep next owed follows (a :: rest)) (hn : next a = none) :
    rest = [] ∨ ∃ w b, owed w = some (a, b) := by
  cases rest with
  | nil => exact .inl rfl
  | cons c rest' =>
    have hf : follows a = some c := (List.isChain_cons_cons.mp h.chain).1
    rcases h.linked a c hf with hnext | ⟨w, hw⟩
    · rw [hn] at hnext
      cases hnext
    · exact .inr ⟨w, c, hw⟩

/-- What is owed may be known under another name. -/
theorem Rep.congr_owed {owed' : ω → Option (α × α)} (h : Rep next owed follows nodes)
    (ho : ∀ w, owed' w = owed w) : Rep next owed' follows nodes := by
  rw [funext ho]
  exact h

section
variable [DecidableEq α]

theorem Rep.frame (h : Rep next owed follows nodes) (ha : a ∉ nodes) (x : Option α) :
    Rep (Function.update next a x) owed follows nodes := by
  have hkeep : ∀ c ∈ nodes, Function.update next a x c = next c := fun c hc =>
    Function.update_of_ne (fun he : c = a => ha (he ▸ hc)) ..
  refine { h with memory := ?_, debt := ?_, linked := ?_ }
  · intro c hc d hd
    exact h.memory c hc d (hkeep c hc ▸ hd)
  · intro w c d ho
    rw [hkeep c (h.mem_of_owed ho)]
    exact h.debt w c d ho
  · intro c d hf
    rw [hkeep c (h.mem_of_follows hf)]
    exact h.linked c d hf

/-- The first node is taken off, if it is linked to the second one. -/
theorem Rep.unlink (h : Rep next owed follows (a :: b :: rest)) (hn : next a = some b) :
    Rep (Function.update next a none) owed (Function.update follows a none) (b :: rest) := by
  obtain ⟨hab, hchain⟩ := List.isChain_cons_cons.mp h.chain
  obtain ⟨hnew, hnodup⟩ := List.nodup_cons.mp h.nodup
  have hne : ∀ c ∈ b :: rest, c ≠ a := fun c hc he => hnew (he ▸ hc)
  have hkeep : ∀ c ∈ b :: rest, Function.update follows a none c = follows c := fun c hc =>
    Function.update_of_ne (hne c hc) ..
  have hout : ∀ {c d : α}, Function.update follows a none c = some d → c ≠ a := by
    intro c d hcd he
    rw [he, Function.update_self] at hcd
    cases hcd
  refine ⟨?_, hnodup, ?_, ?_, ?_, ?_, ?_, h.unique⟩
  · refine hchain.imp_of_mem_imp fun c d hc _ hcd => ?_
    rw [hkeep c hc]
    exact hcd
  · intro c hc
    rw [hkeep c (List.mem_of_getLast? hc)]
    exact h.last c (by rw [List.getLast?_cons_cons]; exact hc)
  · intro c hc
    by_cases hca : c = a
    · rw [hca, Function.update_self]
    · rw [Function.update_of_ne hca]
      exact h.outside c (by rw [List.mem_cons, not_or]; exact ⟨hca, hc⟩)
  · intro c hc d hd
    rw [Function.update_of_ne (hne c hc)] at hd
    rw [hkeep c hc]
    exact h.memory c (List.mem_cons_of_mem a hc) d hd
  · intro w c d ho
    have hca : c ≠ a := fun he => h.not_owed hn w d (he ▸ ho)
    rw [Function.update_of_ne hca, Function.update_of_ne hca]
    exact h.debt w c d ho
  · intro c d hcd
    have hca : c ≠ a := hout hcd
    rw [Function.update_of_ne hca] at hcd ⊢
    exact h.linked c d hcd

variable [DecidableEq ω]

/-- A new node becomes the last one, and `w` owes the link to it. -/
theorem Rep.exchange (h : Rep next owed follows nodes) (hlast : nodes.getLast? = some a) (hb : b ∉ nodes)
    (hnext : next b = none) (hw : owed w = none) :
    Rep next (Function.update owed w (some (a, b))) (Function.update follows a (some b))
      (nodes ++ [b]) := by
  have hmem : a ∈ nodes := List.mem_of_getLast? hlast
  have hba : b ≠ a := fun he => hb (he ▸ hmem)
  have hfa : follows a = none := h.last a hlast
  have hfree : ∀ u c d, owed u = some (c, d) → u ≠ w ∧ c ≠ a := by
    intro u c d ho
    refine ⟨fun he => ?_, fun he => ?_⟩
    · rw [he, hw] at ho
      cases ho
    · have hf := (h.debt u c d ho).1
      rw [he, hfa] at hf
      cases hf
  refine ⟨?_, ?_, ?_, ?_, ?_, ?_, ?_, ?_⟩
  · rw [List.isChain_append]
    refine ⟨?_, .singleton b, ?_⟩
    · refine h.chain.imp fun c d hcd => ?_
      have hca : c ≠ a := by
        intro he
        rw [he, hfa] at hcd
        cases hcd
      rw [Function.update_of_ne hca]
      exact hcd
    · intro c hc d hd
      rw [hlast, Option.mem_some_iff] at hc
      rw [List.head?_singleton, Option.mem_some_iff] at hd
      rw [← hc, ← hd, Function.update_self]
  · rw [List.nodup_append]
    refine ⟨h.nodup, List.nodup_singleton b, fun c hc d hd he => ?_⟩
    rw [List.mem_singleton.mp hd] at he
    exact hb (he ▸ hc)
  · intro c hc
    rw [List.getLast?_append, List.getLast?_singleton, Option.some_or, Option.mem_some_iff] at hc
    rw [← hc, Function.update_of_ne hba]
    exact h.outside b hb
  · intro c hc
    rw [List.mem_append, not_or] at hc
    rw [Function.update_of_ne fun he : c = a => hc.1 (he ▸ hmem)]
    exact h.outside c hc.1
  · intro c hc d hd
    rcases List.mem_append.mp hc with hc | hc
    · have hcd := h.memory c hc d hd
      have hca : c ≠ a := by
        intro he
        rw [he, hfa] at hcd
        cases hcd
      rw [Function.update_of_ne hca]
      exact hcd
    · rw [List.mem_singleton.mp hc, hnext] at hd
      cases hd
  · intro u c d ho
    by_cases huw : u = w
    · rw [huw, Function.update_self] at ho
      injection ho with ho
      injection ho with hac hbd
      rw [← hac, ← hbd, Function.update_self]
      refine ⟨rfl, ?_⟩
      cases hn : next a with
      | none => rfl
      | some x =>
        have hf := h.memory a hmem x hn
        rw [hfa] at hf
        cases hf
    · rw [Function.update_of_ne huw] at ho
      rw [Function.update_of_ne (hfree u c d ho).2]
      exact h.debt u c d ho
  · intro c d hcd
    by_cases hca : c = a
    · rw [hca, Function.update_self] at hcd
      injection hcd with hbd
      exact .inr ⟨w, by rw [Function.update_self, hca, hbd]⟩
    · rw [Function.update_of_ne hca] at hcd
      refine (h.linked c d hcd).imp_right fun ⟨u, hu⟩ => ⟨u, ?_⟩
      rw [Function.update_of_ne (hfree u c d hu).1]
      exact hu
  · intro u v c d d' hu hv
    have hmine : ∀ {x y e e'}, Function.update owed w (some (a, b)) x = some (c, e) →
        Function.update owed w (some (a, b)) y = some (c, e') → x = w → y = w := by
      intro x y e e' hx hy hxw
      by_contra hyw
      rw [hxw, Function.update_self] at hx
      rw [Function.update_of_ne hyw] at hy
      injection hx with hx
      injection hx with hac
      exact (hfree y c e' hy).2 hac.symm
    by_cases huw : u = w
    · rw [huw, hmine hu hv huw]
    · have hvw : v ≠ w := fun hvw => huw (hmine hv hu hvw)
      rw [Function.update_of_ne huw] at hu
      rw [Function.update_of_ne hvw] at hv
      exact h.unique u v c d d' hu hv

/-- `w` pays what it owes. -/
theorem Rep.link (h : Rep next owed follows nodes) (ho : owed w = some (a, b)) :
    Rep (Function.update next a (some b)) (Function.update owed w none) follows nodes := by
  have hf : follows a = some b := (h.debt w a b ho).1
  have hothers : ∀ {u c d}, Function.update owed w none u = some (c, d) → owed u = some (c, d) ∧ c ≠ a := by
    intro u c d hu
    have huw : u ≠ w := by
      intro he
      rw [he, Function.update_self] at hu
      cases hu
    rw [Function.update_of_ne huw] at hu
    exact ⟨hu, fun he => huw (h.unique u w a d b (he ▸ hu) ho)⟩
  refine { h with memory := ?_, debt := ?_, linked := ?_, unique := ?_ }
  · intro c hc d hd
    by_cases hca : c = a
    · rw [hca, Function.update_self] at hd
      rw [hca, hf, hd]
    · rw [Function.update_of_ne hca] at hd
      exact h.memory c hc d hd
  · intro u c d hu
    obtain ⟨hu, hca⟩ := hothers hu
    rw [Function.update_of_ne hca]
    exact h.debt u c d hu
  · intro c d hcd
    by_cases hca : c = a
    · rw [hca, hf] at hcd
      exact .inl (by rw [hca, Function.update_self, hcd])
    · rw [Function.update_of_ne hca]
      refine (h.linked c d hcd).imp_right fun ⟨u, hu⟩ => ⟨u, ?_⟩
      have huw : u ≠ w := by
        intro he
        rw [he, ho] at hu
        injection hu with hu
        injection hu with hac
        exact hca hac.symm
      rw [Function.update_of_ne huw]
      exact hu
  · intro u v c d d' hu hv
    exact h.unique u v c d d' (hothers hu).1 (hothers hv).1

end

end CutList
