/-
`UnorderedMap.h`: `operator==`, which compares two maps entry by entry.

It looks the key of every element of the left map up in both maps, and goes on
behind the element found in the left one. `==` is that of the keys and of the
values, not the predicate of the maps. (`equal_iff_sameMap`)
-/
import CxxHeaders.UnorderedMapReached

open Outcome

namespace UnorderedMap

open Entries

variable {κ υ η : Type} [DecidableEq η] [BEq κ] [BEq υ]

/-- The loop of `operator==`, with the positions it was at. -/
def equalLoop (s : Elements κ υ) (lhs rhs : UnorderedMap κ η) : Nat → Nat → List Nat → Outcome (Bool × List Nat)
  | 0, _, _ => .blocked
  | fuel + 1, it, visited =>
    if it = lhs.container.length then return (true, visited)
    else match lhs.container[it]? with
      | none => .failed
      | some e =>
        let visited := visited ++ [it]
        let ler := equalRangeKey s lhs (s.elem e.2).1
        let rer := equalRangeKey s rhs (s.elem e.2).1
        let distance := ler.2 - ler.1
        if distance ≠ rer.2 - rer.1 then return (false, visited)
        else if !(between s lhs ler.1 ler.2).isPerm (between s rhs rer.1 (rer.1 + distance)) then
          return (false, visited)
        else equalLoop s lhs rhs fuel ler.2 visited

/-- `operator==`. -/
def equal (fuel : Nat) (s : Elements κ υ) (lhs rhs : UnorderedMap κ η) : Outcome (Bool × List Nat) :=
  if lhs.container.length ≠ rhs.container.length then return (false, [])
  else equalLoop s lhs rhs fuel 0 []

/-! ## The loop -/

variable {s : Elements κ υ} {lhs rhs m : UnorderedMap κ η} {t t₁ t₂ : Table κ υ} {key : κ}

omit [DecidableEq η] [BEq κ] [BEq υ] in
/-- No two positions have equal keys. -/
theorem Sound.position_eq (h : Sound s m t) (hc : Consistent m.hasher m.pred) {i j : Nat}
    (hi : i < m.container.length) (hj : j < m.container.length)
    (hp : m.pred (s.elem m.container[i].2).1 (s.elem m.container[j].2).1) : i = j := by
  have hpair := List.pairwise_iff_getElem.mp (List.pairwise_map.mp h.lists.1)
  rcases Nat.lt_trichotomy i j with hlt | heq | hgt
  · exact absurd hp (hpair i j hi hj hlt)
  · exact heq
  · exact absurd (hc.equal.symm hp) (hpair j i hj hi hgt)

omit [BEq κ] [BEq υ] in
/-- The range of the key of an element is the element. -/
theorem equalRangeKey_self (h : Sound s m t) (hc : Consistent m.hasher m.pred) {it : Nat}
    (hit : it < m.container.length) :
    equalRangeKey s m (s.elem m.container[it].2).1 = (it, it + 1) := by
  have hmem : s.elem m.container[it].2 ∈ m.container.map fun e => s.elem e.2 :=
    List.mem_map.mpr ⟨_, List.getElem_mem hit, rfl⟩
  have hself := h.lists.self hc.equal hmem
  cases hf : find s m (s.elem m.container[it].2).1 with
  | none =>
    rw [h.find_none hc hf] at hself
    cases hself
  | some a =>
    obtain ⟨i, hi, hat, hrange⟩ := equalRangeKey_some hf
    have hp := (findIn_spec hf).2
    rw [← hat] at hp
    obtain rfl : i = it := h.position_eq hc hi hit hp
    exact hrange

omit [BEq κ] [BEq υ] in
theorem equalRangeKey_length (h : Sound s m t) (hc : Consistent m.hasher m.pred) (key : κ) :
    (equalRangeKey s m key).2 - (equalRangeKey s m key).1 = (t key).toList.length := by
  cases hf : find s m key with
  | some a =>
    obtain ⟨i, -, -, hrange⟩ := equalRangeKey_some hf
    rw [h.find_some hf, hrange, Nat.add_sub_cancel_left]
    rfl
  | none =>
    rw [h.find_none hc hf, equalRangeKey_none hf, Nat.sub_self]
    rfl

/-- The other function has an equal entry. -/
def matchedBy (t : Table κ υ) (e : κ × υ) : Bool := (t e.1).any fun f => e == f

variable [PartialEquivBEq κ] [PartialEquivBEq υ]

theorem beq_entry_comm (e f : κ × υ) : (e == f) = (f == e) := by
  show (e.1 == f.1 && e.2 == f.2) = (f.1 == e.1 && f.2 == e.2)
  rw [BEq.comm, BEq.comm (a := e.2)]

theorem isPerm_singleton (e f : κ × υ) : [e].isPerm [f] = (e == f) := by
  cases hef : e == f <;> simp [List.isPerm, List.erase_cons, beq_entry_comm f e, hef]

theorem equalLoop_succ (h₁ : Sound s lhs t₁) (h₂ : Sound s rhs t₂) (hc₁ : Consistent lhs.hasher lhs.pred)
    (hc₂ : Consistent rhs.hasher rhs.pred) {it fuel : Nat} {visited : List Nat}
    (hit : it < lhs.container.length) :
    equalLoop s lhs rhs (fuel + 1) it visited =
      if matchedBy t₂ (s.elem lhs.container[it].2) then equalLoop s lhs rhs fuel (it + 1) (visited ++ [it])
      else .next (false, visited ++ [it]) := by
  obtain ⟨e, he⟩ : ∃ e, s.elem lhs.container[it].2 = e := ⟨_, rfl⟩
  have hself := equalRangeKey_self h₁ hc₁ hit
  have hbetween := between_equalRange h₂ hc₂ e.1
  have hlen := equalRangeKey_length h₂ hc₂ e.1
  rw [he] at hself
  rw [equalLoop]
  simp only [if_neg (Nat.ne_of_lt hit), List.getElem?_eq_getElem hit, he, hself, between_succ hit,
    Nat.add_sub_cancel_left, hlen]
  unfold matchedBy
  cases ht : t₂ e.1 with
  | none => simp
  | some f =>
    rw [ht] at hbetween hlen
    have hrange : (equalRangeKey s rhs e.1).2 = (equalRangeKey s rhs e.1).1 + 1 := by
      have hone : (equalRangeKey s rhs e.1).2 - (equalRangeKey s rhs e.1).1 = 1 := hlen
      omega
    rw [hrange] at hbetween
    simp only [hbetween, Option.toList_some, isPerm_singleton]
    cases hef : e == f <;> simp [hef]

/-- The loop from a position on. By induction on the elements behind it. -/
theorem equalLoop_returns (h₁ : Sound s lhs t₁) (h₂ : Sound s rhs t₂) (hc₁ : Consistent lhs.hasher lhs.pred)
    (hc₂ : Consistent rhs.hasher rhs.pred) {it fuel : Nat} (hit : it ≤ lhs.container.length)
    (hfuel : lhs.container.length - it < fuel) :
    (equalLoop s lhs rhs fuel it (List.range it)).Returns fun r =>
      r.1 = ((lhs.container.drop it).map fun e => s.elem e.2).all (matchedBy t₂) ∧
        ∃ last ≤ lhs.container.length, r.2 = List.range last ∧ (r.1 = true → last = lhs.container.length) := by
  induction fuel generalizing it with
  | zero => omega
  | succ fuel ih =>
    rcases Nat.lt_or_ge it lhs.container.length with hlt | hge
    · rw [equalLoop_succ h₁ h₂ hc₁ hc₂ hlt, List.drop_eq_getElem_cons hlt, ← List.range_succ]
      cases hm : matchedBy t₂ (s.elem lhs.container[it].2) with
      | true =>
        simp only [if_true, List.map_cons, List.all_cons, hm, Bool.true_and]
        exact ih hlt (by omega)
      | false =>
        simp only [Bool.false_eq_true, if_false, List.map_cons, List.all_cons, hm, Bool.false_and]
        exact ⟨rfl, it + 1, hlt, rfl, fun h => by cases h⟩
    · obtain rfl : it = lhs.container.length := Nat.le_antisymm hit hge
      rw [equalLoop, if_pos rfl, List.drop_length]
      exact ⟨rfl, _, Nat.le_refl _, rfl, fun _ => rfl⟩

/-! ## The maps -/

/-- Every position is visited, in order, as long as entries agree. -/
def Visits (m : UnorderedMap κ η) (r : Bool × List Nat) : Prop :=
  ∃ last ≤ m.container.length, r.2 = List.range last ∧ (r.1 = true → last = m.container.length)

/-- The same keys, with equal values. -/
def SameMap (t₁ t₂ : Table κ υ) : Prop := ∀ key, Option.Rel (fun e f => e == f) (t₁ key) (t₂ key)

theorem equal_returns (h₁ : Sound s lhs t₁) (h₂ : Sound s rhs t₂) (hc₁ : Consistent lhs.hasher lhs.pred)
    (hc₂ : Consistent rhs.hasher rhs.pred) (hpred : rhs.pred = lhs.pred) {fuel : Nat}
    (hfuel : lhs.container.length < fuel) :
    (equal fuel s lhs rhs).Returns fun r => (r.1 = true ↔ SameMap t₁ t₂) ∧ Visits lhs r := by
  have hl₂ := h₂.lists
  rw [hpred] at hl₂
  unfold equal SameMap
  rw [h₁.lists.rel_iff hc₁.equal hl₂]
  simp only [List.length_map]
  by_cases hlen : lhs.container.length = rhs.container.length
  · simp only [hlen, ne_eq, not_true_eq_false, if_false, true_and]
    refine (equalLoop_returns h₁ h₂ hc₁ hc₂ (Nat.zero_le _) hfuel).mono fun r hr => ⟨?_, hr.2⟩
    rw [hr.1, List.drop_zero, List.all_eq_true]
    simp only [matchedBy, Option.any_eq_true]
  · simp only [ne_eq, hlen, not_false_eq_true, if_true, false_and]
    exact ⟨by simp, 0, Nat.zero_le _, rfl, fun h => by cases h⟩

theorem SameMap.symm (h : SameMap t₁ t₂) : SameMap t₂ t₁ := by
  intro key
  have hrel := h key
  cases h₁ : t₁ key <;> cases h₂ : t₂ key <;> simp only [h₁, h₂] at hrel ⊢
  · exact .none
  · exact absurd hrel Option.not_rel_none_some
  · exact absurd hrel Option.not_rel_some_none
  · rw [Option.rel_some_some] at hrel ⊢
    rw [beq_entry_comm]
    exact hrel

/-- Maps are constructed with the predicate `pred`, and with a hasher that goes
with it. -/
def Call.Uses (pred : κ → κ → Bool) : Call κ υ η → Prop
  | .act (.construct _ hasher pred') => pred' = pred ∧ Consistent hasher pred'
  | _ => True

omit [DecidableEq η] [BEq κ] [BEq υ] in
theorem Call.Uses.starts {pred : κ → κ → Bool} {a : Call κ υ η} (h : a.Uses pred) : a.Starts (Stands pred) := by
  cases a with
  | act a =>
    cases a with
    | construct m hasher pred' => exact fun s => ⟨h.1, h.2, _, .empty s hasher pred'⟩
    | _ => trivial
  | _ => trivial

variable [Inhabited υ]

/-- **Equal maps**, whatever they were used for, and wherever their elements are.
`==` ends, both ways round with the same answer: that the maps hold the same keys,
with equal values. It visits no element twice, and all of them where it is true. -/
theorem equal_iff_sameMap (pred : κ → κ → Bool) (garbage : κ × υ) (calls : List (Call κ υ η))
    (hcalls : ∀ a ∈ calls, a.Uses pred) :
    (Runs.run call (init garbage) calls).Ok fun c => ∀ i j lhs rhs, c.map i = some lhs → c.map j = some rhs →
      ∃ t₁ t₂ fuel b, Lists pred (lhs.container.map fun e => c.elements.elem e.2) t₁ ∧
        Lists pred (rhs.container.map fun e => c.elements.elem e.2) t₂ ∧ (b = true ↔ SameMap t₁ t₂) ∧
        ((equal fuel c.elements lhs rhs).Returns fun r => r.1 = b ∧ Visits lhs r) ∧
        (equal fuel c.elements rhs lhs).Returns fun r => r.1 = b ∧ Visits rhs r := by
  refine ((stands_invariant pred).run garbage fun a ha => (hcalls a ha).starts).mono ?_
  intro c hall i j lhs rhs hi hj
  obtain ⟨hp₁, hc₁, t₁, h₁⟩ := hall i lhs hi
  obtain ⟨hp₂, hc₂, t₂, h₂⟩ := hall j rhs hj
  obtain ⟨r, hr, hiff, hvisits⟩ := (equal_returns h₁ h₂ hc₁ hc₂ (hp₂.trans hp₁.symm)
    (Nat.lt_succ_of_le (Nat.le_add_right _ rhs.container.length))).exists
  obtain ⟨r', hr', hiff', hvisits'⟩ := (equal_returns h₂ h₁ hc₂ hc₁ (hp₁.trans hp₂.symm)
    (Nat.lt_succ_of_le (Nat.le_add_left _ lhs.container.length))).exists
  have hsame : r'.1 = r.1 := by
    rw [Bool.eq_iff_iff, hiff, hiff']
    exact ⟨SameMap.symm, SameMap.symm⟩
  refine ⟨t₁, t₂, lhs.container.length + rhs.container.length + 1, r.1, hp₁ ▸ h₁.lists, hp₂ ▸ h₂.lists,
    hiff, ?_, ?_⟩
  · rw [hr]
    exact ⟨rfl, hvisits⟩
  · rw [hr']
    exact ⟨hsame, hvisits'⟩

/-- Two keys, inserted in two orders; in one map their hashes are the same. -/
def twoOrders : List (Call Nat Nat Nat) :=
  [.act (.construct 0 (· % 2) (· == ·)), .act (.emplace 0 4 1 [(0, 0)]),
    .act (.emplace 0 6 2 [(0, 1), (0, 0)]), .act (.construct 1 id (· == ·)), .act (.emplace 1 6 2 [(6, 2)]),
    .act (.emplace 1 4 1 [(6, 2), (4, 3)]), .rehash 1 [(4, 3), (6, 2)]]

theorem equal_twoOrders : (Runs.run call (init (0, 0)) twoOrders).isNext ∧
    (Runs.run call (init (0, 0)) twoOrders).Ok fun c => ∀ i j lhs rhs, c.map i = some lhs → c.map j = some rhs →
      ∃ t₁ t₂ fuel b, Lists (· == ·) (lhs.container.map fun e => c.elements.elem e.2) t₁ ∧
        Lists (· == ·) (rhs.container.map fun e => c.elements.elem e.2) t₂ ∧ (b = true ↔ SameMap t₁ t₂) ∧
        ((equal fuel c.elements lhs rhs).Returns fun r => r.1 = b ∧ Visits lhs r) ∧
        (equal fuel c.elements rhs lhs).Returns fun r => r.1 = b ∧ Visits rhs r := by
  have hequal : Equivalence fun a b : Nat => (a == b) = true := ⟨by simp, by simp, by simp⟩
  refine ⟨by decide +kernel, equal_iff_sameMap (· == ·) (0, 0) twoOrders ?_⟩
  simp only [twoOrders, List.forall_mem_cons, Call.Uses, List.not_mem_nil, false_imp_iff, implies_true,
    and_true, true_and]
  refine ⟨⟨hequal, ?_⟩, hequal, ?_⟩ <;> intro a b h <;> rw [eq_of_beq h]

end UnorderedMap
