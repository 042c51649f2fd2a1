/-
The two variants of `TransparentFind` find the same element, and those of
`TransparentErase` erase the same one (`transparent_agree`): what satisfies the
predicate is stored under the hash of the key. It may be more than one element.
-/
import CxxHeaders.UnorderedMapReached

open Outcome

namespace UnorderedMap

variable {κ υ η ξ : Type} {s : Elements κ υ} {m : UnorderedMap κ η}

/-- The hasher and the predicate for keys of another type go with the hasher
for stored ones. -/
def Coherent (stored : κ → η) (hasher : ξ → η) (pred : κ → ξ → Bool) : Prop :=
  ∀ k key, pred k key → stored k = hasher key

variable [DecidableEq η]

/-- Nothing else is in the range of the hash. -/
theorem find?_equalRange (h : Stored s m) {hasher : ξ → η} {pred : κ → ξ → Bool}
    (hc : Coherent m.hasher hasher pred) (key : ξ) :
    (equalRange m.container (hasher key)).find? (Identifies s pred key) =
      m.container.find? (Identifies s pred key) := by
  unfold equalRange
  rw [List.find?_filter]
  refine List.find?_congr fun e he => ?_
  cases hp : Identifies s pred key e with
  | false => simp
  | true =>
    have hhash : e.1 = hasher key := (h.hashed e he).trans (hc _ _ hp)
    simp [hhash]

variable [Inhabited υ]

/-- **The variants agree**, whatever the maps were used for. -/
theorem transparent_agree (garbage : κ × υ) (calls : List (Call κ υ η)) :
    (Runs.run call (init garbage) calls).Ok fun c => ∀ n m, c.map n = some m →
      ∀ (ξ : Type) (hasher : ξ → η) (pred : κ → ξ → Bool), Coherent m.hasher hasher pred → ∀ key,
        TransparentFind.hashed c.elements m.container key hasher pred =
          TransparentFind.linear c.elements m.container key pred ∧
        TransparentErase.hashed c.elements m.container key hasher pred =
          TransparentErase.linear c.elements m.container key pred := by
  have hempty : ∀ a ∈ calls, a.Starts Stored := by
    intro a _
    cases a with
    | act a =>
      cases a with
      | construct m hasher pred =>
        exact fun s => ⟨fun e he => absurd he List.not_mem_nil, fun e he => absurd he List.not_mem_nil⟩
      | _ => trivial
    | _ => trivial
  refine (stored_invariant.run garbage hempty).mono fun c hall n m hm ξ hasher pred hc key => ?_
  have hfind := find?_equalRange (hall n m hm) hc key
  exact ⟨hfind, congrArg (TransparentErase.erase m.container) hfind⟩

/-- Two even keys and an odd one, of which the even ones have one hash. -/
def threeKeys : List (Call Nat Nat Nat) :=
  [.act (.construct 0 (· % 2) (· == ·)), .act (.emplace 0 4 1 [(0, 0)]), .act (.emplace 0 6 2 [(0, 1), (0, 0)]),
    .act (.emplace 0 5 3 [(1, 2), (0, 1), (0, 0)])]

/-- The keys of one parity are looked for. -/
def sameParity (k : Nat) (odd : Bool) : Bool := k % 2 == odd.toNat

theorem transparent_agree_threeKeys : ∃ c m,
    Runs.run call (init (0, 0)) threeKeys = .next c ∧ c.map 0 = some m ∧
    TransparentFind.linear c.elements m.container false sameParity = some (0, 1) ∧
    TransparentFind.hashed c.elements m.container false Bool.toNat sameParity = some (0, 1) := by
  obtain ⟨c, m, hc, hm, hhasher, hlinear⟩ : ∃ c m, Runs.run call (init (0, 0)) threeKeys = .next c ∧
      c.map 0 = some m ∧ m.hasher = (· % 2) ∧
      TransparentFind.linear c.elements m.container false sameParity = some (0, 1) :=
    ⟨_, _, rfl, rfl, rfl, rfl⟩
  have hcoherent : Coherent m.hasher Bool.toNat sameParity := fun k odd hk => by
    rw [hhasher]
    exact eq_of_beq hk
  have hagree := (transparent_agree (0, 0) threeKeys).of_next hc 0 m hm Bool Bool.toNat sameParity hcoherent false
  exact ⟨c, m, hc, hm, hlinear, hagree.1.trans hlinear⟩

end UnorderedMap
