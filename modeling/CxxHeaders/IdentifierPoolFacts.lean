/-
No identifier is in use twice, as long as no holder that holds one is
move-assigned to itself: that recycles the identifier but leaves the holder
valid, and is the only step that breaks the rule (`unique_iff`).

Who holds what is a table of owners (`Exclusive`); the steps of the holders
acquire, drop and transfer.
-/
import CxxHeaders.IdentifierPool
import CxxHeaders.Ownership
import Mathlib.Data.BitVec

open Outcome

namespace IdentifierPool

variable {w : Nat} {π η : Type}

/-! ## The search loop -/

/-- What the loop finds: the first identifier from `start` on, around the
circle, that is not reserved; none only if all are. -/
def FirstFree (reserved : Finset (BitVec w)) (start : BitVec w) : Except Exception (BitVec w) → Prop
  | .ok id => ∃ j < 2 ^ w, id = start + BitVec.ofNat w j ∧ id ∉ reserved ∧
      ∀ i < j, start + BitVec.ofNat w i ∈ reserved
  | .error e => e = .reserveException ∧ ∀ id, id ∈ reserved

theorem add_ofNat_succ (start : BitVec w) (k : Nat) :
    start + BitVec.ofNat w k + 1 = start + BitVec.ofNat w (k + 1) := by
  rw [BitVec.ofNat_add, BitVec.add_assoc]
  rfl

/-- The loop is round when it has tried all of them. -/
theorem add_one_eq_start {start : BitVec w} {k : Nat} (hk : k < 2 ^ w) :
    start + BitVec.ofNat w k + 1 = start ↔ k + 1 = 2 ^ w := by
  rw [add_ofNat_succ, add_eq_left]
  constructor
  · intro h
    have hmod : (k + 1) % 2 ^ w = 0 := by simpa using congrArg BitVec.toNat h
    have hle : 2 ^ w ≤ k + 1 := Nat.le_of_dvd (Nat.succ_pos k) (Nat.dvd_of_mod_eq_zero hmod)
    omega
  · intro h
    rw [h]
    exact BitVec.eq_of_toNat_eq ((BitVec.toNat_ofNat ..).trans (Nat.mod_self _))

theorem search_returns {reserved : Finset (BitVec w)} (start : BitVec w) {fuel k : Nat}
    (hk : k + fuel = 2 ^ w)
    (hpos : 0 < fuel) (hres : ∀ i < k, start + BitVec.ofNat w i ∈ reserved) :
    (State.search reserved start fuel (start + BitVec.ofNat w k)).Returns (FirstFree reserved start) := by
  induction fuel generalizing k with
  | zero => cases hpos
  | succ fuel ih =>
    have hlt : k < 2 ^ w := by omega
    unfold State.search
    split
    · next hmem =>
      have hres' : ∀ i < k + 1, start + BitVec.ofNat w i ∈ reserved := by
        intro i hi
        rcases Nat.lt_succ_iff_lt_or_eq.mp hi with hi | rfl
        · exact hres i hi
        · exact hmem
      split
      · next hround =>
        have hall : k + 1 = 2 ^ w := (add_one_eq_start hlt).mp hround
        refine ⟨rfl, fun id => ?_⟩
        have hid : start + BitVec.ofNat w (id - start).toNat = id := by
          rw [BitVec.ofNat_toNat, BitVec.setWidth_eq, BitVec.add_comm, BitVec.sub_add_cancel]
        rw [← hid]
        exact hres' _ (by rw [hall]; exact (id - start).isLt)
      · next hround =>
        have hne : k + 1 ≠ 2 ^ w := fun he => hround ((add_one_eq_start hlt).mpr he)
        rw [add_ofNat_succ]
        exact ih (by omega) (by omega) hres'
    · next hmem => exact ⟨k, hlt, rfl, hmem, hres⟩

theorem search_start_returns (reserved : Finset (BitVec w)) (start : BitVec w) :
    (State.search reserved start (2 ^ w) start).Returns (FirstFree reserved start) := by
  simpa using search_returns start (k := 0) (Nat.zero_add (2 ^ w)) (Nat.two_pow_pos w) nofun

/-- The search ends, and changes the state only where it succeeds. -/
theorem reserve_ok (s : State w) (alloc : Bool) : (s.reserve alloc).Ok fun r => ∀ id t, r = .ok (id, t) →
    id ∉ s.reserved ∧ t.reserved = insert id s.reserved := by
  simp only [State.reserve, ok_bind]
  refine (search_start_returns s.reserved s.tryNextId).ok.mono fun r hr => ?_
  cases r with
  | error e => exact nofun
  | ok id =>
    obtain ⟨-, -, -, hnew, -⟩ := hr
    cases alloc with
    | false => exact nofun
    | true =>
      intro id' t he
      cases he
      exact ⟨hnew, rfl⟩

/-! ## Holders as owners -/

/-- The valid holders of a pool have different identifiers, and the pool has
reserved just these. -/
structure Unique (c : Config w π η) : Prop where
  distinct : ∀ {h k p id}, c.holder h = some ⟨id, some p⟩ → c.holder k = some ⟨id, some p⟩ → h = k
  reserved : ∀ p id, id ∈ (c.state p).reserved ↔ ∃ h, c.holder h = some ⟨id, some p⟩

/-- The identifier, and the pool it is of, that a holder stands for. -/
def IdHolder.carried (x : IdHolder w π) : Option (π × BitVec w) := x.state.map (·, x.id)

def Config.carried (c : Config w π η) (h : η) : Option (π × BitVec w) := (c.holder h).bind IdHolder.carried

def Config.taken (c : Config w π η) (r : π × BitVec w) : Prop := r.2 ∈ (c.state r.1).reserved

theorem Config.carried_eq_some {c : Config w π η} {h : η} {p : π} {id : BitVec w} :
    c.carried h = some (p, id) ↔ c.holder h = some ⟨id, some p⟩ := by
  unfold Config.carried IdHolder.carried
  cases c.holder h with
  | none => simp
  | some x =>
    obtain ⟨i, q⟩ := x
    cases q <;> simp [and_comm]

theorem unique_iff_exclusive {c : Config w π η} : Unique c ↔ Exclusive c.carried c.taken := by
  constructor
  · intro h
    refine ⟨fun {j k r} hj hk => ?_, fun ⟨p, id⟩ => (h.reserved p id).trans ?_⟩
    · obtain ⟨p, id⟩ := r
      exact h.distinct (Config.carried_eq_some.mp hj) (Config.carried_eq_some.mp hk)
    · exact exists_congr fun _ => Config.carried_eq_some.symm
  · intro h
    refine ⟨fun hj hk => h.unique (Config.carried_eq_some.mpr hj) (Config.carried_eq_some.mpr hk),
      fun p id => (h.owned_iff (p, id)).trans ?_⟩
    exact exists_congr fun _ => Config.carried_eq_some

theorem init_unique : Unique (init : Config w π η) :=
  unique_iff_exclusive.mpr (.nobody fun _ => Finset.notMem_empty _)

theorem Config.carried_congr {c d : Config w π η} (h : d.holder = c.holder) : d.carried = c.carried := by
  funext k
  rw [Config.carried, Config.carried, h]

theorem Config.carried_of_holder {c : Config w π η} {h : η} {x : IdHolder w π}
    (hx : c.holder h = some x) :
    c.carried h = x.carried := by
  rw [Config.carried, hx]
  rfl

theorem Config.carried_of_free {c : Config w π η} {h : η} (hx : c.holder h = none) :
    c.carried h = none := by
  rw [Config.carried, hx]
  rfl

variable [DecidableEq η]

theorem Config.carried_set (c : Config w π η) (h : η) (x : Option (IdHolder w π)) :
    (c.set h x).carried = Function.update c.carried h (x.bind IdHolder.carried) := by
  funext k
  by_cases hk : k = h
  · rw [hk, Function.update_self]
    simp [Config.carried, Config.set]
  · rw [Function.update_of_ne hk]
    simp [Config.carried, Config.set, hk]

theorem Config.setState_eq {c : Config w π η} {h : η} {x : IdHolder w π} (hx : c.holder h = some x)
    (state : Option π) : c.setState h state = c.set h (some { x with state := state }) := by
  unfold Config.setState Config.set
  rw [hx]
  rfl

/-- A holder moved to itself stays as it was; another one hands on what it
had, and is no longer valid. -/
theorem moved_eq {c : Config w π η} {h move : η} {x y : IdHolder w π} (hx : c.holder h = some x)
    (hy : c.holder move = some y) : (c.setId h y.id).moveState h move =
      if h = move then c else (c.set h (some y)).set move (some { y with state := none }) := by
  split
  · next he =>
    subst he
    obtain rfl : x = y := Option.some.inj (hx.symm.trans hy)
    have hc : ∀ f, f = c.holder → (⟨c.state, f⟩ : Config w π η) = c := fun f hf => by rw [hf]
    refine hc _ ?_
    simp [Config.setId, Config.setState, hx]
  · next hne =>
    have hne' : move ≠ h := fun he => hne he.symm
    have hc : ∀ f g, f = g → (⟨c.state, f⟩ : Config w π η) = ⟨c.state, g⟩ := fun f g hf => by rw [hf]
    refine hc _ _ ?_
    simp [Config.setId, Config.setState, Config.set, hx, hy, hne', Function.update_comm hne]

variable [DecidableEq π]

/-- What `h` has is recycled. -/
theorem recycle_ok {c : Config w π η} (hu : Exclusive c.carried c.taken) {h : η} {x : IdHolder w π}
    (hx : c.holder h = some x) : (c.recycle x).Ok fun d =>
      d.holder = c.holder ∧ Exclusive (Function.update c.carried h none) d.taken := by
  have hcarried := Config.carried_of_holder hx
  unfold Config.recycle
  cases hp : x.state with
  | none =>
    have hnone : c.carried h = none := by rw [hcarried, IdHolder.carried, hp]; rfl
    refine ⟨rfl, ?_⟩
    rw [Function.update_eq_self_iff.mpr hnone.symm]
    exact hu
  | some p =>
    have hsome : c.carried h = some (p, x.id) := by rw [hcarried, IdHolder.carried, hp]; rfl
    have htaken : x.id ∈ (c.state p).reserved := hu.taken_of hsome
    simp only [State.recycle, asserting_true htaken, next_bind, pure_eq]
    refine ⟨rfl, hu.drop fun ⟨q, id⟩ => ?_⟩
    rw [hsome]
    unfold Config.taken
    by_cases hq : q = p
    · subst hq
      simp [and_comm, eq_comm]
    · simp [hq, Ne.symm hq]

/-! ## The steps -/

/-- The step that breaks the rule: a holder that has an identifier is
move-assigned to itself. -/
def Safe (c : Config w π η) (a : Act w π η) : Prop :=
  ∀ h p id, a = .moveAssign h h → c.holder h ≠ some ⟨id, some p⟩

theorem construct_ok {c : Config w π η} (hu : Exclusive c.carried c.taken) (h : η) (garbage : BitVec w) :
    (next c (.construct h garbage)).Ok fun d => Exclusive d.carried d.taken := by
  simp only [next, ok_bind, ok_requiring]
  intro hfree
  show Exclusive (c.set h (some ⟨garbage, none⟩)).carried c.taken
  have hnone := Config.carried_of_free hfree
  rw [c.carried_set]
  show Exclusive (Function.update c.carried h none) c.taken
  rw [Function.update_eq_self_iff.mpr hnone.symm]
  exact hu

theorem reserve_step_ok {c : Config w π η} (hu : Exclusive c.carried c.taken) (h : η) (pool : π)
    (alloc : Bool) : (next c (.reserve h pool alloc)).Ok fun d => Exclusive d.carried d.taken := by
  simp only [next, ok_bind, ok_requiring]
  intro hfree
  have hnone := Config.carried_of_free hfree
  refine (reserve_ok (c.state pool) alloc).mono fun r hr => ?_
  cases r with
  | error e => trivial
  | ok r =>
    obtain ⟨id, s⟩ := r
    obtain ⟨hnew, hres⟩ := hr id s rfl
    show Exclusive (Config.set _ _ _).carried _
    rw [Config.carried_set]
    refine hu.acquire hnone (r := (pool, id)) hnew fun p => ?_
    obtain ⟨q, i⟩ := p
    show i ∈ (Function.update c.state pool s q).reserved ↔ _
    unfold Config.taken
    by_cases hq : q = pool
    · subst hq
      simp [hres]
    · simp [hq]

theorem moveConstruct_ok {c : Config w π η} (hu : Exclusive c.carried c.taken) (h move : η) :
    (next c (.moveConstruct h move)).Ok fun d => Exclusive d.carried d.taken := by
  simp only [next]
  cases hy : c.holder move with
  | none => trivial
  | some y =>
    simp only [ok_bind, ok_requiring]
    intro hfree
    have hne : h ≠ move := fun he => by
      rw [he, hy] at hfree
      cases hfree
    have hnone := Config.carried_of_free hfree
    have hy' : (c.set h (some y)).holder move = some y := (Function.update_of_ne hne.symm _ _).trans hy
    have hcarried := Config.carried_of_holder hy
    show Exclusive ((c.set h (some y)).setState move none).carried c.taken
    rw [Config.setState_eq hy', Config.carried_set, Config.carried_set]
    have ht := hu.transfer hne hnone
    rw [hcarried] at ht
    exact ht

theorem moveAssign_ok {c : Config w π η} (hu : Exclusive c.carried c.taken) {h move : η}
    (hs : Safe c (.moveAssign h move)) :
    (next c (.moveAssign h move)).Ok fun d => Exclusive d.carried d.taken := by
  simp only [next]
  cases hx : c.holder h with
  | none => trivial
  | some x =>
    cases hy : c.holder move with
    | none => trivial
    | some y =>
      simp only [ok_bind]
      refine (recycle_ok hu hx).mono fun d ⟨hd, hud⟩ => ?_
      show Exclusive ((d.setId h y.id).moveState h move).carried d.taken
      have hcarried := Config.carried_congr hd
      rw [← hd] at hx hy
      rw [moved_eq hx hy]
      split
      · next he =>
        subst he
        have hnone : c.carried h = none := by
          cases hc : c.carried h with
          | none => rfl
          | some r => exact absurd (Config.carried_eq_some.mp hc) (hs h r.1 r.2 rfl)
        rw [Function.update_eq_self_iff.mpr hnone.symm] at hud
        exact hcarried ▸ hud
      · next hne =>
        have ht := hud.transfer hne (Function.update_self ..)
        rw [Function.update_idem, Function.update_of_ne (Ne.symm hne), ← hcarried,
          Config.carried_of_holder hy] at ht
        rw [Config.carried_set, Config.carried_set]
        exact ht

theorem release_ok {c : Config w π η} (hu : Exclusive c.carried c.taken) (h : η) :
    (next c (.release h)).Ok fun d => Exclusive d.carried d.taken := by
  simp only [next]
  cases hx : c.holder h with
  | none => trivial
  | some x =>
    simp only [ok_bind]
    refine (recycle_ok hu hx).mono fun d ⟨hd, hud⟩ => ?_
    show Exclusive (d.setState h none).carried d.taken
    rw [← hd] at hx
    rw [Config.setState_eq hx, Config.carried_set, Config.carried_congr hd]
    exact hud

theorem destroy_ok {c : Config w π η} (hu : Exclusive c.carried c.taken) (h : η) :
    (next c (.destroy h)).Ok fun d => Exclusive d.carried d.taken := by
  simp only [next]
  cases hx : c.holder h with
  | none => trivial
  | some x =>
    simp only [ok_bind]
    refine (recycle_ok hu hx).mono fun d ⟨hd, hud⟩ => ?_
    show Exclusive (d.set h none).carried d.taken
    rw [Config.carried_set, Config.carried_congr hd]
    exact hud

theorem next_ok {c : Config w π η} (hu : Unique c) {a : Act w π η} (hs : Safe c a) :
    (next c a).Ok Unique := by
  have hx := unique_iff_exclusive.mp hu
  have hall : (next c a).Ok fun d => Exclusive d.carried d.taken := by
    cases a with
    | construct h garbage => exact construct_ok hx h garbage
    | reserve h pool alloc => exact reserve_step_ok hx h pool alloc
    | moveConstruct h move => exact moveConstruct_ok hx h move
    | moveAssign h move => exact moveAssign_ok hx hs
    | release h => exact release_ok hx h
    | destroy h => exact destroy_ok hx h
  exact hall.mono fun _ => unique_iff_exclusive.mpr

/-- The holder goes on with an identifier that it has just recycled. -/
theorem moveAssign_self {c : Config w π η} (hu : Unique c) {h : η} {p : π} {id : BitVec w}
    (hh : c.holder h = some ⟨id, some p⟩) : ¬(next c (.moveAssign h h)).Ok Unique := by
  have hmem : id ∈ (c.state p).reserved := (hu.reserved p id).mpr ⟨h, hh⟩
  have hself : ∀ d : Config w π η, d.holder = c.holder → (d.setId h id).moveState h h = d := by
    intro d hd
    rw [← hd] at hh
    exact (moved_eq hh hh).trans (if_pos rfl)
  have hrec : next c (.moveAssign h h) = .next ⟨Function.update c.state p
      ⟨(c.state p).reserved.erase id, (c.state p).tryNextId⟩, c.holder⟩ := by
    simp only [next, hh, Config.recycle, State.recycle, asserting_true hmem, next_bind, pure_eq]
    exact congrArg Outcome.next (hself ⟨_, c.holder⟩ rfl)
  rw [hrec]
  intro hok
  have hgone := (hok.reserved p id).mpr ⟨h, hh⟩
  simp at hgone

theorem safe_iff {c : Config w π η} (hu : Unique c) (a : Act w π η) :
    Safe c a ↔ (next c a).Ok Unique := by
  constructor
  · exact next_ok hu
  · intro hok h p id ha hh
    subst ha
    exact moveAssign_self hu hh hok

/-- **In every state of a run the identifiers are unique, and no assertion
fails, exactly if no step of the run move-assigns a valid holder to itself.** -/
theorem unique_iff (as : List (Act w π η)) :
    Runs.Along next (fun _ _ d => Unique d) init as ↔ Runs.Meets next Safe init as :=
  Runs.along_iff_meets (D := fun _ _ => True) (fun _ a hu _ => safe_iff hu a) (fun _ _ _ _ _ _ hu => hu)
    init_unique (Runs.meets_true as)

/-- The holder is valid after the second step, but its identifier is free;
the third recycles it again. -/
def selfMove : List (Act 8 Unit Unit) := [.reserve () () true, .moveAssign () (), .release ()]

theorem selfMove_fails : Runs.run next init selfMove = .failed ∧
    ¬∀ as : List (Act 8 Unit Unit), Runs.Along next (fun _ _ d => Unique d) init as := by
  have hrun : Runs.run next init selfMove = .failed := rfl
  exact ⟨hrun, fun h => (h selfMove).run_ne_failed hrun⟩

end IdentifierPool
