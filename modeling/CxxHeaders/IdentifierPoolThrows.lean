/-
`IdentifierPool.h`: what `reserve` leaves behind where it throws, and what of
it reaches the caller.

`State::reserve` finds the first identifier that is free, or throws and has
changed nothing. But it is run by the holder's constructor, which is
`noexcept`, so no exception leaves the pool's `reserve`: the program ends.
-/
import CxxHeaders.IdentifierPoolFacts
import CxxHeaders.Throwing

open Outcome Throwing

namespace IdentifierPoolThrows

open IdentifierPool

variable {w : Nat}

/-! ## The state -/

/-- Code of a pool's state, under its lock. -/
abbrev Reserving (w : Nat) := Throwing Exception (State w)

namespace State

/-- The loop of `reserve`. -/
def search (oldTryNext : BitVec w) : Nat → BitVec w → Reserving w (BitVec w)
  | 0, _ => liftM (Outcome.failed : Outcome (BitVec w))
  | fuel + 1, tryNext => do
    if tryNext ∈ (← get).reserved then
      if tryNext + 1 = oldTryNext then throw .reserveException
      else search oldTryNext fuel (tryNext + 1)
    else return tryNext

/-- `alloc` says whether there is memory for one more identifier. -/
def reserve (alloc : Bool) : Reserving w (BitVec w) := do
  let oldTryNext := (← get).tryNextId
  let tryNext ← search oldTryNext (2 ^ w) oldTryNext
  if !alloc then throw .badAlloc
  modify fun s => { s with reserved := insert tryNext s.reserved }
  modify ({ · with tryNextId := tryNext + 1 })
  return tryNext

end State

/-- The loop changes nothing. -/
theorem search_run (s : State w) (oldTryNext : BitVec w) (fuel : Nat) (tryNext : BitVec w) :
    (State.search oldTryNext fuel tryNext).run.run s =
      IdentifierPool.State.search s.reserved oldTryNext fuel tryNext >>= fun r => .next (r, s) := by
  induction fuel generalizing tryNext with
  | zero => rfl
  | succ fuel ih =>
    unfold IdentifierPool.State.search
    show (ite _ _ _ : Reserving w (BitVec w)).run.run s = _
    by_cases hmem : tryNext ∈ s.reserved
    · rw [if_pos hmem, if_pos hmem]
      by_cases hround : tryNext + 1 = oldTryNext
      · rw [if_pos hround, if_pos hround]
        rfl
      · rw [if_neg hround, if_neg hround]
        exact ih (tryNext + 1)
    · rw [if_neg hmem, if_neg hmem]
      rfl

theorem ends_search {s : State w} {oldTryNext : BitVec w} {fuel : Nat} {tryNext : BitVec w}
    {Q : BitVec w → State w → Prop} {E : Exception → State w → Prop} :
    Ends (State.search oldTryNext fuel tryNext) s Q E ↔
      (IdentifierPool.State.search s.reserved oldTryNext fuel tryNext).Returns fun
        | .ok id => Q id s
        | .error e => E e s := by
  unfold Ends
  rw [search_run]
  cases IdentifierPool.State.search s.reserved oldTryNext fuel tryNext with
  | next r => cases r <;> rfl
  | _ => rfl

theorem ends_reserve {s : State w} {alloc : Bool} {Q : BitVec w → State w → Prop}
    {E : Exception → State w → Prop} (hok : ∀ id, FirstFree s.reserved s.tryNextId (.ok id) →
      if alloc then Q id ⟨insert id s.reserved, id + 1⟩ else E .badAlloc s)
    (herror : (∀ id, id ∈ s.reserved) → E .reserveException s) : Ends (State.reserve alloc) s Q E := by
  unfold State.reserve
  simp only [ends_bind, ends_get, ends_search]
  refine (search_start_returns s.reserved s.tryNextId).mono fun r hr => ?_
  cases r with
  | error e =>
    obtain ⟨rfl, hall⟩ := hr
    exact herror hall
  | ok id =>
    have hid := hok id hr
    cases alloc <;> exact hid

/-- **`reserve` comes to an end.** It returns the first identifier from
`m_tryNextId` on, around the circle, that is free, reserves just this one and
goes on behind it the next time; or it throws, because none is free or there is
no memory, and has changed nothing. -/
theorem reserve_ends (s : State w) (alloc : Bool) : Ends (State.reserve alloc) s
    (fun id t => FirstFree s.reserved s.tryNextId (.ok id) ∧ alloc = true ∧
      t.reserved = insert id s.reserved ∧ t.tryNextId = id + 1)
    (fun e t => t = s ∧ (e = .reserveException ∧ (∀ id, id ∈ s.reserved) ∨
      e = .badAlloc ∧ alloc = false ∧ ∃ id, id ∉ s.reserved)) := by
  refine ends_reserve (fun id hid => ?_) fun hall => ⟨rfl, .inl ⟨rfl, hall⟩⟩
  cases alloc with
  | false =>
    obtain ⟨-, -, -, hfree, -⟩ := hid
    exact ⟨rfl, .inr ⟨rfl, rfl, id, hfree⟩⟩
  | true => exact ⟨hid, rfl, rfl, rfl⟩

/-- The model that keeps no state where it throws says the same. -/
theorem reserve_run (s : State w) (alloc : Bool) : (State.reserve alloc).run.run s =
    s.reserve alloc >>= fun
      | .ok (id, t) => .next (.ok id, t)
      | .error e => .next (.error e, s) := by
  show (State.search s.tryNextId (2 ^ w) s.tryNextId).run.run s >>= _ = _
  unfold IdentifierPool.State.reserve
  rw [search_run, bind_assoc, bind_assoc]
  refine congrArg _ (funext fun r => ?_)
  cases r with
  | error e => rfl
  | ok id => cases alloc <;> rfl

/-! ## Holders -/

variable {π η α : Type} [DecidableEq π]

/-- Code that is given the pools and the holders. -/
abbrev Calling (w : Nat) (π η : Type) := Throwing Exception (Config w π η)

/-- Code of the state of pool `p`. -/
def onState (p : π) (x : Reserving w α) : Calling w π η α := fun c => do
  let r ← x.run.run (c.state p)
  return (r.1, { c with state := Function.update c.state p r.2 })

/-- `IdHolder(std::shared_ptr<State>)`, which is `noexcept`. -/
def makeIdHolder (state : π) (alloc : Bool) : Calling w π η (IdHolder w π) := noexcept do
  let id ← onState state (State.reserve alloc)
  return ⟨id, some state⟩

/-- `IdentifierPool<T>::reserve`. -/
def reserve (pool : π) (alloc : Bool) : Calling w π η (IdHolder w π) := makeIdHolder pool alloc

/-- The `IdHolder` of a `StrongType`. -/
structure StrongIdHolder (w : Nat) (π : Type) where
  inner : IdHolder w π

/-- `IdentifierPool<StrongType>::reserve`. -/
def strongReserve (pool : π) (alloc : Bool) : Calling w π η (StrongIdHolder w π) := do
  return ⟨← reserve pool alloc⟩

theorem ends_onState {p : π} {x : Reserving w α} {c : Config w π η} {Q : α → Config w π η → Prop}
    {E : Exception → Config w π η → Prop} :
    Ends (onState p x) c Q E ↔
      Ends x (c.state p) (fun a s => Q a { c with state := Function.update c.state p s })
        (fun e s => E e { c with state := Function.update c.state p s }) := by
  unfold Ends
  show ((x.run.run (c.state p)) >>= _).Returns _ ↔ _
  rw [returns_bind]
  rfl

/-- **Code that reserves reports what goes wrong.** -/
structure Reports [DecidableEq η] (reserve : π → Bool → Calling w π η α) (pool : π) (alloc : Bool)
    (c : Config w π η) : Prop where
  /-- Where all is in use that is said and changes nothing, and the pool is of
  use again when a holder gives its identifier back. -/
  exhausted : (∀ id, id ∈ (c.state pool).reserved) → Throws (reserve pool alloc) c fun e d =>
    e = .reserveException ∧ d = c ∧ ∀ h id, d.holder h = some ⟨id, some pool⟩ →
      (next d (.release h)).Returns fun d' =>
        Ends (reserve pool true) d' (fun _ _ => True) fun _ _ => False
  onlyExhausted : Throws (reserve pool alloc) c (fun e _ => e = .reserveException) →
    ∀ id, id ∈ (c.state pool).reserved
  memory : (∃ id, id ∉ (c.state pool).reserved) → alloc = false →
    Throws (reserve pool alloc) c fun e _ => e = .badAlloc
  reserves : (∃ id, id ∉ (c.state pool).reserved) → alloc = true →
    Ends (reserve pool alloc) c (fun _ _ => True) fun _ _ => False

/-- An identifier is left, and memory to note that it is in use. -/
def Left (pool : π) (alloc : Bool) (c : Config w π η) : Prop :=
  (∃ id, id ∉ (c.state pool).reserved) ∧ alloc = true

theorem reserve_returns {pool : π} {alloc : Bool} {c : Config w π η} (h : Left pool alloc c) :
    Ends (reserve pool alloc) c (fun _ _ => True) fun _ _ => False := by
  obtain ⟨⟨id, hfree⟩, halloc⟩ := h
  unfold reserve makeIdHolder
  rw [ends_noexcept, ends_bind, ends_onState]
  refine ends_reserve (fun _ _ => ?_) fun hall => hfree (hall id)
  rw [if_pos halloc]
  trivial

/-- Code that throws nothing reports only where there is nothing to report. -/
theorem reports_iff_left [DecidableEq η] {f : π → Bool → Calling w π η α} {pool : π} {alloc : Bool}
    {c : Config w π η} (hthrows : ∀ E, ¬Throws (f pool alloc) c E)
    (hreturns : Left pool alloc c → Ends (f pool alloc) c (fun _ _ => True) fun _ _ => False) :
    Reports f pool alloc c ↔ Left pool alloc c := by
  constructor
  · intro h
    have hfree : ∃ id, id ∉ (c.state pool).reserved := by
      by_contra hnone
      exact hthrows _ (h.exhausted fun id => not_not.mp fun hid => hnone ⟨id, hid⟩)
    refine ⟨hfree, ?_⟩
    cases alloc with
    | true => rfl
    | false => exact absurd (h.memory hfree rfl) (hthrows _)
  · intro h
    obtain ⟨id, hfree⟩ := h.1
    refine ⟨fun hall => absurd (hall id) hfree, fun ht => absurd ht (hthrows _), fun _ hfalse => ?_,
      fun _ _ => hreturns h⟩
    rw [h.2] at hfalse
    cases hfalse

theorem reserve_reports_iff [DecidableEq η] {pool : π} {alloc : Bool} {c : Config w π η} :
    Reports reserve pool alloc c ↔ Left pool alloc c :=
  reports_iff_left (fun _ => not_throws_noexcept) reserve_returns

theorem strongReserve_reports_iff [DecidableEq η] {pool : π} {alloc : Bool} {c : Config w π η} :
    Reports strongReserve pool alloc c ↔ Left pool alloc c := by
  refine reports_iff_left (fun _ ht => not_throws_noexcept (throws_bind_pure.mp ht)) fun h => ?_
  unfold strongReserve
  rw [ends_bind]
  exact reserve_returns h

/-! ## Runs -/

theorem makeIdHolder_run (c : Config w π η) (pool : π) (alloc : Bool) :
    (makeIdHolder pool alloc).run.run c = (c.state pool).reserve alloc >>= fun r => match r with
      | .ok (id, s) => .next (.ok ⟨id, some pool⟩, { c with state := Function.update c.state pool s })
      | .error _ => .ended := by
  show (((State.reserve alloc).run.run (c.state pool) >>= _) >>= _) >>= _ = _
  rw [reserve_run, bind_assoc, bind_assoc, bind_assoc]
  refine congrArg _ (funext fun r => ?_)
  cases r <;> rfl

variable [DecidableEq η]

/-- The step of the pools and the holders that reserves is this code. -/
theorem next_reserve (c : Config w π η) (h : η) (pool : π) (alloc : Bool) :
    next c (.reserve h pool alloc) = requiring (c.holder h = none) >>= fun _ =>
      (reserve pool alloc).run.run c >>= fun r => match r.1 with
        | .ok x => .next (r.2.set h (some x))
        | .error _ => .ended := by
  unfold reserve
  rw [makeIdHolder_run, bind_assoc]
  show (requiring _ >>= fun _ => (c.state pool).reserve alloc >>= _) = _
  refine congrArg _ (funext fun _ => congrArg _ (funext fun r => ?_))
  cases r <;> rfl

/-- What the step's code has to report it reports. -/
def Reported (c : Config w π η) (a : Act w π η) : Prop :=
  ∀ h pool alloc, a = .reserve h pool alloc →
    Reports reserve pool alloc c ∧ Reports strongReserve pool alloc c

/-- The step finds an identifier that is left, if it looks for one. -/
def Finds (c : Config w π η) (a : Act w π η) : Prop :=
  ∀ h pool alloc, a = .reserve h pool alloc → Left pool alloc c

theorem reported_iff {c : Config w π η} {a : Act w π η} : Reported c a ↔ Finds c a := by
  unfold Reported Finds
  simp only [reserve_reports_iff, strongReserve_reports_iff, and_self]

/-- **Exhaustion and a lack of memory are reported to the caller in every state
of a run exactly if the run meets neither.** -/
theorem reported_iff_finds (as : List (Act w π η)) :
    Runs.Meets next Reported init as ↔ Runs.Meets next Finds init as := by
  have he : Reported = (Finds : Config w π η → Act w π η → Prop) :=
    funext fun _ => funext fun _ => propext reported_iff
  rw [he]

theorem card_eq_iff {s : Finset (BitVec w)} : s.card = 2 ^ w ↔ ∀ id, id ∈ s := by
  let _ : Fintype (BitVec w) := Fintype.ofEquiv _ BitVec.equivFin.symm.toEquiv
  have hcard : Fintype.card (BitVec w) = 2 ^ w :=
    (Fintype.card_congr BitVec.equivFin.toEquiv).trans (Fintype.card_fin _)
  rw [← hcard, Finset.card_eq_iff_eq_univ, Finset.eq_univ_iff_forall]

/-- One more holder, for an identifier that is left. -/
theorem next_reserve_free {c : Config w π η} {h : η} {pool : π} (hh : c.holder h = none)
    (hfree : ∃ id, id ∉ (c.state pool).reserved) : ∃ d, next c (.reserve h pool true) = .next d ∧
      (d.state pool).reserved.card = (c.state pool).reserved.card + 1 ∧
      ∀ k, k ≠ h → d.holder k = c.holder k := by
  obtain ⟨r, hr, hfirst⟩ := (search_start_returns (c.state pool).reserved (c.state pool).tryNextId).exists
  cases r with
  | error e =>
    obtain ⟨id, hid⟩ := hfree
    exact absurd (hfirst.2 id) hid
  | ok id =>
    obtain ⟨-, -, -, hnew, -⟩ := hfirst
    let s : State w := ⟨insert id (c.state pool).reserved, id + 1⟩
    refine ⟨Config.set { c with state := Function.update c.state pool s } h (some ⟨id, some pool⟩), ?_, ?_, ?_⟩
    · simp [IdentifierPool.next, hh, requiring_true, IdentifierPool.State.reserve, hr, s]
    · simp [Config.set, s, hnew]
    · exact fun k hk => Function.update_of_ne hk _ _

/-- `k` holders have an identifier each. -/
theorem reserved_reachable {k : Nat} (hk : k ≤ 2 ^ w) :
    ∃ (as : List (Act w Unit Nat)) (c : Config w Unit Nat), Runs.run next init as = .next c ∧
      (c.state ()).reserved.card = k ∧ ∀ h, k ≤ h → c.holder h = none := by
  induction k with
  | zero => exact ⟨[], init, rfl, rfl, fun _ _ => rfl⟩
  | succ k ih =>
    obtain ⟨as, c, hrun, hcard, hholder⟩ := ih (by omega)
    have hfree : ∃ id, id ∉ (c.state ()).reserved := by
      by_contra hnone
      have hfull := card_eq_iff.mpr fun id => not_not.mp fun hid => hnone ⟨id, hid⟩
      omega
    obtain ⟨d, hstep, hd, hsame⟩ := next_reserve_free (hholder k (Nat.le_refl k)) hfree
    refine ⟨as ++ [.reserve k () true], d, ?_, by omega, fun h hh => ?_⟩
    · rw [Runs.run_append, hrun, next_bind]
      exact bind_eq_next.mpr ⟨d, hstep, rfl⟩
    · rw [hsame h (by omega)]
      exact hholder h (by omega)

/-- A pool of bytes, all of which are in use: there is nothing left to reserve,
and the program ends. -/
theorem exhausted_ends : ∃ (as : List (Act 8 Unit Nat)) (c : Config 8 Unit Nat),
    Runs.run next init as = .next c ∧ (∀ id, id ∈ (c.state ()).reserved) ∧
      (reserve () true).run.run c = .ended ∧ ¬Reported c (.reserve 256 () true) := by
  obtain ⟨as, c, hrun, hcard, -⟩ := reserved_reachable (w := 8) (Nat.le_refl _)
  have hall := card_eq_iff.mp hcard
  refine ⟨as, c, hrun, hall, ?_, fun h => ?_⟩
  · obtain ⟨r, hr, hfirst⟩ := (search_start_returns (c.state ()).reserved (c.state ()).tryNextId).exists
    unfold reserve
    rw [makeIdHolder_run, IdentifierPool.State.reserve, hr]
    cases r with
    | error e => rfl
    | ok id =>
      obtain ⟨-, -, -, hnew, -⟩ := hfirst
      exact absurd (hall id) hnew
  · obtain ⟨⟨id, hfree⟩, -⟩ := reported_iff.mp h 256 () true rfl
    exact hfree (hall id)

end IdentifierPoolThrows
