/-
What becomes of an exception that a constructor of `T` throws. One that
`takeValue` meets is stored by the continuation that runs; but a value is
constructed in a shared state by a lambda that is `noexcept`, whatever the
functions around it are, and there the program ends (`handled_iff`).
-/
import CxxHeaders.FutureThrows

open Outcome Throwing

namespace FutureThrows

open Future (Exception SharedState)
open FutureThen (Result)

variable {τ ε : Type}

/-! ## What is set -/

/-- A state that was set. -/
def settled : Result τ ε → SharedState τ ε
  | .value v => ⟨true, none, some v⟩
  | .ready => ⟨true, none, none⟩
  | .exception e => ⟨true, some e, none⟩

/-- How often `T` is constructed in the state. -/
def cost : Result τ ε → Nat
  | .value _ => 1
  | _ => 0

/-- The promise at `i` is used up. -/
def given (c : Config τ ε) (i : Nat) (r : Result τ ε) : Config τ ε :=
  { (c.giveUp i).setState i (settled r) with calls := c.calls + cost r }

variable (throws : Nat → Option (Exception ε))

/-- What the promise of a continuation is set to, and how often `T` was constructed before. -/
def outcome : Return τ ε → Nat → Result τ ε × Nat
  | .value v, n => (.value v, n)
  | .void, n => (.ready, n)
  | .throws e, n => (.exception e, n)
  | .future s, n =>
    match s.exception, s.data with
    | some e, _ => (.exception e, n)
    | none, some v =>
      match throws n with
      | some e => (.exception e, n + 1)
      | none => (.value v, n + 1)
    | none, none => (.ready, n)
  | .invalidFuture, n => (.exception .brokenPromise, n)

/-- A value that is set is constructed without an exception. -/
def Constructs (n : Nat) : Result τ ε → Prop
  | .value _ => throws n = none
  | _ => True

/-- So are all that are set in turn; `T` was constructed `n` times before. -/
def Quiet : List (Function τ ε) → Nat → Result τ ε → Prop
  | [], n, r => Constructs throws n r
  | f :: rest, n, r =>
    let o := outcome throws (f (settled r)) (n + cost r)
    Constructs throws n r ∧ Quiet rest o.2 o.1

/-- All promises from `i` on are used up. -/
def after : List (Function τ ε) → Nat → Result τ ε → Config τ ε → Config τ ε
  | [], i, r, c => given c i r
  | f :: rest, i, r, c =>
    let o := outcome throws (f (settled r)) (c.calls + cost r)
    after rest (i + 1) o.1 { given c i r with calls := o.2 }

variable {throws} {c : Config τ ε} {i : Nat} {Q : Unit → Config τ ε → Prop}
  {E : Exception ε → Config τ ε → Prop}

/-- From `i` on no promise was used. -/
def Fresh (c : Config τ ε) (i : Nat) : Prop := ∀ j, i ≤ j → c.promise j = true ∧ c.state j = .new

theorem Fresh.given (h : Fresh c i) (r : Result τ ε) : Fresh (given c i r) (i + 1) := by
  intro j hj
  have hne : j ≠ i := by omega
  obtain ⟨hpromise, hstate⟩ := h j (by omega)
  exact ⟨(Function.update_of_ne hne _ _).trans hpromise, (Function.update_of_ne hne _ _).trans hstate⟩

/-! ## How the code ends -/

theorem ends_construct : Ends (construct throws) c Q E ↔
    match throws c.calls with
    | some e => E e { c with calls := c.calls + 1 }
    | none => Q () { c with calls := c.calls + 1 } := by
  unfold construct
  simp only [ends_bind, ends_get, ends_set]
  cases throws c.calls <;> rfl

theorem ends_moveAndSet (h : Fresh c i) (r : Result τ ε) :
    Ends (moveAndSet throws i r) c Q E ↔ Constructs throws c.calls r ∧ Q () (given c i r) := by
  obtain ⟨hpromise, hstate⟩ := h i (Nat.le_refl i)
  have hgiveUp : (c.giveUp i).state i = .new := hstate
  unfold moveAndSet setResult
  simp only [ends_bind, ends_get, ends_asserting, ends_modify, ends_noexcept, hpromise, true_and, hgiveUp]
  cases r with
  | value v =>
    simp only [ends_bind, ends_construct, ends_modify, Constructs]
    have hcalls : (c.giveUp i).calls = c.calls := rfl
    rw [hcalls]
    cases throws c.calls with
    | some e => exact ⟨fun h => h.2.elim, fun h => by cases h.1⟩
    | none =>
      rw [hgiveUp]
      exact ⟨fun h => ⟨rfl, h.2⟩, fun h => ⟨Bool.false_ne_true, h.2⟩⟩
  | ready =>
    simp only [ends_modify, hgiveUp]
    exact ⟨fun h => ⟨trivial, h.2⟩, fun h => ⟨Bool.false_ne_true, h.2⟩⟩
  | exception e =>
    simp only [ends_modify, hgiveUp]
    exact ⟨fun h => ⟨trivial, h.2⟩, fun h => ⟨Bool.false_ne_true, h.2⟩⟩

/-- A continuation sets its promise to the outcome of its function, whatever throws. -/
theorem ends_run {fulfil : Result τ ε → Code τ ε Unit} {I : Config τ ε → Prop}
    {P : Result τ ε → Config τ ε → Prop} {g : Result τ ε → Config τ ε → Config τ ε}
    (hI : ∀ c n, I c → I { c with calls := n })
    (h : ∀ r c, I c → ∀ Q E, Ends (fulfil r) c Q E ↔ P r c ∧ Q () (g r c)) (hc : I c)
    (r : Return τ ε) : Ends (run throws fulfil r) c Q E ↔
      let o := outcome throws r c.calls
      P o.1 { c with calls := o.2 } ∧ Q () (g o.1 { c with calls := o.2 }) := by
  unfold run
  simp only [ends_noexcept, ends_tryCatch]
  cases r with
  | value v => exact h _ _ hc _ _
  | void => exact h _ _ hc _ _
  | throws e =>
    simp only [ends_throw]
    exact h _ _ hc _ _
  | invalidFuture => exact h _ _ hc _ _
  | future s =>
    obtain ⟨isSet, exception, data⟩ := s
    simp only [takeValue, outcome]
    cases exception with
    | some e =>
      simp only [ends_bind, ends_throw]
      exact h _ _ hc _ _
    | none =>
      cases data with
      | none => exact h _ _ hc _ _
      | some v =>
        simp only [ends_bind, ends_construct]
        cases throws c.calls with
        | some e => exact h _ _ (hI c _ hc) _ _
        | none =>
          simp only [ends_pure]
          exact h _ _ (hI c _ hc) _ _

/-- Of the `n` promises from `i` on all were used, and of the others none. -/
structure Uses (c t : Config τ ε) (i n : Nat) : Prop where
  used : ∀ j, i ≤ j → j < i + n → t.promise j = false ∧ (t.state j).isSet
  others : ∀ j, j < i ∨ i + n ≤ j → t.promise j = c.promise j ∧ t.state j = c.state j
  continuations : t.continuations = c.continuations

theorem isSet_settled (r : Result τ ε) : (settled r).isSet = true := by
  cases r <;> rfl

theorem given_self (c : Config τ ε) (i : Nat) (r : Result τ ε) :
    (given c i r).promise i = false ∧ (given c i r).state i = settled r :=
  ⟨Function.update_self .., Function.update_self ..⟩

theorem given_of_ne {j : Nat} (hj : j ≠ i) (r : Result τ ε) :
    (given c i r).promise j = c.promise j ∧ (given c i r).state j = c.state j :=
  ⟨Function.update_of_ne hj _ _, Function.update_of_ne hj _ _⟩

theorem uses_after (continuations : List (Function τ ε)) (i : Nat) (r : Result τ ε) (c : Config τ ε) :
    Uses c (after throws continuations i r c) i (continuations.length + 1) := by
  induction continuations generalizing i r c with
  | nil =>
    refine ⟨fun j hi hj => ?_, fun j hj => given_of_ne (by simp at hj; omega) r, rfl⟩
    obtain rfl : j = i := by simp at hj; omega
    rw [after, (given_self c j r).2]
    exact ⟨(given_self c j r).1, isSet_settled r⟩
  | cons f rest ih =>
    let o := outcome throws (f (settled r)) (c.calls + cost r)
    have hrest := ih (i + 1) o.1 { given c i r with calls := o.2 }
    refine ⟨fun j hi hj => ?_, fun j hj => ?_, hrest.continuations⟩
    · by_cases hji : j = i
      · subst hji
        obtain ⟨hpromise, hstate⟩ := hrest.others j (.inl (Nat.lt_succ_self j))
        refine ⟨hpromise.trans (given_self c j r).1, ?_⟩
        rw [show (after throws (f :: rest) j r c).state j = settled r from
          hstate.trans (given_self c j r).2]
        exact isSet_settled r
      · exact hrest.used j (by omega) (by simp at hj; omega)
    · simp only [List.length_cons] at hj
      obtain ⟨hpromise, hstate⟩ := hrest.others j (by omega)
      obtain ⟨hpromise', hstate'⟩ := given_of_ne (c := c) (i := i) (j := j) (by omega) r
      exact ⟨hpromise.trans hpromise', hstate.trans hstate'⟩

theorem promise_after (continuations : List (Function τ ε)) (i : Nat) (r : Result τ ε) (c : Config τ ε) :
    (after throws continuations i r c).promise i = false :=
  ((uses_after continuations i r c).used i (Nat.le_refl i) (by omega)).1

/-- A continuation runs, to the promise at `i + 1` and those after it. -/
theorem ends_runContinuation {rest : List (Function τ ε)} {f : Function τ ε} (h : Fresh c (i + 1))
    (hfulfil : ∀ r c, Fresh c (i + 1) → ∀ Q E, Ends (fulfil throws rest (i + 1) r) c Q E ↔
      Quiet throws rest c.calls r ∧ Q () (after throws rest (i + 1) r c)) :
    Ends (runContinuation throws (fulfil throws rest (i + 1)) f i) c Q E ↔
      let o := outcome throws (f (c.state i)) c.calls
      Quiet throws rest o.2 o.1 ∧ Q () (after throws rest (i + 1) o.1 { c with calls := o.2 }) := by
  simp only [runContinuation, ends_bind, ends_get]
  refine (ends_run (I := (Fresh · (i + 1))) (fun _ _ h => h) hfulfil h _).trans ?_
  refine and_congr_right fun _ => ?_
  -- The continuation has used its promise up.
  rw [promise_after, if_neg Bool.false_ne_true, ends_pure]

theorem ends_fulfil (continuations : List (Function τ ε)) (h : Fresh c i) (r : Result τ ε) :
    Ends (fulfil throws continuations i r) c Q E ↔
      Quiet throws continuations c.calls r ∧ Q () (after throws continuations i r c) := by
  induction continuations generalizing c i r Q E with
  | nil => exact ends_moveAndSet h r
  | cons f rest ih =>
    have hstate : (given c i r).state i = settled r := (given_self c i r).2
    simp only [fulfil, ends_bind, ends_moveAndSet h, Quiet, after]
    rw [ends_runContinuation (h.given r) fun r c h Q E => ih h r, hstate, and_assoc]
    rfl

/-! ## Where the exceptions are -/

theorem state_after (continuations : List (Function τ ε)) (i : Nat) (r : Result τ ε) (c : Config τ ε) :
    (after throws continuations i r c).state i = settled r := by
  cases continuations with
  | nil => exact (given_self c i r).2
  | cons f rest =>
    exact ((uses_after rest (i + 1) _ _).others i (.inl (Nat.lt_succ_self i))).2.trans (given_self c i r).2

/-- What `takeValue` throws is the outcome. -/
theorem outcome_of_throws {r : Return τ ε} {k n : Nat} {e : Exception ε} (hk : k ≤ n)
    (hn : n < (outcome throws r k).2) (he : throws n = some e) : (outcome throws r k).1 = .exception e := by
  cases r with
  | future s =>
    obtain ⟨isSet, exception, data⟩ := s
    cases exception with
    | some e' => exact absurd hn (Nat.not_lt.mpr hk)
    | none =>
      cases data with
      | none => exact absurd hn (Nat.not_lt.mpr hk)
      | some v =>
        have hlt : (outcome throws (.future ⟨isSet, none, some v⟩) k).2 = k + 1 := by
          simp only [outcome]
          cases throws k <;> rfl
        obtain rfl : n = k := by omega
        simp [outcome, he]
  | _ => exact absurd hn (Nat.not_lt.mpr hk)

theorem Constructs.not_throws {r : Result τ ε} {k n : Nat} (h : Constructs throws k r) (hk : k ≤ n)
    (hn : n < k + cost r) : throws n = none := by
  cases r with
  | value v =>
    have hn : n < k + 1 := hn
    obtain rfl : n = k := by omega
    exact h
  | _ => exact absurd hn (Nat.not_lt.mpr hk)

/-- Every exception that was thrown is in a state. -/
theorem stored_after (continuations : List (Function τ ε)) {r : Result τ ε}
    (h : Quiet throws continuations c.calls r) {n : Nat} {e : Exception ε} (hc : c.calls ≤ n)
    (hn : n < (after throws continuations i r c).calls) (he : throws n = some e) :
    ∃ j, i < j ∧ j ≤ i + continuations.length ∧
      ((after throws continuations i r c).state j).exception = some e := by
  induction continuations generalizing c i r with
  | nil =>
    have hnone := Constructs.not_throws h hc hn
    rw [he] at hnone
    cases hnone
  | cons f rest ih =>
    obtain ⟨hconstructs, hquiet⟩ := h
    let o := outcome throws (f (settled r)) (c.calls + cost r)
    by_cases hcost : n < c.calls + cost r
    · have hnone := hconstructs.not_throws hc hcost
      rw [he] at hnone
      cases hnone
    by_cases ho : n < o.2
    · have hexception := outcome_of_throws (Nat.not_lt.mp hcost) ho he
      refine ⟨i + 1, Nat.lt_succ_self i, by simp, ?_⟩
      exact congrArg SharedState.exception ((state_after rest (i + 1) _ _).trans (congrArg settled hexception))
    · obtain ⟨j, hj, hlen, hj'⟩ := ih (c := { given c i r with calls := o.2 }) hquiet (Nat.not_lt.mp ho) hn
      exact ⟨j, by omega, by simp; omega, hj'⟩

/-! ## Steps -/

variable (throws)

/-- What the first promise is set to, or what is attached to the last future. -/
def fulfils : Act τ ε → Result τ ε ⊕ Function τ ε
  | .emplaceValue v | .setValue v | .call (some (.ok v)) => .inl (.value v)
  | .setException e | .call (some (.error e)) => .inl (.exception e)
  | .call none => .inl (.exception .badFunctionCall)
  | .abandon => .inl (.exception .brokenPromise)
  | .then f => .inr f

/-- No value that is set throws as it is constructed in the shared state. -/
def InPlace (c : Config τ ε) (a : Act τ ε) : Prop :=
  match fulfils a with
  | .inl r => c.promise 0 → Quiet throws c.continuations c.calls r
  | .inr f =>
    (c.state c.continuations.length).isSet →
      let o := outcome throws (f (c.state c.continuations.length)) c.calls
      Quiet throws [] o.2 o.1

/-- The state that is reached. -/
def reached (c : Config τ ε) (a : Act τ ε) : Config τ ε :=
  match fulfils a with
  | .inl r => after throws c.continuations 0 r c
  | .inr f =>
    let i := c.continuations.length
    let t := { c with continuations := c.continuations ++ [f] }
    if (c.state i).isSet then
      let o := outcome throws (f (c.state i)) c.calls
      after throws [] (i + 1) o.1 { t with calls := o.2 }
    else t

variable {throws}

/-- All promises are valid, or all that there are were used. -/
structure Inv (c : Config τ ε) : Prop where
  fresh : Fresh c (c.continuations.length + 1)
  all : Fresh c 0 ∨ ∀ j, j ≤ c.continuations.length → c.promise j = false ∧ (c.state j).isSet

theorem inv_new : Inv (.new : Config τ ε) := ⟨fun _ _ => ⟨rfl, rfl⟩, .inl fun _ _ => ⟨rfl, rfl⟩⟩

theorem Inv.fresh_of_promise (h : Inv c) (hp : c.promise 0 = true) : Fresh c 0 := by
  rcases h.all with hfresh | hused
  · exact hfresh
  · rw [(hused 0 (Nat.zero_le _)).1] at hp
    cases hp

theorem ends_setException (h : Fresh c 0) (e : Exception ε) : Ends (setException throws e) c Q E ↔
    Quiet throws c.continuations c.calls (.exception e) ∧
      Q () (after throws c.continuations 0 (.exception e) c) := by
  simp only [setException, ends_noexcept, ends_bind, ends_get]
  exact ends_fulfil c.continuations h _

theorem ends_setValue (h : Fresh c 0) (v : τ) : Ends (setValue throws v) c Q E ↔
    Quiet throws c.continuations c.calls (.value v) ∧
      Q () (after throws c.continuations 0 (.value v) c) := by
  simp only [setValue, emplaceValue, ends_bind, ends_get]
  exact ends_fulfil c.continuations h _

/-- A promise is fulfilled. -/
theorem ends_code_of_inl (h : Fresh c 0) {a : Act τ ε} {r : Result τ ε} (hr : fulfils a = .inl r) :
    Ends (code throws a) c Q E ↔
      Quiet throws c.continuations c.calls r ∧ Q () (after throws c.continuations 0 r c) := by
  cases a with
  | emplaceValue v | setValue v =>
    cases hr
    exact ends_setValue h v
  | setException e =>
    cases hr
    exact ends_setException h e
  | abandon =>
    cases hr
    exact ends_setException h .brokenPromise
  | call function =>
    simp only [code, call, ends_noexcept, ends_tryCatch]
    cases function with
    | none =>
      cases hr
      simp only [ends_throw]
      exact ends_setException h .badFunctionCall
    | some result =>
      cases result with
      | error e =>
        cases hr
        simp only [ends_throw]
        exact ends_setException h e
      | ok v =>
        cases hr
        exact ends_setValue h v
  | «then» f => cases hr

/-- A continuation is attached, and runs where the state is set. -/
theorem ends_then (h : Inv c) (f : Function τ ε) :
    Ends («then» throws f) c Q E ↔ InPlace throws c (.then f) ∧ Q () (reached throws c (.then f)) := by
  let i := c.continuations.length
  have hfresh : Fresh { c with continuations := c.continuations ++ [f] } (i + 1) := h.fresh
  simp only [«then», ends_bind, ends_get, ends_set, InPlace, reached, fulfils]
  split
  next hset =>
    rw [ends_noexcept, ends_runContinuation hfresh fun r c h Q E => ends_fulfil [] h r]
    exact and_congr_left fun _ => ⟨fun hq _ => hq, fun hq => hq hset⟩
  next hset =>
    rw [ends_pure]
    exact (and_iff_right fun h => absurd h hset).symm

theorem allowed_of_inl {a : Act τ ε} {r : Result τ ε} (hr : fulfils a = .inl r) :
    allowed c a = c.promise 0 := by
  cases a with
  | «then» f => cases hr
  | _ => rfl

theorem eq_of_inr {a : Act τ ε} {f : Function τ ε} (hr : fulfils a = .inr f) : a = .then f := by
  cases a with
  | «then» g =>
    cases hr
    rfl
  | call function => match function with
    | none | some (.error _) | some (.ok _) => cases hr
  | _ => cases hr

theorem ends_code (h : Inv c) {a : Act τ ε} (ha : allowed c a) :
    Ends (code throws a) c Q E ↔ InPlace throws c a ∧ Q () (reached throws c a) := by
  cases hr : fulfils a with
  | inl r =>
    rw [allowed_of_inl hr] at ha
    simp only [InPlace, reached, hr]
    rw [ends_code_of_inl (h.fresh_of_promise ha) hr]
    exact and_congr_left fun _ => ⟨fun hq _ => hq, fun hq => hq ha⟩
  | inr f =>
    cases eq_of_inr hr
    exact ends_then h f

theorem inPlace_of_not_allowed {a : Act τ ε} (ha : ¬allowed c a) : InPlace throws c a := by
  cases hr : fulfils a with
  | inl r =>
    rw [allowed_of_inl hr] at ha
    simp only [InPlace, hr]
    exact fun h => absurd h ha
  | inr f =>
    cases eq_of_inr hr
    exact absurd rfl ha

/-! ## What is reached -/

theorem ok_next (h : Inv c) {a : Act τ ε} {P : Config τ ε → Prop} :
    (next throws c a).Ok P ↔
      (allowed c a → InPlace throws c a ∧ P { reached throws c a with propagated := none }) := by
  unfold next
  simp only [ok_bind, ok_requiring, ok_mustReturn]
  refine forall_congr' fun ha => ?_
  rw [← ends_code (E := fun e t => P { t with propagated := some e })
    (Q := fun _ t => P { t with propagated := none }) h ha]
  unfold Ends
  cases (code throws a).run.run c with
  | next r =>
    obtain ⟨r, t⟩ := r
    cases r <;> rfl
  | _ => rfl

theorem Fresh.mono (h : Fresh c i) {j : Nat} (hj : i ≤ j) : Fresh c j := fun k hk => h k (Nat.le_trans hj hk)

theorem Fresh.uses {t : Config τ ε} {j n : Nat} (h : Fresh c i) (ht : Uses c t j n) (hi : j + n ≤ i) :
    Fresh t i := by
  intro k hk
  obtain ⟨hpromise, hstate⟩ := ht.others k (.inr (Nat.le_trans hi hk))
  rw [hpromise, hstate]
  exact h k hk

/-- Every exception is in a future, no state is set twice, and one that is not set has a promise. -/
structure Kept (throws : Nat → Option (Exception ε)) (s t : Config τ ε) : Prop where
  stored : ∀ n e, s.calls ≤ n → n < t.calls → throws n = some e →
    ∃ j ≤ t.continuations.length, (t.state j).exception = some e
  once : ∀ j, (s.state j).isSet → t.state j = s.state j
  owned : ∀ j ≤ t.continuations.length, (t.state j).isSet ∨ t.promise j

theorem kept_after (h : Inv c) (hp : c.promise 0) {r : Result τ ε}
    (hq : Quiet throws c.continuations c.calls r) :
    Kept throws c (after throws c.continuations 0 r c) ∧ Inv (after throws c.continuations 0 r c) := by
  have hfresh := h.fresh_of_promise hp
  have huses : Uses c (after throws c.continuations 0 r c) 0 (c.continuations.length + 1) := uses_after ..
  have hlen := congrArg List.length huses.continuations
  have hused : ∀ j, j ≤ c.continuations.length → _ := fun j hj => huses.used j (Nat.zero_le j) (by omega)
  refine ⟨⟨fun n e hn ht he => ?_, fun j hj => ?_, fun j hj => ?_⟩, ⟨?_, .inr fun j hj => ?_⟩⟩
  · obtain ⟨j, -, hj, hexception⟩ := stored_after c.continuations hq hn ht he
    exact ⟨j, by omega, hexception⟩
  · rw [(hfresh j (Nat.zero_le j)).2] at hj
    cases hj
  · exact .inl (hused j (hlen ▸ hj)).2
  · rw [hlen]
    exact h.fresh.uses huses (by omega)
  · exact hused j (hlen ▸ hj)

/-- The state is set, so that the continuation runs at once. -/
theorem kept_run (h : Inv c) {f : Function τ ε} (hset : (c.state c.continuations.length).isSet)
    {o : Result τ ε × Nat} (ho : o = outcome throws (f (c.state c.continuations.length)) c.calls)
    (hq : Quiet throws [] o.2 o.1) {s t : Config τ ε}
    (hs : s = { c with continuations := c.continuations ++ [f], calls := o.2 })
    (ht : t = after throws [] (c.continuations.length + 1) o.1 s) : Kept throws c t ∧ Inv t := by
  have hall := h.all.resolve_left fun hfresh => by
    rw [(hfresh _ (Nat.zero_le _)).2] at hset
    cases hset
  have huses : Uses s t (c.continuations.length + 1) 1 := ht ▸ uses_after [] _ o.1 s
  have hlen : t.continuations.length = c.continuations.length + 1 := by
    rw [huses.continuations, hs, List.length_append, List.length_singleton]
  have hold : ∀ j, j ≤ c.continuations.length → t.promise j = c.promise j ∧ t.state j = c.state j := by
    intro j hj
    subst hs
    exact huses.others j (.inl (Nat.lt_succ_of_le hj))
  have hused : ∀ j, j ≤ t.continuations.length → t.promise j = false ∧ (t.state j).isSet := by
    intro j hj
    by_cases hji : j ≤ c.continuations.length
    · rw [(hold j hji).1, (hold j hji).2]
      exact hall j hji
    · exact huses.used j (by omega) (by omega)
  refine ⟨⟨fun n e hn htn he => ?_, fun j hj => ?_, fun j hj => .inl (hused j hj).2⟩, ⟨?_, .inr hused⟩⟩
  · subst ht
    by_cases hno : n < o.2
    · have hexception : o.1 = .exception e := by
        subst ho
        exact outcome_of_throws hn hno he
      refine ⟨c.continuations.length + 1, Nat.le_of_eq hlen.symm, ?_⟩
      rw [state_after, hexception]
      rfl
    · have hcalls : s.calls = o.2 := congrArg Config.calls hs
      rw [← hcalls] at hq hno
      obtain ⟨j, -, hj, hexception⟩ := stored_after [] hq (Nat.not_lt.mp hno) htn he
      exact ⟨j, by simp at hj; omega, hexception⟩
  · by_cases hji : j ≤ c.continuations.length
    · exact (hold j hji).2
    · rw [(h.fresh j (Nat.lt_of_not_le hji)).2] at hj
      cases hj
  · have hfresh : Fresh s (c.continuations.length + 1 + 1) := by
      subst hs
      exact h.fresh.mono (Nat.le_succ _)
    rw [hlen]
    exact hfresh.uses huses (Nat.le_refl _)

theorem kept_then (h : Inv c) {f : Function τ ε} (hp : InPlace throws c (.then f)) :
    Kept throws c (reached throws c (.then f)) ∧ Inv (reached throws c (.then f)) := by
  simp only [InPlace, reached, fulfils] at hp ⊢
  split
  next hset => exact kept_run h hset rfl (hp hset) rfl rfl
  next hset =>
    have hfresh : Fresh c 0 := h.all.resolve_right fun hused => hset (hused _ (Nat.le_refl _)).2
    refine ⟨⟨fun n e hn ht => absurd ht (Nat.not_lt.mpr hn), fun j _ => rfl, fun j _ => ?_⟩,
      ⟨hfresh.mono (Nat.zero_le _), .inl hfresh⟩⟩
    exact .inr (hfresh j (Nat.zero_le j)).1

theorem kept_reached (h : Inv c) {a : Act τ ε} (ha : allowed c a) (hp : InPlace throws c a) :
    Kept throws c (reached throws c a) ∧ Inv (reached throws c a) := by
  cases hr : fulfils a with
  | inl r =>
    rw [allowed_of_inl hr] at ha
    simp only [InPlace, reached, hr] at hp ⊢
    exact kept_after h ha (hp ha)
  | inr f =>
    cases eq_of_inr hr
    exact kept_then h hp

/-- What is promised of a call: every exception is in a future or left the call, no state is set
twice, and one that is not set has a promise. -/
structure Handled (throws : Nat → Option (Exception ε)) (s : Config τ ε) (_ : Act τ ε)
    (t : Config τ ε) : Prop where
  stored : ∀ n e, s.calls ≤ n → n < t.calls → throws n = some e →
    t.propagated = some e ∨ ∃ j ≤ t.continuations.length, (t.state j).exception = some e
  once : ∀ j, (s.state j).isSet → t.state j = s.state j
  owned : ∀ j ≤ t.continuations.length, (t.state j).isSet ∨ t.promise j

theorem inPlace_of_ok (h : Inv c) {a : Act τ ε} {P : Config τ ε → Prop} (hok : (next throws c a).Ok P) :
    InPlace throws c a := by
  by_cases ha : allowed c a
  · exact ((ok_next h).mp hok ha).1
  · exact inPlace_of_not_allowed ha

theorem next_handled (h : Inv c) {a : Act τ ε} (hp : InPlace throws c a) :
    (next throws c a).Ok fun t => Handled throws c a t ∧ Inv t := by
  rw [ok_next h]
  intro ha
  obtain ⟨⟨hstored, honce, howned⟩, hfresh, hall⟩ := kept_reached h ha hp
  exact ⟨hp, ⟨fun n e hn ht he => .inr (hstored n e hn ht he), honce, howned⟩, hfresh, hall⟩

/-- **Exceptions of constructors are handled**, in every run, if and only if none is thrown
by the construction of a value in a shared state. -/
theorem handled_iff (throws : Nat → Option (Exception ε)) (as : List (Act τ ε)) :
    Runs.Along (next throws) (Handled throws) .new as ↔ Runs.Meets (next throws) (InPlace throws) .new as := by
  refine Runs.along_iff_meets (I := Inv) (D := fun _ _ => True) (fun c a h _ => ?_)
    (fun c a t h _ hn ht => ?_) inv_new (Runs.meets_true as)
  · exact ⟨fun hp => (next_handled h hp).mono fun _ ht => ht.1, inPlace_of_ok h⟩
  · have hok : (next throws c a).Ok (Handled throws c a) := by rw [hn]; exact ht
    exact ((next_handled h (inPlace_of_ok h hok)).of_next hn).2

/-- The constructor throws as the value is set. -/
theorem throwing_constructor_terminates :
    ¬∀ (throws : Nat → Option (Exception Nat)) as,
      Runs.Along (next throws) (Handled throws) (.new : Config Nat Nat) as := by
  intro h
  exact h (fun _ => some (.other 0)) [.setValue 5]

end FutureThrows
