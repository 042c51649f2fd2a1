/-
What holds of shared states and their pointers between the steps.

A promise that is valid is the only one to its state, and so is a future; the
future of an attached continuation points to the state it is attached to, which
keeps that state. `Core` is about the pointers and is kept by each of the
operations on them; `Placed` says which objects may have one.
-/
import CxxHeaders.FutureLifetimes
import CxxHeaders.Ownership

open Outcome

namespace FutureLifetimes

variable {τ ε : Type}

inductive Kind where
  | owner
  | reader
  | temp
  deriving DecidableEq

def Handle.kind : Handle → Kind
  | .state _ => .owner
  | .futureState _ | .future _ => .reader
  | .temp _ => .temp

/-- A value in the state was constructed once, and never destroyed. -/
structure SharedState.Counts (s : SharedState τ ε) : Prop where
  constructed : s.constructed = if s.data.isSome then 1 else 0
  destroyed : s.destroyed = 0
  isSet : s.data.isSome → s.isSet = true

/-- Nobody but `x` has a pointer to the state for what it is there for. -/
structure Core (c : Config τ ε) : Prop where
  counted : Counted c.ptr c.dying c.uses
  fresh : ∀ s, c.made ≤ s → c.uses s = 0
  unique : ∀ x y s, x.kind = y.kind → x.kind ≠ .temp → c.ptr x = some s → c.ptr y = some s → x = y
  unset : ∀ x s, x.kind = .owner → c.ptr x = some s → (c.state s).isSet = false
  attached : ∀ s k, (c.state s).continuation = some k →
    c.ptr (.future (.continuation k)) = some s ∧ (c.state s).isSet = false
  counts : ∀ s, (c.state s).Counts
  kept : ∀ s, s < c.made → (c.state s).data ≠ none → c.uses s ≠ 0

/-- The continuation of no state has this for its future. -/
def Loose (c : Config τ ε) (h : Handle) : Prop :=
  ∀ s k, (c.state s).continuation = some k → h ≠ .future (.continuation k)

variable {c : Config τ ε} {h k : Handle} {s : Nat}

theorem Core.lt_made (hi : Core c) (hp : c.ptr h = some s) : s < c.made := by
  by_contra hs
  exact hi.counted.ne_zero hp (hi.fresh s (Nat.le_of_not_lt hs))

theorem Loose.of_kind (hk : h.kind ≠ .reader) : Loose c h := by
  intro s k _ he
  rw [he] at hk
  exact hk rfl

theorem Handle.ne_of_kind {x y : Handle} (hne : x.kind ≠ y.kind) : x ≠ y := fun he => hne (he ▸ rfl)

/-! ## The operations on pointers -/

/-- A pointer is on its way out, and that is all. -/
theorem drop_eq (c : Config τ ε) (h : Handle) : ∃ dying,
    c.drop h = { c with ptr := Function.update c.ptr h none, dying := dying } := by
  unfold Config.drop
  cases hp : c.ptr h with
  | none =>
    refine ⟨c.dying, ?_⟩
    rw [Function.update_eq_self_iff.mpr hp.symm]
  | some s => exact ⟨_, rfl⟩

theorem ptr_drop (c : Config τ ε) (h : Handle) : (c.drop h).ptr = Function.update c.ptr h none := by
  obtain ⟨dying, heq⟩ := drop_eq c h
  rw [heq]

theorem uses_drop (c : Config τ ε) (h : Handle) : (c.drop h).uses = c.uses := by
  obtain ⟨dying, heq⟩ := drop_eq c h
  rw [heq]

theorem state_drop (c : Config τ ε) (h : Handle) : (c.drop h).state = c.state := by
  obtain ⟨dying, heq⟩ := drop_eq c h
  rw [heq]

theorem stage_drop (c : Config τ ε) (h : Handle) : (c.drop h).stage = c.stage := by
  obtain ⟨dying, heq⟩ := drop_eq c h
  rw [heq]

theorem promise_drop (c : Config τ ε) (h : Handle) : (c.drop h).promise = c.promise := by
  obtain ⟨dying, heq⟩ := drop_eq c h
  rw [heq]

theorem ptr_drop_ne_none {x : Handle} (hx : (c.drop h).ptr x ≠ none) : x ≠ h ∧ c.ptr x ≠ none := by
  rw [ptr_drop] at hx
  have hxh : x ≠ h := by
    intro he
    rw [he, Function.update_self] at hx
    exact hx rfl
  rw [Function.update_of_ne hxh] at hx
  exact ⟨hxh, hx⟩

theorem Loose.drop {x : Handle} (hx : Loose c x) : Loose (c.drop h) x := by
  intro s k hk
  rw [state_drop] at hk
  exact hx s k hk

theorem Core.drop (hi : Core c) (hl : Loose c h) : Core (c.drop h) := by
  unfold Config.drop
  cases hp : c.ptr h with
  | none => exact hi
  | some s =>
    refine { hi with counted := hi.counted.drop hp, unique := ?_, unset := ?_, attached := ?_ }
    · intro x y t hxy hx hpx hpy
      exact hi.unique x y t hxy hx (of_update_none hpx).2 (of_update_none hpy).2
    · intro x t hx hpx
      exact hi.unset x t hx (of_update_none hpx).2
    · intro t k hk
      obtain ⟨hf, hs⟩ := hi.attached t k hk
      exact ⟨(Function.update_of_ne (Ne.symm (hl t k hk)) ..).trans hf, hs⟩

theorem swap_ptr (c : Config τ ε) (h k : Handle) : (c.swap h k).ptr = c.ptr ∘ Equiv.swap k h :=
  (Equiv.comp_swap_eq_update k h c.ptr).symm

theorem ptr_swap_of_ne (c : Config τ ε) {x : Handle} (hh : x ≠ h) (hk : x ≠ k) :
    (c.swap h k).ptr x = c.ptr x :=
  (Function.update_of_ne hk ..).trans (Function.update_of_ne hh ..)

theorem ptr_swap_left (c : Config τ ε) (hne : h ≠ k) : (c.swap h k).ptr h = c.ptr k :=
  (Function.update_of_ne hne ..).trans (Function.update_self ..)

theorem kind_swap (hk : h.kind = k.kind) (x : Handle) : (Equiv.swap k h x).kind = x.kind := by
  rw [Equiv.swap_apply_def]
  split
  · next hx => rw [hx, hk]
  · split
    · next hx => rw [hx, hk]
    · rfl

/-- Pointers of one kind change places. -/
theorem Core.swap (hi : Core c) (hk : h.kind = k.kind) (hl : Loose c h) (hl' : Loose c k) :
    Core (c.swap h k) := by
  refine { hi with counted := hi.counted.swap h k, unique := ?_, unset := ?_, attached := ?_ }
  · intro x y s hxy hx hpx hpy
    rw [swap_ptr] at hpx hpy
    refine (Equiv.swap k h).injective (hi.unique _ _ s ?_ ?_ hpx hpy)
    · rw [kind_swap hk, kind_swap hk, hxy]
    · rw [kind_swap hk]
      exact hx
  · intro x s hx hpx
    rw [swap_ptr] at hpx
    exact hi.unset _ s ((kind_swap hk x).trans hx) hpx
  · intro s j hj
    obtain ⟨hf, hs⟩ := hi.attached s j hj
    refine ⟨?_, hs⟩
    rw [swap_ptr]
    show c.ptr (Equiv.swap k h (.future (.continuation j))) = some s
    rw [Equiv.swap_apply_of_ne_of_ne (Ne.symm (hl' s j hj)) (Ne.symm (hl s j hj))]
    exact hf

theorem ptr_swap_some {x : Handle} (hfree : c.ptr k = none) (hx : x ≠ k)
    (hp : (c.swap h k).ptr x = some s) : x ≠ h ∧ c.ptr x = some s := by
  have hp' : Function.update c.ptr h (c.ptr k) x = some s := (Function.update_of_ne hx ..).symm.trans hp
  rw [hfree] at hp'
  exact of_update_none hp'

/-- A promise's pointer is handed to the temporary that keeps the state. -/
theorem Core.hand (hi : Core c) (hh : h.kind = .owner) (hk : k.kind = .temp) (hfree : c.ptr k = none) :
    Core (c.swap h k) := by
  have hback : ∀ x s, x.kind ≠ .temp → (c.swap h k).ptr x = some s → x ≠ h ∧ c.ptr x = some s := by
    intro x s hx hp
    exact ptr_swap_some hfree (Handle.ne_of_kind (hk ▸ hx)) hp
  refine { hi with counted := hi.counted.swap h k, unique := ?_, unset := ?_, attached := ?_ }
  · intro x y s hxy hx hpx hpy
    exact hi.unique x y s hxy hx (hback x s hx hpx).2 (hback y s (hxy ▸ hx) hpy).2
  · intro x s hx hpx
    exact hi.unset x s hx (hback x s (by rw [hx]; exact nofun) hpx).2
  · intro s j hj
    obtain ⟨hf, hs⟩ := hi.attached s j hj
    refine ⟨?_, hs⟩
    have hxk : Handle.future (.continuation j) ≠ k := Handle.ne_of_kind (hk ▸ nofun)
    have hxh : Handle.future (.continuation j) ≠ h := Handle.ne_of_kind (hh ▸ nofun)
    exact (ptr_swap_of_ne c hxh hxk).trans hf

theorem Core.point (hi : Core c) (hfree : c.ptr h = none) (hs : s < c.made)
    (halone : ∀ x, x.kind = h.kind → c.ptr x ≠ some s) (hset : (c.state s).isSet = false) :
    Core (c.point h s) := by
  refine { hi with counted := hi.counted.copy hfree s, fresh := ?_, unique := ?_, unset := ?_
                   attached := ?_, kept := ?_ }
  · intro t ht
    have hts : t ≠ s := fun he => Nat.not_lt.mpr ht (he ▸ hs)
    exact (Function.update_of_ne hts ..).trans (hi.fresh t ht)
  · intro x y t hxy hx hpx hpy
    rcases of_update_some hpx with ⟨hxh, hts⟩ | ⟨hxh, hpx⟩ <;>
      rcases of_update_some hpy with ⟨hyh, hts'⟩ | ⟨hyh, hpy⟩
    · rw [hxh, hyh]
    · exact absurd (hts ▸ hpy) (halone y (by rw [← hxy, hxh]))
    · exact absurd (hts' ▸ hpx) (halone x (by rw [hxy, hyh]))
    · exact hi.unique x y t hxy hx hpx hpy
  · intro x t hx hpx
    rcases of_update_some hpx with ⟨-, hts⟩ | ⟨-, hpx⟩
    · rw [hts]
      exact hset
    · exact hi.unset x t hx hpx
  · intro t k hk
    obtain ⟨hf, ht⟩ := hi.attached t k hk
    refine ⟨?_, ht⟩
    have hne : Handle.future (.continuation k) ≠ h := by
      intro he
      rw [he, hfree] at hf
      cases hf
    exact (Function.update_of_ne hne ..).trans hf
  · intro t ht hd
    by_cases hts : t = s
    · show Function.update c.uses s (c.uses s + 1) t ≠ 0
      rw [hts, Function.update_self]
      exact Nat.succ_ne_zero _
    · show Function.update c.uses s (c.uses s + 1) t ≠ 0
      rw [Function.update_of_ne hts]
      exact hi.kept t ht hd

/-- A state that no promise points to changes. -/
theorem Core.setState (hi : Core c) {x : SharedState τ ε} (hc : x.Counts)
    (hown : ∀ h, h.kind = .owner → c.ptr h = some s → x.isSet = false)
    (ha : ∀ k, x.continuation = some k → c.ptr (.future (.continuation k)) = some s ∧ x.isSet = false)
    (hk : x.data ≠ none → c.uses s ≠ 0) : Core (c.setState s x) := by
  have hother : ∀ t, t ≠ s → (c.setState s x).state t = c.state t := fun t ht => Function.update_of_ne ht ..
  have hself : (c.setState s x).state s = x := Function.update_self ..
  refine { hi with unset := ?_, attached := ?_, counts := ?_, kept := ?_ }
  · intro h t hh hp
    by_cases hts : t = s
    · rw [hts, hself]
      exact hown h hh (hts ▸ hp)
    · rw [hother t hts]
      exact hi.unset h t hh hp
  · intro t k htk
    by_cases hts : t = s
    · rw [hts, hself] at htk ⊢
      exact ha k htk
    · rw [hother t hts] at htk ⊢
      exact hi.attached t k htk
  · intro t
    by_cases hts : t = s
    · rw [hts, hself]
      exact hc
    · rw [hother t hts]
      exact hi.counts t
  · intro t ht hd
    by_cases hts : t = s
    · rw [hts, hself] at hd
      rw [hts]
      exact hk hd
    · rw [hother t hts] at hd
      exact hi.kept t ht hd

theorem Counts.new (void : Bool) : (SharedState.new void : SharedState τ ε).Counts := ⟨rfl, rfl, nofun⟩

/-- A new state, and the two pointers of its promise. -/
theorem Core.newPromise (hi : Core c) {l : Place} (hl : c.ptr (.state l) = none) (hh : h.kind = .reader)
    (hfree : c.ptr h = none) (void : Bool) : Core (c.newPromise l h void) := by
  have hnobody : ∀ x, c.ptr x ≠ some c.made := fun x hx => Nat.lt_irrefl _ (hi.lt_made hx)
  have hset : Core (c.setState c.made (.new void)) :=
    hi.setState (Counts.new void) (fun x _ hx => absurd hx (hnobody x)) nofun fun hd => absurd rfl hd
  have hself : (c.setState c.made (.new void)).state c.made = .new void := Function.update_self ..
  have hmake : Core { c.setState c.made (.new void) with made := c.made + 1 } := by
    refine { hset with fresh := fun s hs => hi.fresh s (Nat.le_of_succ_le hs), kept := fun s hs hd => ?_ }
    rcases Nat.lt_succ_iff_lt_or_eq.mp hs with hs | rfl
    · exact hset.kept s hs hd
    · exact absurd (congrArg (fun x => x.data) hself) hd
  have hunset : ((c.setState c.made (.new void)).state c.made).isSet = false := by
    rw [hself]
    rfl
  have hkeep : ∀ x : Handle, x.kind = .reader →
      Function.update c.ptr (.state l) (some c.made) x = c.ptr x := fun x hx =>
    Function.update_of_ne (Handle.ne_of_kind (hx ▸ nofun)) ..
  refine (hmake.point hl (Nat.lt_succ_self _) (fun x _ => hnobody x) hunset).point ?_
    (Nat.lt_succ_self _) ?_ hunset
  · exact (hkeep h hh).trans hfree
  · intro x hx hp
    exact hnobody x ((hkeep x (hx.trans hh)).symm.trans hp)

/-- A pointer is released. -/
theorem Core.release (hi : Core c) (hs : s ∈ c.dying) (hl : c.uses s = 1 → (c.state s).data = none) :
    Core { c with dying := c.dying.erase s, uses := Function.update c.uses s (c.uses s - 1) } := by
  refine { hi with counted := hi.counted.release hs, fresh := fun t ht => ?_, kept := fun t ht hd => ?_ }
  · have hf := hi.fresh t ht
    by_cases hts : t = s
    · subst hts
      show Function.update c.uses t (c.uses t - 1) t = 0
      rw [Function.update_self, hf]
    · exact (Function.update_of_ne hts ..).trans hf
  · show Function.update c.uses s (c.uses s - 1) t ≠ 0
    by_cases hts : t = s
    · subst hts
      have hone : c.uses t ≠ 1 := fun he => hd (hl he)
      have hpos : c.uses t ≠ 0 := fun he => ((hi.counted.zero_iff t).mp he).2 hs
      rw [Function.update_self]
      omega
    · rw [Function.update_of_ne hts]
      exact hi.kept t ht hd

/-! ## Setting a state -/

/-- What is left of a state that is set. -/
structure SharedState.SetTo (s : SharedState τ ε) (run : Option Nat) (t : SharedState τ ε) : Prop where
  run : run = s.continuation
  counts : t.Counts
  isSet : t.isSet = true
  continuation : t.continuation = none

theorem SharedState.set_ok {s : SharedState τ ε} (hc : s.Counts) (hs : s.isSet = false) (x : Setting τ ε) :
    (s.set x).Ok fun r => s.SetTo r.1 r.2 := by
  have hdata : s.data = none := by
    cases hd : s.data with
    | none => rfl
    | some v =>
      rw [hc.isSet (by rw [hd]; rfl)] at hs
      cases hs
  have hconstructed : s.constructed = 0 := by rw [hc.constructed, hdata]; rfl
  cases x with
  | value v =>
    cases v with
    | none =>
      cases hv : s.void <;> simp [set, emplaceValue, FutureThen.SharedState.emplaceValue,
        Future.SharedState.emplaceValue, requiring, asserting, hv, hs]
    | some v =>
      simp only [set, emplaceValue, ok_bind, ok_requiring]
      intro _
      have hthen : s.toThenState.emplaceValue (some v) = .next
          (s.continuation, ⟨{ s.toSharedState with data := some v, isSet := true }, none⟩) := by
        simp [FutureThen.SharedState.emplaceValue, Future.SharedState.emplaceValue, asserting, hs]
      rw [hthen]
      refine ⟨rfl, ⟨?_, hc.destroyed, fun _ => rfl⟩, rfl, rfl⟩
      simp [hconstructed]
  | ready =>
    simp only [set, setReady, FutureThen.SharedState.setReady, ok_bind, ok_requiring, ok_asserting]
    intro _
    exact ⟨by simp [hs], rfl, ⟨hc.constructed, hc.destroyed, fun _ => rfl⟩, rfl, rfl⟩
  | exception e =>
    simp only [set, setException, ok_bind, ok_asserting]
    exact ⟨by simp [hs], rfl, ⟨hc.constructed, hc.destroyed, fun _ => rfl⟩, rfl, rfl⟩

theorem setState_drop (c : Config τ ε) (h : Handle) (s : Nat) (x : SharedState τ ε) :
    (c.setState s x).drop h = (c.drop h).setState s x := by
  unfold Config.drop Config.setState
  cases hp : c.ptr h <;> rfl

/-- What setting a promise leaves: the pointer is on its way out, or keeps the
state while a continuation runs. -/
inductive Settled (c : Config τ ε) (l : Place) (s : Nat) : Config τ ε → Prop
  | quiet (t : SharedState τ ε) : t.continuation = none → (c.state s).continuation = none →
      Settled c l s ((c.drop (.state l)).setState s t)
  | runs (t : SharedState τ ε) (k : Nat) : t.continuation = none → (c.state s).continuation = some k →
      Settled c l s { (c.swap (.state l) (.temp k)).setState s t with
        stage := Function.update c.stage k .running }

theorem Core.settle (hi : Core c) {l : Place} (hp : c.ptr (.state l) = some s)
    (htemp : ∀ k, (c.state s).continuation = some k → c.ptr (.temp k) = none) (x : Setting τ ε) :
    (c.settle l x).Ok fun d => Core d ∧ Settled c l s d := by
  have hunset := hi.unset (.state l) s rfl hp
  have hlast : ∀ h, h.kind = .owner → c.ptr h = some s → h = .state l := fun h hh hph =>
    hi.unique h (.state l) s hh (by rw [hh]; exact nofun) hph hp
  simp only [Config.settle, hp, ok_bind]
  refine (SharedState.set_ok (hi.counts s) hunset x).mono fun r hr => ?_
  obtain ⟨run, t⟩ := r
  obtain ⟨hrun, hcounts, -, hcont⟩ := hr
  dsimp only at hrun hcounts hcont ⊢
  subst hrun
  have hnone : ∀ {P : Nat → Prop} k, t.continuation = some k → P k := fun k hk => by
    rw [hcont] at hk
    cases hk
  cases hk : (c.state s).continuation with
  | none =>
    show Core ((c.setState s t).drop (.state l)) ∧ Settled c l s ((c.setState s t).drop (.state l))
    rw [setState_drop]
    refine ⟨(hi.drop (.of_kind fun he => by cases he)).setState hcounts ?_ hnone ?_, .quiet t hcont hk⟩
    · intro h hh hph
      rw [ptr_drop] at hph
      obtain ⟨hne, hph⟩ := of_update_none hph
      exact absurd (hlast h hh hph) hne
    · intro _
      rw [uses_drop]
      exact hi.counted.ne_zero hp
  | some k =>
    have hfree := htemp k hk
    have hcore := hi.hand (h := .state l) (k := .temp k) rfl rfl hfree
    refine ⟨?_, .runs t k hcont hk⟩
    have hset : Core ((c.swap (.state l) (.temp k)).setState s t) := by
      refine hcore.setState hcounts ?_ hnone fun _ => hi.counted.ne_zero hp
      intro h hh hph
      obtain ⟨hne, hph⟩ := ptr_swap_some hfree (Handle.ne_of_kind (hh ▸ nofun)) hph
      exact absurd (hlast h hh hph) hne
    exact { hset with }

/-! ## Which objects have pointers -/

/-- An object that may have a pointer. -/
def Config.May (c : Config τ ε) : Handle → Prop
  | .state (.named p) | .futureState p => c.promise p = true
  | .future (.named f) => c.future f = true
  | .state (.continuation k) | .future (.continuation k) => c.stage k ≠ .absent
  | .temp k => c.stage k = .running ∨ c.stage k = .finished

/-- The continuation still has to set its promise. -/
def Config.Pending (c : Config τ ε) (k : Nat) : Prop := c.stage k = .attached ∨ c.stage k = .running

structure Placed (c : Config τ ε) : Prop where
  may : ∀ h, c.ptr h ≠ none → c.May h
  promised : ∀ k, c.Pending k → c.ptr (.state (.continuation k)) ≠ none
  stage : ∀ s k, (c.state s).continuation = some k → c.stage k = .attached

structure Inv (c : Config τ ε) : Prop extends Core c, Placed c

/-- It is not the pointer with which a continuation is going to set its promise. -/
def Handle.Free : Handle → Prop
  | .state (.continuation _) => False
  | _ => True

theorem may_drop {x : Handle} : (c.drop h).May x ↔ c.May x := by
  obtain ⟨dying, heq⟩ := drop_eq c h
  rw [heq]
  rfl

/-- Objects that there are are still there. -/
theorem Config.May.mono {d : Config τ ε} {x : Handle} (hx : c.May x)
    (hp : ∀ p, c.promise p = true → d.promise p = true) (hf : ∀ f, c.future f = true → d.future f = true)
    (hs : ∀ k, c.stage k ≠ .absent → d.stage k ≠ .absent)
    (ht : ∀ k, c.stage k = .running ∨ c.stage k = .finished → d.stage k = .running ∨ d.stage k = .finished) :
    d.May x := by
  match x with
  | .state (.named p) => exact hp p hx
  | .futureState p => exact hp p hx
  | .future (.named f) => exact hf f hx
  | .state (.continuation k) => exact hs k hx
  | .future (.continuation k) => exact hs k hx
  | .temp k => exact ht k hx

theorem pending_congr {d : Config τ ε} {j : Nat} (hs : d.stage j = c.stage j) : d.Pending j ↔ c.Pending j := by
  unfold Config.Pending
  rw [hs]

theorem pending_drop {j : Nat} : (c.drop h).Pending j ↔ c.Pending j :=
  pending_congr (congrFun (stage_drop c h) j)

theorem not_pending {j : Nat} {x : Stage} (hs : c.stage j = x) (hx : x ≠ .attached ∧ x ≠ .running) :
    ¬c.Pending j := by
  unfold Config.Pending
  rw [hs]
  exact not_or.mpr hx

theorem Inv.ptr_none (hi : Inv c) (hm : ¬c.May h) : c.ptr h = none := by
  by_contra hp
  exact hm (hi.may h hp)

theorem Inv.loose (hi : Inv c) {l : Place} (hl : ∀ k, l = .continuation k → c.stage k ≠ .attached) :
    Loose c (.future l) := by
  intro s k hk he
  injection he with he
  exact hl k he (hi.stage s k hk)

theorem Inv.loose_hasFuture (hi : Inv c) {l : Place} (hl : c.hasFuture l = true) : Loose c (.future l) := by
  refine hi.loose fun k hk hs => ?_
  rw [hk] at hl
  simp [Config.hasFuture, hs] at hl

theorem may_hasFuture {l : Place} (hl : c.hasFuture l = true) : c.May (.future l) := by
  cases l with
  | named f => exact hl
  | continuation k =>
    have hs : c.stage k = .running := by simpa [Config.hasFuture] using hl
    show c.stage k ≠ .absent
    rw [hs]
    exact nofun

theorem Inv.drop (hi : Inv c) (hl : Loose c h) (hf : h.Free) : Inv (c.drop h) := by
  refine { hi.toCore.drop hl with may := fun x hx => ?_, promised := fun k hk => ?_, stage := fun s k hk => ?_ }
  · exact may_drop.mpr (hi.may x (ptr_drop_ne_none hx).2)
  · have hne : Handle.state (.continuation k) ≠ h := by
      intro he
      rw [← he] at hf
      exact hf
    rw [ptr_drop, Function.update_of_ne hne]
    exact hi.promised k (pending_drop.mp hk)
  · rw [state_drop] at hk
    rw [stage_drop]
    exact hi.stage s k hk

theorem Inv.swap (hi : Inv c) (hk : h.kind = k.kind) (hl : Loose c h) (hl' : Loose c k) (hf : h.Free)
    (hf' : k.Free) (hm : c.May h) (hm' : c.May k) : Inv (c.swap h k) := by
  refine { hi.toCore.swap hk hl hl' with may := fun x hx => ?_, promised := fun j hj => ?_, stage := hi.stage }
  · by_cases hxh : x = h
    · exact hxh ▸ hm
    · by_cases hxk : x = k
      · exact hxk ▸ hm'
      · rw [ptr_swap_of_ne c hxh hxk] at hx
        exact hi.may x hx
  · have hne : ∀ y : Handle, y.Free → Handle.state (.continuation j) ≠ y := by
      intro y hy he
      rw [← he] at hy
      exact hy
    rw [ptr_swap_of_ne c (hne h hf) (hne k hf')]
    exact hi.promised j hj

theorem Inv.assign (hi : Inv c) (hk : h.kind = k.kind) (hl : Loose c h) (hl' : Loose c k) (hf : h.Free)
    (hf' : k.Free) (hm : c.May h) (hm' : c.May k) : Inv (c.assign h k) := by
  unfold Config.assign
  split
  · exact hi
  · exact (hi.drop hl hf).swap hk hl.drop hl'.drop hf hf' (may_drop.mpr hm) (may_drop.mpr hm')

/-! ## Objects come and go -/

theorem Inv.addPromise (hi : Inv c) (p : Nat) : Inv { c with promise := Function.update c.promise p true } := by
  refine { hi with may := fun x hx => ?_ }
  refine (hi.may x hx).mono (fun q hq => ?_) (fun _ hf => hf) (fun _ hs => hs) fun _ ht => ht
  show Function.update c.promise p true q = true
  by_cases hqp : q = p
  · rw [hqp, Function.update_self]
  · rw [Function.update_of_ne hqp, hq]

theorem Inv.addFuture (hi : Inv c) (f : Nat) : Inv { c with future := Function.update c.future f true } := by
  refine { hi with may := fun x hx => ?_ }
  refine (hi.may x hx).mono (fun _ hp => hp) (fun g hg => ?_) (fun _ hs => hs) fun _ ht => ht
  show Function.update c.future f true g = true
  by_cases hgf : g = f
  · rw [hgf, Function.update_self]
  · rw [Function.update_of_ne hgf, hg]

theorem Inv.removePromise (hi : Inv c) {p : Nat} (hs : c.ptr (.state (.named p)) = none)
    (hf : c.ptr (.futureState p) = none) : Inv { c with promise := Function.update c.promise p false } := by
  refine { hi with may := fun x hx => ?_ }
  have hm := hi.may x hx
  match x with
  | .state (.named q) =>
    have hqp : q ≠ p := fun he => hx (he ▸ hs)
    exact (Function.update_of_ne hqp ..).trans hm
  | .futureState q =>
    have hqp : q ≠ p := fun he => hx (he ▸ hf)
    exact (Function.update_of_ne hqp ..).trans hm
  | .state (.continuation _) | .future (.named _) | .future (.continuation _) | .temp _ => exact hm

theorem Inv.removeFuture (hi : Inv c) {f : Nat} (hf : c.ptr (.future (.named f)) = none) :
    Inv { c with future := Function.update c.future f false } := by
  refine { hi with may := fun x hx => ?_ }
  have hm := hi.may x hx
  match x with
  | .future (.named g) =>
    have hgf : g ≠ f := fun he => hx (he ▸ hf)
    exact (Function.update_of_ne hgf ..).trans hm
  | .state (.named _) | .state (.continuation _) | .futureState _ | .future (.continuation _) | .temp _ =>
    exact hm

theorem Inv.removeContinuation (hi : Inv c) {k : Nat} (hk : ¬c.Pending k)
    (hs : c.ptr (.state (.continuation k)) = none) (hf : c.ptr (.future (.continuation k)) = none)
    (ht : c.ptr (.temp k) = none) : Inv { c with stage := Function.update c.stage k .absent } := by
  have hself : Function.update c.stage k .absent k = .absent := Function.update_self ..
  have hother : ∀ j, j ≠ k → Function.update c.stage k .absent j = c.stage j := fun j hj =>
    Function.update_of_ne hj ..
  refine { hi with may := fun x hx => ?_, promised := fun j hj => ?_, stage := fun s j hj => ?_ }
  · have hm := hi.may x hx
    match x with
    | .state (.named _) | .futureState _ | .future (.named _) => exact hm
    | .state (.continuation j) =>
      have hjk : j ≠ k := fun he => hx (he ▸ hs)
      show Function.update c.stage k .absent j ≠ .absent
      rw [hother j hjk]
      exact hm
    | .future (.continuation j) =>
      have hjk : j ≠ k := fun he => hx (he ▸ hf)
      show Function.update c.stage k .absent j ≠ .absent
      rw [hother j hjk]
      exact hm
    | .temp j =>
      have hjk : j ≠ k := fun he => hx (he ▸ ht)
      show Function.update c.stage k .absent j = .running ∨ Function.update c.stage k .absent j = .finished
      rw [hother j hjk]
      exact hm
  · have hjk : j ≠ k := by
      intro he
      rw [he] at hj
      exact absurd hj (not_pending (x := .absent) hself ⟨nofun, nofun⟩)
    exact hi.promised j ((pending_congr (hother j hjk)).mp hj)
  · have hst := hi.stage s j hj
    have hjk : j ≠ k := fun he => hk (.inl (he ▸ hst))
    exact (hother j hjk).trans hst

/-! ## A promise is set -/

theorem Settled.stage_of {l : Place} {d : Config τ ε} (hd : Settled c l s d) (hi : Inv c) {j : Nat}
    (hj : c.stage j ≠ .attached) : d.stage j = c.stage j := by
  cases hd with
  | quiet t _ _ =>
    show (c.drop (.state l)).stage j = c.stage j
    rw [stage_drop]
  | runs t k _ hk =>
    have hjk : j ≠ k := by
      intro he
      rw [he] at hj
      exact hj (hi.stage s k hk)
    exact Function.update_of_ne hjk ..

theorem Settled.future {l : Place} {d : Config τ ε} (hd : Settled c l s d) (l' : Place) :
    d.ptr (.future l') = c.ptr (.future l') := by
  cases hd with
  | quiet t _ _ =>
    show (c.drop (.state l)).ptr (.future l') = _
    have hne : Handle.future l' ≠ .state l := nofun
    rw [ptr_drop, Function.update_of_ne hne]
  | runs t k _ _ =>
    have hne : Handle.future l' ≠ .state l := nofun
    have hnt : Handle.future l' ≠ .temp k := nofun
    exact ptr_swap_of_ne c hne hnt

theorem Settled.promise {l : Place} {d : Config τ ε} (hd : Settled c l s d) : d.promise = c.promise := by
  cases hd with
  | quiet t _ _ =>
    show (c.drop (.state l)).promise = _
    exact promise_drop ..
  | runs t k _ _ => rfl

theorem Inv.temp_none (hi : Inv c) {k : Nat} (hk : (c.state s).continuation = some k) :
    c.ptr (.temp k) = none := by
  refine hi.ptr_none (h := .temp k) ?_
  simp [Config.May, hi.stage s k hk]

theorem Settled.ptr_none {l : Place} {d : Config τ ε} (hd : Settled c l s d) (hi : Inv c) :
    d.ptr (.state l) = none := by
  cases hd with
  | quiet t _ _ =>
    show (c.drop (.state l)).ptr (.state l) = none
    rw [ptr_drop, Function.update_self]
  | runs t k _ hk =>
    have hne : Handle.state l ≠ .temp k := nofun
    exact (ptr_swap_left c hne).trans (hi.temp_none hk)

/-- A promise is set which no continuation still has to set. -/
theorem Inv.settled (hi : Inv c) {l : Place} (hl : ∀ k, l = .continuation k → ¬c.Pending k) {d : Config τ ε}
    (hcore : Core d) (hd : Settled c l s d) : Inv d := by
  have hne : ∀ k, c.Pending k → Handle.state (.continuation k) ≠ .state l := by
    intro k hk he
    injection he with he
    exact hl k he.symm hk
  cases hd with
  | quiet t ht hk =>
    have hset : ∀ r j, (Function.update (c.drop (.state l)).state s t r).continuation = some j →
        (c.state r).continuation = some j := by
      intro r j hr
      by_cases hrs : r = s
      · rw [hrs, Function.update_self, ht] at hr
        cases hr
      · rw [Function.update_of_ne hrs, state_drop] at hr
        exact hr
    refine { hcore with may := fun y hy => ?_, promised := fun k hk => ?_, stage := fun r j hr => ?_ }
    · have hmay : (c.drop (.state l)).May y := may_drop.mpr (hi.may y (ptr_drop_ne_none hy).2)
      exact hmay
    · have hpend : c.Pending k := pending_drop.mp hk
      show (c.drop (.state l)).ptr (.state (.continuation k)) ≠ none
      rw [ptr_drop, Function.update_of_ne (hne k hpend)]
      exact hi.promised k hpend
    · show (c.drop (.state l)).stage j = .attached
      rw [stage_drop]
      exact hi.stage r j (hset r j hr)
  | runs t k ht hk =>
    have hattached := hi.stage s k hk
    have hlk : Handle.state l ≠ .temp k := nofun
    have hkeep : ∀ y : Handle, y ≠ .state l → y ≠ .temp k → (c.swap (.state l) (.temp k)).ptr y = c.ptr y :=
      fun y hyl hyk => ptr_swap_of_ne c hyl hyk
    refine { hcore with may := fun y hy => ?_, promised := fun j hj => ?_, stage := fun r j hr => ?_ }
    · by_cases hyk : y = .temp k
      · rw [hyk]
        exact .inl (Function.update_self ..)
      · have hyl : y ≠ .state l := by
          intro he
          rw [he] at hy
          exact hy ((ptr_swap_left c hlk).trans (hi.temp_none hk))
        refine (hi.may y (hkeep y hyl hyk ▸ hy)).mono (fun _ hp => hp) (fun _ hf => hf) (fun j hj => ?_)
          fun j hj => ?_
        · show Function.update c.stage k .running j ≠ .absent
          by_cases hjk : j = k
          · rw [hjk, Function.update_self]
            exact nofun
          · rwa [Function.update_of_ne hjk]
        · show Function.update c.stage k .running j = .running ∨ Function.update c.stage k .running j = .finished
          by_cases hjk : j = k
          · rw [hjk, Function.update_self]
            exact .inl rfl
          · rwa [Function.update_of_ne hjk]
    · have hpend : c.Pending j := by
        by_cases hjk : j = k
        · rw [hjk]
          exact .inl hattached
        · exact (pending_congr (Function.update_of_ne hjk ..)).mp hj
      show (c.swap (.state l) (.temp k)).ptr (.state (.continuation j)) ≠ none
      rw [hkeep _ (hne j hpend) nofun]
      exact hi.promised j hpend
    · have hr' : (Function.update c.state s t r).continuation = some j := hr
      have hrs : r ≠ s := by
        intro he
        rw [he, Function.update_self, ht] at hr'
        cases hr'
      rw [Function.update_of_ne hrs] at hr'
      have hjk : j ≠ k := by
        intro he
        have hfr := (hi.attached r j hr').1
        have hfs := (hi.attached s k hk).1
        rw [he, hfs] at hfr
        exact hrs (Option.some.inj hfr).symm
      exact (Function.update_of_ne hjk ..).trans (hi.stage r j hr')

theorem Inv.settle (hi : Inv c) {l : Place} (hp : c.ptr (.state l) = some s)
    (hl : ∀ k, l = .continuation k → ¬c.Pending k) (x : Setting τ ε) :
    (c.settle l x).Ok fun d => Inv d ∧ Settled c l s d :=
  (hi.toCore.settle hp (fun _ => hi.temp_none) x).mono fun _ ⟨hcore, hd⟩ => ⟨hi.settled hl hcore hd, hd⟩

end FutureLifetimes
