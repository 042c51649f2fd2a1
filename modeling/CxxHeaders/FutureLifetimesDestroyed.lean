/-
A value in a shared state is never destroyed: the state's destructor leaves its
`m_data` as it is. So all that was constructed has been destroyed when the last
pointer goes exactly if the last pointer goes to no state with a value; and raw
storage is read exactly if a future is taken from whose state was set to a null
exception pointer (`destroyed_iff`).
-/
import CxxHeaders.FutureLifetimesInv

open Outcome

namespace FutureLifetimes

variable {τ ε : Type}

/-- What was constructed in a state that nothing points to was destroyed, and
nothing else was. -/
def Destroyed (_ : Config τ ε) (_ : Act τ ε) (d : Config τ ε) : Prop :=
  ∀ s, s < d.made → (d.state s).destroyed ≤ (d.state s).constructed ∧
    ((∀ h, d.ptr h ≠ some s) → s ∉ d.dying → (d.state s).destroyed = (d.state s).constructed)

/-- The state was set to an exception pointer, and that was null. -/
def SharedState.Null (s : SharedState τ ε) : Prop :=
  s.isSet = true ∧ s.exception = none ∧ s.void = false ∧ s.data = none

/-- The last pointer to a state with a value is not released, and no future is
taken from whose state was set to a null exception pointer. -/
def Lasts (c : Config τ ε) : Act τ ε → Prop
  | .release s => s ∈ c.dying → c.uses s = 1 → (c.state s).data = none
  | .takeValue l => c.hasFuture l → ∀ s, c.ptr (.future l) = some s → ¬(c.state s).Null
  | _ => True

variable {c : Config τ ε} {s : Nat}

theorem Core.destroyed (hi : Core c) (c' : Config τ ε) (a : Act τ ε) : Destroyed c' a c := by
  intro s hs
  obtain ⟨hcon, hdes, -⟩ := hi.counts s
  rw [hdes]
  refine ⟨Nat.zero_le _, fun hp hd => ?_⟩
  have hnone : (c.state s).data = none := by
    by_contra hv
    exact hi.kept s hs hv ((hi.counted.zero_iff s).mpr ⟨hp, hd⟩)
  rw [hcon, hnone]
  rfl

/-! ## Promises -/

theorem ptr_newPromise_of_ne {x h : Handle} {l : Place} {void : Bool} (hxh : x ≠ h) (hxl : x ≠ .state l) :
    (c.newPromise l h void).ptr x = c.ptr x := by
  show Function.update (Function.update c.ptr (.state l) (some c.made)) h (some c.made) x = c.ptr x
  rw [Function.update_of_ne hxh, Function.update_of_ne hxl]

theorem ptr_newPromise_state (c : Config τ ε) (l : Place) (h : Handle) (void : Bool) :
    (c.newPromise l h void).ptr (.state l) = some c.made := by
  show Function.update (Function.update c.ptr (.state l) (some c.made)) h (some c.made) (.state l) = _
  by_cases hh : Handle.state l = h
  · rw [hh, Function.update_self]
  · rw [Function.update_of_ne hh, Function.update_self]

theorem ptr_newPromise {x h : Handle} {l : Place} {void : Bool} (hx : (c.newPromise l h void).ptr x ≠ none) :
    x = h ∨ x = .state l ∨ c.ptr x ≠ none := by
  by_cases hxh : x = h
  · exact .inl hxh
  · by_cases hxl : x = .state l
    · exact .inr (.inl hxl)
    · rw [ptr_newPromise_of_ne hxh hxl] at hx
      exact .inr (.inr hx)

theorem ptr_newPromise_of {x h : Handle} {l : Place} {void : Bool} (hx : c.ptr x ≠ none) :
    (c.newPromise l h void).ptr x ≠ none := by
  show Function.update (Function.update c.ptr (.state l) (some c.made)) h (some c.made) x ≠ none
  by_cases hxh : x = h
  · rw [hxh, Function.update_self]
    exact nofun
  · rw [Function.update_of_ne hxh]
    by_cases hxl : x = .state l
    · rw [hxl, Function.update_self]
      exact nofun
    · rw [Function.update_of_ne hxl]
      exact hx

theorem continuation_newPromise {h : Handle} {l : Place} {void : Bool} {k : Nat}
    (hk : ((c.newPromise l h void).state s).continuation = some k) : (c.state s).continuation = some k := by
  have hk' : (Function.update c.state c.made (.new void) s).continuation = some k := hk
  by_cases hs : s = c.made
  · rw [hs, Function.update_self] at hk'
    cases hk'
  · rw [Function.update_of_ne hs] at hk'
    exact hk'

theorem promise_ok (hi : Inv c) (p : Nat) (void : Bool) : (next c (.promise p void)).Ok Inv := by
  simp only [next, ok_bind, ok_requiring]
  intro hno
  have hs : c.ptr (.state (.named p)) = none := hi.ptr_none (h := .state (.named p)) hno
  have hf : c.ptr (.futureState p) = none := hi.ptr_none (h := .futureState p) hno
  have hp := hi.addPromise p
  have hself : Function.update c.promise p true p = true := Function.update_self ..
  refine { hp.toCore.newPromise (l := .named p) (h := .futureState p) hs rfl hf void with
    may := fun x hx => ?_, promised := fun k hk => ptr_newPromise_of (hp.promised k hk)
    stage := fun s k hk => hp.stage s k (continuation_newPromise hk) }
  rcases ptr_newPromise hx with rfl | rfl | hx
  · exact hself
  · exact hself
  · exact hp.may x hx

/-- Two promises exchange what they have. -/
theorem Inv.swapPromise (hi : Inv c) {p q : Nat} (hp : c.promise p = true) (hq : c.promise q = true) :
    Inv ((c.swap (.state (.named p)) (.state (.named q))).swap (.futureState p) (.futureState q)) :=
  (hi.swap (h := .state (.named p)) (k := .state (.named q)) rfl (.of_kind nofun) (.of_kind nofun)
    trivial trivial hp hq).swap (h := .futureState p) (k := .futureState q) rfl nofun nofun trivial trivial hp hq

theorem movePromise_ok (hi : Inv c) (p move : Nat) : (next c (.movePromise p move)).Ok Inv := by
  simp only [next, ok_bind, ok_requiring]
  intro ⟨_, hm⟩
  have hself : Function.update c.promise p true p = true := Function.update_self ..
  have hmove : Function.update c.promise p true move = true := by
    by_cases he : move = p
    · rw [he, hself]
    · rw [Function.update_of_ne he, hm]
  exact (hi.addPromise p).swapPromise hself hmove

theorem assignPromise_ok (hi : Inv c) (p move : Nat) : (next c (.assignPromise p move)).Ok Inv := by
  simp only [next, ok_bind, ok_requiring]
  intro ⟨hp, hm⟩
  have hkeep : ∀ h k, (c.assign h k).promise = c.promise := by
    intro h k
    unfold Config.assign
    split
    · rfl
    · exact promise_drop c h
  have hstate := hi.assign (h := .state (.named p)) (k := .state (.named move)) rfl (.of_kind nofun)
    (.of_kind nofun) trivial trivial hp hm
  refine hstate.assign (h := .futureState p) (k := .futureState move) rfl nofun nofun trivial trivial ?_ ?_
  · exact (congrFun (hkeep ..) p).trans hp
  · exact (congrFun (hkeep ..) move).trans hm

theorem swapPromise_ok (hi : Inv c) (p other : Nat) : (next c (.swapPromise p other)).Ok Inv := by
  simp only [next, ok_bind, ok_requiring]
  intro ⟨hp, ho⟩
  exact hi.swapPromise hp ho

theorem set_ok (hi : Inv c) {p : Nat} {x : Setting τ ε} (ha : Allowed c (.set p x)) :
    (next c (.set p x)).Ok Inv := by
  simp only [next, ok_bind, ok_requiring]
  intro hp
  obtain ⟨s, hs⟩ := Option.ne_none_iff_exists'.mp (ha hp)
  exact (hi.settle (l := .named p) hs nofun x).mono fun _ hd => hd.1

/-- Whether or not the promise was valid, it is not any more. -/
theorem Inv.breakPromise (hi : Inv c) {l : Place} (hl : ∀ k, l = .continuation k → ¬c.Pending k) :
    (c.breakPromise l).Ok fun d => Inv d ∧ d.ptr (.state l) = none ∧
      (∀ l', d.ptr (.future l') = c.ptr (.future l')) ∧ ∀ k, c.stage k ≠ .attached → d.stage k = c.stage k := by
  unfold Config.breakPromise
  cases hp : c.ptr (.state l) with
  | none => exact ⟨hi, hp, fun _ => rfl, fun _ _ => rfl⟩
  | some s =>
    refine (hi.settle hp hl _).mono fun d ⟨hd, hs⟩ => ⟨hd, hs.ptr_none hi, hs.future, fun k hk => ?_⟩
    exact hs.stage_of hi hk

theorem destroyPromise_ok (hi : Inv c) (p : Nat) : (next c (.destroyPromise p)).Ok Inv := by
  simp only [next, ok_bind, ok_requiring]
  intro _
  refine (hi.breakPromise (l := .named p) nofun).mono fun d ⟨hd, hs, _, _⟩ => ?_
  have hdrop := hd.drop (h := .futureState p) nofun trivial
  have hne : Handle.state (.named p) ≠ .futureState p := nofun
  refine hdrop.removePromise ?_ ?_
  · rw [ptr_drop, Function.update_of_ne hne]
    exact hs
  · rw [ptr_drop, Function.update_self]

/-! ## Futures -/

theorem takeFuture_ok (hi : Inv c) {p f : Nat} (ha : Allowed c (.takeFuture p f)) :
    (next c (.takeFuture p f)).Ok Inv := by
  simp only [next, ok_bind, ok_requiring, ok_asserting]
  intro ⟨hp, _⟩
  refine ⟨Option.isSome_iff_ne_none.mpr (ha hp), ?_⟩
  exact (hi.addFuture f).swap (h := .future (.named f)) (k := .futureState p) rfl nofun nofun trivial trivial
    (Function.update_self ..) hp

theorem future_ok (hi : Inv c) (f : Nat) : (next c (.future f)).Ok Inv := by
  simp only [next, ok_bind, ok_requiring]
  intro _
  exact hi.addFuture f

theorem moveFuture_ok (hi : Inv c) (f : Nat) (move : Place) : (next c (.moveFuture f move)).Ok Inv := by
  simp only [next, ok_bind, ok_requiring]
  intro ⟨_, hm⟩
  have hf := hi.addFuture f
  have hm' : Config.hasFuture { c with future := Function.update c.future f true } move = true := by
    cases move with
    | continuation k => exact hm
    | named g =>
      show Function.update c.future f true g = true
      by_cases hgf : g = f
      · rw [hgf, Function.update_self]
      · exact (Function.update_of_ne hgf ..).trans hm
  exact hf.swap (h := .future (.named f)) (k := .future move) rfl nofun (hf.loose_hasFuture hm') trivial
    trivial (Function.update_self ..) (may_hasFuture hm')

theorem assignFuture_ok (hi : Inv c) (l move : Place) : (next c (.assignFuture l move)).Ok Inv := by
  simp only [next, ok_bind, ok_requiring]
  intro ⟨hl, hm⟩
  exact hi.assign (h := .future l) (k := .future move) rfl (hi.loose_hasFuture hl) (hi.loose_hasFuture hm)
    trivial trivial (may_hasFuture hl) (may_hasFuture hm)

theorem swapFuture_ok (hi : Inv c) (l other : Place) : (next c (.swapFuture l other)).Ok Inv := by
  simp only [next, ok_bind, ok_requiring]
  intro ⟨hl, ho⟩
  exact hi.swap (h := .future l) (k := .future other) rfl (hi.loose_hasFuture hl) (hi.loose_hasFuture ho)
    trivial trivial (may_hasFuture hl) (may_hasFuture ho)

theorem destroyFuture_ok (hi : Inv c) (f : Nat) : (next c (.destroyFuture f)).Ok Inv := by
  simp only [next, ok_bind, ok_requiring]
  intro _
  refine (hi.drop (h := .future (.named f)) nofun trivial).removeFuture ?_
  rw [ptr_drop, Function.update_self]

/-- The storage is read where no value was constructed exactly if the state was
set to a null exception pointer. -/
theorem SharedState.takeValue_ok (s : SharedState τ ε) : (s.takeValue).Ok (fun _ => True) ↔ ¬s.Null := by
  unfold takeValue Null
  simp only [ok_bind, ok_requiring]
  cases hx : s.exception with
  | some e => simp
  | none =>
    cases hv : s.void with
    | true => simp
    | false => cases hd : s.data <;> simp

theorem takeValue_ok {l : Place} (ha : Allowed c (.takeValue l)) {P : Config τ ε → Prop}
    (hP : c.hasFuture l = true → P (c.drop (.future l))) :
    Lasts c (.takeValue l) ↔ (next c (.takeValue l)).Ok P := by
  simp only [next, Lasts, ok_bind, ok_requiring]
  refine forall_congr' fun hl => ?_
  obtain ⟨s, hs⟩ := Option.ne_none_iff_exists'.mp (ha hl)
  rw [hs]
  simp only [Option.some.injEq, forall_eq', ← SharedState.takeValue_ok, ok_bind]
  exact ⟨fun h => h.mono fun _ _ => hP hl, fun h => h.mono fun _ _ => trivial⟩

/-! ## Continuations -/

/-- A continuation is to be run at once, or is attached to its state. -/
inductive SharedState.Attached (s : SharedState τ ε) (k : Nat) : Option Nat × SharedState τ ε → Prop
  | runs : s.isSet = true → Attached s k (some k, s)
  | attached (t : SharedState τ ε) : s.isSet = false → t.toSharedState = s.toSharedState →
      t.continuation = some k → t.constructed = s.constructed → t.destroyed = s.destroyed →
      Attached s k (none, t)

theorem SharedState.attach_ok {t : SharedState τ ε} (ht : t.continuation = none) (k : Nat) :
    (t.attach k).Ok (t.Attached k) := by
  unfold attach FutureThen.SharedState.attach
  simp only [ok_bind, ok_asserting, ht]
  refine ⟨rfl, ?_⟩
  cases hs : t.isSet with
  | true => exact .runs hs
  | false => exact .attached _ hs rfl rfl rfl rfl

section
variable {t : SharedState τ ε} {k : Nat} {run : Option Nat}

theorem SharedState.Attached.isSet (h : (c.state s).Attached k (run, t)) : t.isSet = (c.state s).isSet := by
  cases h with
  | runs _ => rfl
  | attached _ _ ht _ _ _ => exact congrArg (·.isSet) ht

theorem SharedState.Attached.counts (h : (c.state s).Attached k (run, t)) (hc : (c.state s).Counts) :
    t.Counts := by
  cases h with
  | runs _ => exact hc
  | attached _ hs ht _ hcon hdes =>
    obtain ⟨h₁, h₂, h₃⟩ := hc
    have hdata : t.data = (c.state s).data := congrArg (·.data) ht
    have hset : t.isSet = (c.state s).isSet := congrArg (·.isSet) ht
    exact ⟨by rw [hcon, h₁, hdata], hdes.trans h₂, fun hd => hset.trans (h₃ (hdata ▸ hd))⟩

theorem SharedState.Attached.continuation (h : (c.state s).Attached k (run, t))
    (hnone : (c.state s).continuation = none) {j : Nat} (hj : t.continuation = some j) :
    j = k ∧ t.isSet = false ∧ run = none := by
  have hset := h.isSet
  cases h with
  | runs _ =>
    rw [hnone] at hj
    cases hj
  | attached _ hs ht hk _ _ =>
    rw [hk] at hj
    injection hj with hj
    exact ⟨hj.symm, hset.trans hs, rfl⟩

end

theorem then_ok (hi : Inv c) {l : Place} {k f : Nat} {void : Bool} (ha : Allowed c (.then l k f void)) :
    (next c (.then l k f void)).Ok Inv := by
  simp only [next, ok_bind, ok_requiring]
  intro ⟨hl, hk, hf⟩
  obtain ⟨s, hs⟩ := Option.ne_none_iff_exists'.mp (ha hl)
  have hnoState : c.ptr (.state (.continuation k)) = none :=
    hi.ptr_none (h := .state (.continuation k)) fun h => h hk
  have hnoFuture : c.ptr (.future (.continuation k)) = none :=
    hi.ptr_none (h := .future (.continuation k)) fun h => h hk
  have hnoNamed : c.ptr (.future (.named f)) = none := hi.ptr_none (h := .future (.named f)) hf
  have hlf : Handle.future l ≠ .future (.named f) := by
    intro he
    rw [he, hnoNamed] at hs
    cases hs
  have hlk : Handle.future l ≠ .future (.continuation k) := by
    intro he
    rw [he, hnoFuture] at hs
    cases hs
  have hls : Handle.future l ≠ .state (.continuation k) := nofun
  -- The assertion: an attached continuation has the state's only future.
  have hnone : (c.state s).continuation = none := by
    cases hj : (c.state s).continuation with
    | none => rfl
    | some j =>
      obtain ⟨hfj, -⟩ := hi.attached s j hj
      have he : Handle.future (.continuation j) = .future l := hi.unique _ _ s rfl (fun he => by cases he) hfj hs
      exact absurd he.symm (hi.loose_hasFuture hl s j hj)
  have hmade : s ≠ c.made := fun he => Nat.lt_irrefl _ (he ▸ hi.lt_made hs)
  let c₁ := c.newPromise (.continuation k) (.future (.named f)) void
  let c₂ := c₁.swap (.future (.continuation k)) (.future l)
  have hi₁ : Core c₁ := hi.toCore.newPromise hnoState rfl hnoNamed void
  have hstate : c₂.state s = c.state s := Function.update_of_ne hmade ..
  have hptr : c₂.ptr (.future (.continuation k)) = some s := by
    have hp : c₁.ptr (.future l) = c.ptr (.future l) := ptr_newPromise_of_ne hlf hls
    exact (ptr_swap_left c₁ hlk.symm).trans (hp.trans hs)
  have hloose : ∀ r j, (c₁.state r).continuation = some j → c.stage j = .attached := fun r j hj =>
    hi.stage r j (continuation_newPromise hj)
  have hi₂ : Core c₂ := by
    refine hi₁.swap rfl (fun r j hj he => ?_) fun r j hj => ?_
    · injection he with he
      injection he with he
      have hst := hloose r j hj
      rw [← he, hk] at hst
      cases hst
    · exact hi.loose_hasFuture hl r j (continuation_newPromise hj)
  rw [hs]
  show ((c₂.state s).attach k >>= _).Ok Inv
  rw [hstate, ok_bind]
  refine (SharedState.attach_ok hnone k).mono fun r hr => ?_
  obtain ⟨run, t⟩ := r
  have hi₃ : Core (c₂.setState s t) := by
    refine hi₂.setState (hr.counts (hi.counts s)) (fun h hh hp => ?_) (fun j hj => ?_) fun _ =>
      hi₂.counted.ne_zero hptr
    · have hunset := hi₂.unset h s hh hp
      rw [hstate] at hunset
      exact hr.isSet.trans hunset
    · obtain ⟨rfl, hset, -⟩ := hr.continuation hnone hj
      exact ⟨hptr, hset⟩
  let d : Config τ ε := { c₂.setState s t with
    stage := Function.update c.stage k (if run.isSome then .running else .attached)
    future := Function.update c.future f true }
  have hself : d.stage k ≠ .absent := by
    show Function.update c.stage k _ k ≠ .absent
    rw [Function.update_self]
    split <;> exact nofun
  have hother : ∀ j, c.stage j ≠ .absent → d.stage j = c.stage j := fun j hj =>
    Function.update_of_ne (fun he : j = k => hj (he ▸ hk)) ..
  have hnamed : d.future f = true := Function.update_self ..
  have hup : ∀ x, c.May x → d.May x := by
    intro x hx
    refine hx.mono (fun _ hp => hp) (fun g hg => ?_) (fun j hj => ?_) fun j hj => ?_
    · by_cases hgf : g = f
      · rw [hgf]
        exact hnamed
      · exact (Function.update_of_ne hgf ..).trans hg
    · rw [hother j hj]
      exact hj
    · have habsent : c.stage j ≠ .absent := by rcases hj with hj | hj <;> rw [hj] <;> exact nofun
      rw [hother j habsent]
      exact hj
  show Inv d
  refine { hi₃ with may := fun x hx => ?_, promised := fun j hj => ?_, stage := fun r j hrj => ?_ }
  · by_cases hxk : x = .future (.continuation k)
    · rw [hxk]
      exact hself
    · by_cases hxl : x = .future l
      · rw [hxl]
        exact hup _ (may_hasFuture hl)
      · have hx₁ : c₁.ptr x ≠ none := by
          rw [← ptr_swap_of_ne c₁ hxk hxl]
          exact hx
        rcases ptr_newPromise hx₁ with rfl | rfl | hx
        · exact hnamed
        · exact hself
        · exact hup x (hi.may x hx)
  · have hne : Handle.state (.continuation j) ≠ .future (.continuation k) := nofun
    have hnl : Handle.state (.continuation j) ≠ .future l := nofun
    show c₂.ptr (.state (.continuation j)) ≠ none
    rw [ptr_swap_of_ne c₁ hne hnl]
    by_cases hjk : j = k
    · rw [hjk, ptr_newPromise_state]
      exact nofun
    · have hpend : c.Pending j := (pending_congr (Function.update_of_ne hjk ..)).mp hj
      exact ptr_newPromise_of (hi.promised j hpend)
  · have hrj' : (Function.update c₂.state s t r).continuation = some j := hrj
    by_cases hrs : r = s
    · rw [hrs, Function.update_self] at hrj'
      obtain ⟨rfl, -, hrun⟩ := hr.continuation hnone hrj'
      show Function.update c.stage j (if run.isSome then .running else .attached) j = .attached
      rw [Function.update_self, hrun]
      rfl
    · rw [Function.update_of_ne hrs] at hrj'
      have hst := hloose r j hrj'
      rw [hother j (by rw [hst]; exact nofun)]
      exact hst

/-- The promise of a continuation is set at the end of its run. -/
theorem finish_ok (hi : Inv c) (k : Nat) (x : Setting τ ε) : (next c (.finish k x)).Ok Inv := by
  simp only [next, ok_bind, ok_requiring]
  intro hk
  obtain ⟨s, hs⟩ := Option.ne_none_iff_exists'.mp (hi.promised k (.inr hk))
  refine (hi.toCore.settle hs (fun _ => hi.temp_none) x).mono fun d ⟨hcore, hd⟩ => ?_
  -- That the run is over may be noted before the promise is set.
  let c₁ : Config τ ε := { c with stage := Function.update c.stage k .finished }
  have hother : ∀ j, j ≠ k → c₁.stage j = c.stage j := fun j hj => Function.update_of_ne hj ..
  have hself : c₁.stage k = .finished := Function.update_self ..
  have hne : ∀ r j, (c.state r).continuation = some j → j ≠ k := by
    intro r j hr he
    have hst := hi.stage r j hr
    rw [he, hk] at hst
    cases hst
  have hi₁ : Inv c₁ := by
    refine { hi with may := fun y hy => ?_, promised := fun j hj => ?_, stage := fun r j hr => ?_ }
    · refine (hi.may y hy).mono (fun _ hp => hp) (fun _ hf => hf) (fun j hj => ?_) fun j hj => ?_
      · by_cases hjk : j = k
        · rw [hjk, hself]
          exact nofun
        · rwa [hother j hjk]
      · by_cases hjk : j = k
        · exact .inr (hjk ▸ hself)
        · rwa [hother j hjk]
    · have hjk : j ≠ k := by
        intro he
        rw [he] at hj
        exact absurd hj (not_pending (x := .finished) hself ⟨nofun, nofun⟩)
      exact hi.promised j ((pending_congr (hother j hjk)).mp hj)
    · rw [hother j (hne r j hr)]
      exact hi.stage r j hr
  have hsettled : Settled c₁ (.continuation k) s { d with stage := Function.update d.stage k .finished } := by
    cases hd with
    | quiet t ht hnone =>
      have heq : ({ (c.drop (.state (.continuation k))).setState s t with
          stage := Function.update (c.drop (.state (.continuation k))).stage k .finished } : Config τ ε) =
          (c₁.drop (.state (.continuation k))).setState s t := by
        simp only [Config.drop, hs, c₁]
        rfl
      exact heq ▸ .quiet t ht hnone
    | runs t j ht hj =>
      have hcomm : Function.update (Function.update c.stage j .running) k Stage.finished =
          Function.update (Function.update c.stage k .finished) j .running :=
        Function.update_comm (hne s j hj) ..
      have hruns : Settled c₁ (.continuation k) s _ := .runs t j ht hj
      rw [show Function.update c₁.stage j Stage.running = _ from hcomm.symm] at hruns
      exact hruns
  refine hi₁.settled (fun j hj => ?_) { hcore with } hsettled
  injection hj with hj
  rw [← hj]
  exact not_pending (x := .finished) hself ⟨nofun, nofun⟩

theorem destroyContinuation_ok (hi : Inv c) (k : Nat) : (next c (.destroyContinuation k)).Ok Inv := by
  simp only [next, Config.destroyContinuation, ok_bind, ok_requiring]
  intro hk
  have hdrop : Inv (c.drop (.future (.continuation k))) := by
    refine hi.drop (hi.loose fun j hj => ?_) trivial
    injection hj with hj
    rw [← hj, hk]
    exact nofun
  have hk₁ : (c.drop (.future (.continuation k))).stage k = .finished := by rw [stage_drop, hk]
  have hnot : ∀ j, Place.continuation k = .continuation j →
      ¬(c.drop (.future (.continuation k))).Pending j := by
    intro j hj
    injection hj with hj
    rw [← hj]
    exact not_pending hk₁ ⟨nofun, nofun⟩
  refine (hdrop.breakPromise hnot).mono fun d ⟨hd, hs, hf, hst⟩ => ?_
  have hf' : d.ptr (.future (.continuation k)) = none := by
    rw [hf, ptr_drop, Function.update_self]
  have hst' : d.stage k = .finished := (hst k (by rw [hk₁]; exact nofun)).trans hk₁
  have hstate : Handle.state (.continuation k) ≠ .temp k := nofun
  have hfuture : Handle.future (.continuation k) ≠ .temp k := nofun
  refine (hd.drop (h := .temp k) (.of_kind nofun) trivial).removeContinuation ?_ ?_ ?_ ?_
  · refine not_pending (x := .finished) ?_ ⟨nofun, nofun⟩
    rw [stage_drop, hst']
  · rw [ptr_drop, Function.update_of_ne hstate, hs]
  · rw [ptr_drop, Function.update_of_ne hfuture, hf']
  · rw [ptr_drop, Function.update_self]

/-! ## The end of a state -/

/-- No continuation is attached to a state that nothing points to: its future does. -/
theorem Core.not_attached (hi : Core c) (hs : ∀ h, c.ptr h ≠ some s) :
    (c.state s).continuation = none := by
  cases hk : (c.state s).continuation with
  | none => rfl
  | some k => exact absurd (hi.attached s k hk).1 (hs _)

theorem release_ok (hi : Inv c) (hl : Lasts c (.release s)) : (next c (.release s)).Ok Inv := by
  simp only [next, ok_bind, ok_requiring]
  intro hs
  have hcore := hi.toCore.release hs (hl hs)
  have hinv : Inv { c with dying := c.dying.erase s, uses := Function.update c.uses s (c.uses s - 1) } :=
    { hcore, hi.toPlaced with }
  by_cases hz : Function.update c.uses s (c.uses s - 1) s = 0
  · have hnone : (c.state s).continuation = none := hi.not_attached ((hcore.counted.zero_iff s).mp hz).1
    simp only [Config.release, hz, if_true, hnone]
    exact hinv
  · simp only [Config.release, if_neg hz]
    exact hinv

/-- With the last pointer goes what holds a value, and the value is not destroyed. -/
theorem release_leaks (hi : Inv c) (hl : ¬Lasts c (.release s)) :
    ¬(next c (.release s)).Ok (Destroyed c (.release s)) := by
  unfold Lasts at hl
  push Not at hl
  obtain ⟨hs, hone, hdata⟩ := hl
  have hzero : Function.update c.uses s (c.uses s - 1) s = 0 := by rw [Function.update_self, hone]
  obtain ⟨hnobody, hgone⟩ := ((hi.counted.release hs).zero_iff s).mp hzero
  have hmade : s < c.made := by
    by_contra hm
    rw [hi.fresh s (Nat.le_of_not_lt hm)] at hone
    cases hone
  have hnone := hi.not_attached hnobody
  simp only [next, requiring_true hs, next_bind, Config.release, hzero, if_true, hnone]
  intro hd
  obtain ⟨-, hd⟩ := hd s hmade
  have heq : (c.state s).destroyed = (c.state s).constructed := hd hnobody hgone
  obtain ⟨hcon, hdes, -⟩ := hi.counts s
  rw [hcon, hdes, if_pos (Option.isSome_iff_ne_none.mpr hdata)] at heq
  cases heq

theorem next_ok (hi : Inv c) {a : Act τ ε} (ha : Allowed c a) (hl : Lasts c a) : (next c a).Ok Inv := by
  cases a with
  | promise p void => exact promise_ok hi p void
  | movePromise p move => exact movePromise_ok hi p move
  | assignPromise p move => exact assignPromise_ok hi p move
  | swapPromise p other => exact swapPromise_ok hi p other
  | set p x => exact set_ok hi ha
  | destroyPromise p => exact destroyPromise_ok hi p
  | takeFuture p f => exact takeFuture_ok hi ha
  | future f => exact future_ok hi f
  | moveFuture f move => exact moveFuture_ok hi f move
  | assignFuture l move => exact assignFuture_ok hi l move
  | swapFuture l other => exact swapFuture_ok hi l other
  | takeValue l =>
    exact (takeValue_ok ha fun hf => hi.drop (hi.loose_hasFuture hf) trivial).mp hl
  | destroyFuture f => exact destroyFuture_ok hi f
  | «then» l k f void => exact then_ok hi ha
  | finish k x => exact finish_ok hi k x
  | destroyContinuation k => exact destroyContinuation_ok hi k
  | release s => exact release_ok hi hl

theorem lasts_iff (hi : Inv c) {a : Act τ ε} (ha : Allowed c a) :
    Lasts c a ↔ (next c a).Ok (Destroyed c a) := by
  constructor
  · intro hl
    exact (next_ok hi ha hl).mono fun d hd => hd.toCore.destroyed c a
  · intro hd
    cases a with
    | takeValue l => exact (takeValue_ok ha fun _ => trivial).mpr (hd.mono fun _ _ => trivial)
    | release s =>
      by_contra hl
      exact release_leaks hi hl hd
    | _ => trivial

theorem init_inv : Inv (init : Config τ ε) where
  counted := .nobody
  fresh _ _ := rfl
  unique _ _ _ _ _ h := by cases h
  unset _ _ _ h := by cases h
  attached _ _ h := by cases h
  counts _ := Counts.new false
  kept _ h := by cases h
  may _ h := absurd rfl h
  promised _ h := by rcases h with h | h <;> cases h
  stage _ _ h := by cases h

/-- **Every value constructed in a shared state has been destroyed when the last
pointer to the state is gone, and storage without a value is not read, exactly
if the last pointer to no state with a value goes, and no future is taken from
whose state was set to a null exception pointer.** -/
theorem destroyed_iff (as : List (Act τ ε)) (ha : Runs.Meets next Allowed init as) :
    Runs.Along next Destroyed init as ↔ Runs.Meets next Lasts init as := by
  refine Runs.along_iff_meets (fun _ _ hi ha => lasts_iff hi ha) (fun c a d hi ha hn hd => ?_) init_inv ha
  have hok : (next c a).Ok (Destroyed c a) := by
    rw [hn]
    exact hd
  exact (next_ok hi ha ((lasts_iff hi ha).mpr hok)).of_next hn

/-- A future is taken, and what is in its state is an exception. -/
def excepted : List (Act Nat Nat) :=
  [.promise 0 false, .takeFuture 0 0, .set 0 (.exception (some (.other 3))), .release 0, .takeValue (.named 0),
   .release 0]

theorem destroyed_iff_excepted : Runs.Along next Destroyed init excepted :=
  (destroyed_iff excepted <|
    .cons trivial rfl <| .cons (fun _ => nofun) rfl <| .cons (fun _ => nofun) rfl <| .cons trivial rfl <|
    .cons (fun _ => nofun) rfl <| .cons trivial rfl trivial).mpr <|
    .cons trivial rfl <| .cons trivial rfl <| .cons trivial rfl <| .cons (fun _ _ => rfl) rfl <|
    .cons (fun _ s hs hn => by cases hs; cases hn.2.1) rfl <| .cons (fun _ _ => rfl) rfl trivial

/-- A promise is set, and destroyed. -/
def valued : List (Act Nat Nat) :=
  [.promise 0 false, .set 0 (.value (some 5)), .release 0, .destroyPromise 0, .release 0]

theorem valued_leaks : Runs.Meets next Allowed init valued ∧ ¬Runs.Along next Destroyed init valued := by
  constructor
  · exact .cons trivial rfl <| .cons (fun _ => nofun) rfl <| .cons trivial rfl <| .cons trivial rfl <|
      .cons trivial rfl trivial
  · intro h
    obtain ⟨-, -, -, -, hd, -⟩ := h
    -- Nothing points to the state, and the value in it was not destroyed.
    obtain ⟨-, heq⟩ := hd 0 (by decide)
    refine nomatch heq (fun x hx => ?_) (by decide)
    obtain ⟨hx₁, hx⟩ := of_update_none hx
    obtain ⟨hx₂, hx⟩ := of_update_none hx
    rcases of_update_some hx with ⟨hx, -⟩ | ⟨-, hx⟩
    · exact hx₁ hx
    · rcases of_update_some hx with ⟨hx, -⟩ | ⟨-, hx⟩
      · exact hx₂ hx
      · cases hx

end FutureLifetimes
