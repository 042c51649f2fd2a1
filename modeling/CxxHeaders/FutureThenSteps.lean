/-
The steps that set a state, and those that make one, keep `Inv`: a state is set
and the continuation in it taken out, which the thread runs next (`Inv.settle`);
a continuation is made, and run at once or stored (`Inv.attach`).
-/
import CxxHeaders.FutureThenInv

open Outcome

namespace FutureThen

variable {τ ε : Type} {c : Config τ ε} {hole : Option Nat} {t n k : Nat} {o : Result τ ε}

/-! ## Setting a state -/

theorem state_setState_self (c : Config τ ε) (n : Nat) (s : SharedState τ ε) :
    (c.setState n s).state n = s := Function.update_self ..

theorem state_setState_ne {m : Nat} (hm : m ≠ n) (s : SharedState τ ε) :
    (c.setState n s).state m = c.state m :=
  Function.update_of_ne hm ..

/-- A state is set, and its continuation, if it has one, taken out. -/
theorem Inv.setState (h : Inv (some n) c) (hmade : c.made n = true) (hunset : (c.state n).isSet = false)
    (hpromise : c.promise n = false) (hheld : ¬Tokens.Held c.tokens (.run n))
    (hstored : ∀ m, (c.state m).continuation ≠ some n)
    (hinvoked : ∀ x, c.continuation n = some x → c.invoked n ≠ [])
    (ho : Settles c.continuation c.fulfilled n o) {s : SharedState τ ε} (hset : s.isSet = true)
    (hvalue : s.takeValue = o) (hempty : s.continuation = none) :
    Inv (c.state n).continuation (c.setState n s) := by
  have hsame : ∀ m, (c.state m).isSet = true → (c.setState n s).state m = c.state m := fun m hm =>
    state_setState_ne (fun he => absurd (hunset.symm.trans (he ▸ hm)) Bool.noConfusion) s
  have hset : ((c.setState n s).state n).isSet = true := by rwa [state_setState_self]
  have hother : ∀ m, (c.state m).isSet = false → m ≠ n → ((c.setState n s).state m).isSet = false :=
    fun m hm hmn => by rwa [state_setState_ne hmn]
  have hextends : Extends c (c.setState n s) := ⟨fun _ => id, fun _ _ => id, fun _ _ => id, hsame⟩
  exact { h with
    fresh := fun m hm => by
      have hf := h.fresh m hm
      exact { hf with state := (state_setState_ne (ne_of_made hm hmade) s).trans hf.state }
    unset := fun m hm => by
      by_cases hmn : m = n
      · rw [hmn, hset] at hm
        cases hm
      · rw [state_setState_ne hmn] at hm ⊢
        exact h.unset m hm
    settles := fun m hm => by
      by_cases hmn : m = n
      · subst hmn
        rw [state_setState_self, hvalue]
        exact ho
      · rw [state_setState_ne hmn] at hm ⊢
        exact h.settles m hm
    stored := fun m k hk => by
      by_cases hmn : m = n
      · rw [hmn, state_setState_self, hempty] at hk
        cases hk
      · rw [state_setState_ne hmn] at hk
        have hs := h.stored m k hk
        exact { hs with
          unset := hother m hs.unset hmn
          unset_own := hother k hs.unset_own fun he => hstored m (he ▸ hk) }
    frame := fun u z hz => by
      have hgood := h.frame u z hz
      refine hgood.extend hextends (fun r hr => (hgood.returning hr).2) fun k hk => ?_
      exact ⟨hother k (hgood.unset hk) fun he => hheld (he ▸ hk ▸ ⟨u, mem_tokens hz⟩), rfl⟩
    placed := fun k x hk => by
      rcases h.placed k x hk with hhole | hplaced | hplaced | hplaced
      -- The continuation whose state this is is done, and the one in this state is on its way now.
      · cases hhole
        exact .inr (.inr (.inr ⟨hset, hinvoked x hk⟩))
      · by_cases hxn : x.future = n
        · exact .inl (hxn ▸ hplaced)
        · refine .inr (.inl ?_)
          rwa [state_setState_ne hxn]
      · exact .inr (.inr (.inl hplaced))
      · refine .inr (.inr (.inr ⟨?_, hplaced.2⟩))
        rw [hsame k hplaced.1]
        exact hplaced.1
    promise := fun m hm => by
      obtain ⟨hm', hnone⟩ := h.promise m hm
      have hmn : m ≠ n := fun he => absurd (hpromise.symm.trans (he ▸ hm)) Bool.noConfusion
      exact ⟨hother m hm' hmn, hnone⟩
    fulfilled := fun m o' hm => by
      rcases h.fulfilled m o' hm with hhole | hm'
      · cases hhole
        exact .inr hset
      · refine .inr ?_
        rwa [hsame m hm']
    future := fun m hm => by
      by_cases hmn : m = n
      · rw [hmn, state_setState_self]
        exact hempty
      · rw [state_setState_ne hmn]
        exact h.future m hm
    invoked := fun k => by
      rcases h.invoked k with hk | ⟨x, hx, hsource, hk⟩
      · exact .inl hk
      · refine .inr ⟨x, hx, ?_, ?_⟩
        · rwa [hsame _ hsource]
        · rwa [hsame _ hsource] }

/-- A continuation that is nowhere, and can be run. -/
structure Ready (c : Config τ ε) (k : Nat) : Prop where
  inHand : InHand c k
  invoked : c.invoked k = []
  not_held : ¬Tokens.Held c.tokens (.run k)
  not_stored : ∀ m, (c.state m).continuation ≠ some k

theorem Inv.push (h : Inv hole c) {y : Frame τ ε} (hgood : Good c y)
    (hnew : ¬Tokens.Held c.tokens y.token)
    (hstored : ∀ m k, y.token = .run k → (c.state m).continuation ≠ some k) (t : Nat) :
    Inv hole (c.push t y) := by
  have htoks : (c.push t y).tokens = Function.update c.tokens t (y.token :: c.tokens t) :=
    tokens_setThread ..
  have hpush : ∀ j, Tokens.Held (c.push t y).tokens j ↔ j = y.token ∨ Tokens.Held c.tokens j :=
    fun j => by rw [htoks, Tokens.held_push]
  exact { h with
    unique := htoks ▸ h.unique.push hnew
    fresh := fun m hm => { h.fresh m hm with }
    stored := fun m j hj => { h.stored m j hj with
      not_held := fun hh => by
        rcases (hpush _).mp hh with hjk | hheld
        · exact hstored m j hjk.symm hj
        · exact (h.stored m j hj).not_held hheld }
    frame := fun u z hz => by
      rcases mem_push hz with rfl | hmem
      · exact hgood
      · exact h.frame u z hmem
    placed := fun j x hj => by
      rcases h.placed j x hj with hhole | hplaced | hplaced | hplaced
      · exact .inl hhole
      · exact .inr (.inl hplaced)
      · exact .inr (.inr (.inl ((hpush _).mpr (.inr hplaced))))
      · exact .inr (.inr (.inr hplaced)) }

theorem Inv.fill (h : Inv (some k) c) {x : Continuation τ ε} (hx : c.continuation k = some x)
    (hplaced : Placed c x.future k) : Inv none c :=
  { h with
    placed := fun j y hj => by
      rcases h.placed j y hj with hhole | hplaced'
      · cases hhole
        cases hx.symm.trans hj
        exact .inr hplaced
      · exact .inr hplaced'
    fulfilled := fun m o hm => by
      rcases h.fulfilled m o hm with hhole | hset
      · cases hhole
        exact absurd ((h.attached k x hx).2.symm.trans hm) (Option.some_ne_none o).symm
      · exact .inr hset }

/-- It finds its place in the thread that took it. -/
theorem Inv.runNext (h : Inv hole c) (hready : ∀ k, hole = some k → Ready c k) (t : Nat) :
    Inv none (c.runNext t hole) := by
  cases hole with
  | none => exact h
  | some k =>
    obtain ⟨hin, hinvoked, hheld, hstored⟩ := hready k rfl
    obtain ⟨x, hx, -⟩ := id hin
    have hpush :=
      h.push (y := .run k) ⟨hin, hinvoked⟩ hheld (fun m j hj => Token.run.inj hj ▸ hstored m) t
    refine hpush.fill hx (.inr (.inl ⟨t, mem_tokens (x := .run k) ?_⟩))
    rw [Config.push, thread_setThread, Function.update_self]
    exact List.mem_cons_self

/-- The continuation of a state that is set now can be run. -/
theorem Stored.ready (h : Stored c n k) (hinv : Inv hole c) {s : SharedState τ ε} (hset : s.isSet = true)
    (hempty : s.continuation = none) (hkn : k ≠ n) : Ready (c.setState n s) k := by
  obtain ⟨f, hf⟩ := h.source
  refine ⟨⟨⟨f, n⟩, hf, ?_, ?_⟩, h.invoked, h.not_held, fun m hm => ?_⟩
  · rwa [state_setState_self]
  · rw [state_setState_ne hkn]
    exact h.unset_own
  · by_cases hmn : m = n
    · rw [hmn, state_setState_self, hempty] at hm
      cases hm
    · rw [state_setState_ne hmn] at hm
      obtain ⟨f', hf'⟩ := (hinv.stored m k hm).source
      cases hf.symm.trans hf'
      exact hmn rfl

theorem Inv.settle (h : Inv (some n) c) (hmade : c.made n = true) (hunset : (c.state n).isSet = false)
    (hpromise : c.promise n = false) (hheld : ¬Tokens.Held c.tokens (.run n))
    (hstored : ∀ m, (c.state m).continuation ≠ some n)
    (hinvoked : ∀ x, c.continuation n = some x → c.invoked n ≠ [])
    (ho : Settles c.continuation c.fulfilled n o) (t : Nat) : (c.settle t n o).Ok (Inv none) := by
  obtain ⟨s, hs, hset, hvalue, hempty⟩ := SharedState.set_spec (h.unset n hunset) o
  have hinv := h.setState hmade hunset hpromise hheld hstored hinvoked ho hset hvalue hempty
  rw [Config.settle, hs]
  refine hinv.runNext (fun k hk => ?_) t
  exact (h.stored n k hk).ready h hset hempty fun he => hstored n (he ▸ hk)

theorem Inv.made_of_promise (h : Inv hole c) (hn : c.promise n = true) : c.made n = true := by
  cases hm : c.made n with
  | true => rfl
  | false => exact absurd ((h.fresh n hm).promise.symm.trans hn) Bool.noConfusion

theorem Inv.made_of_future (h : Inv hole c) (hn : c.future n = true) : c.made n = true := by
  cases hm : c.made n with
  | true => rfl
  | false => exact absurd ((h.fresh n hm).future.symm.trans hn) Bool.noConfusion

/-- Nobody else sets the state of a promise. -/
theorem Inv.not_attached (h : Inv hole c) (hn : c.promise n = true) : c.continuation n = none := by
  cases hc : c.continuation n with
  | none => rfl
  | some x => exact absurd ((h.attached n x hc).1.symm.trans hn) Bool.noConfusion

theorem Inv.usePromise (h : Inv none c) (hn : c.promise n = true) (o : Result τ ε) :
    Inv (some n) (c.usePromise n o) := by
  obtain ⟨hunset, hnone⟩ := h.promise n hn
  have hnot := h.not_attached hn
  have hfulfilled : ∀ m, m ≠ n → (c.usePromise n o).fulfilled m = c.fulfilled m := fun m hm =>
    Function.update_of_ne hm _ _
  have hpromise : ∀ m, m ≠ n → (c.usePromise n o).promise m = c.promise m := fun m hm =>
    Function.update_of_ne hm _ _
  have hused : (c.usePromise n o).promise n = false := Function.update_self ..
  have hextends : Extends c (c.usePromise n o) := by
    refine ⟨fun _ => id, fun _ _ => id, fun m o' hm => ?_, fun _ _ => rfl⟩
    rw [hfulfilled m fun he => by rw [he, hnone] at hm; cases hm]
    exact hm
  exact { h with
    fresh := fun m hm => by
      have hf := h.fresh m hm
      have hmn := ne_of_made hm (h.made_of_promise hn)
      exact { hf with
        promise := (hpromise m hmn).trans hf.promise
        fulfilled := (hfulfilled m hmn).trans hf.fulfilled }
    settles := fun m hm => hextends.settles (h.settles m hm)
    stored := fun m k hk => { h.stored m k hk with }
    frame := fun u z hz => by
      have hgood := h.frame u z hz
      refine hgood.extend hextends (fun r hr => (hgood.returning hr).2) fun k hk => ?_
      exact ⟨hgood.unset hk, rfl⟩
    placed := fun k x hk => .inr ((h.placed k x hk).resolve_left (Option.some_ne_none k).symm)
    attached := fun k x hk => by
      have hkn : k ≠ n := fun he => absurd ((he ▸ hk : c.continuation n = some x).symm.trans hnot)
        (Option.some_ne_none x)
      rw [hpromise k hkn, hfulfilled k hkn]
      exact h.attached k x hk
    promise := fun m hm => by
      have hmn : m ≠ n := fun he => absurd (hused.symm.trans (he ▸ hm)) Bool.noConfusion
      rw [hpromise m hmn] at hm
      rw [hfulfilled m hmn]
      exact h.promise m hm
    fulfilled := fun m o' hm => by
      by_cases hmn : m = n
      · exact .inl (congrArg some hmn.symm)
      · rw [hfulfilled m hmn] at hm
        exact .inr ((h.fulfilled m o' hm).resolve_left (Option.some_ne_none m).symm) }

/-- A thread fulfils a promise. -/
theorem Inv.fulfil (h : Inv none c) (hn : c.promise n = true) (t : Nat) (o : Result τ ε) :
    ((c.usePromise n o).settle t n o).Ok (Inv none) := by
  have hnot := h.not_attached hn
  refine (h.usePromise hn o).settle (h.made_of_promise hn) (h.promise n hn).1
    (Function.update_self ..) ?_ ?_ ?_ (.promise (Function.update_self ..)) t
  · intro hheld
    obtain ⟨u, hu⟩ := hheld
    obtain ⟨z, hz, hzn⟩ := List.mem_map.mp hu
    obtain ⟨x, hx, -⟩ := (h.frame u z hz).inHand hzn
    exact absurd (hx.symm.trans hnot) (Option.some_ne_none x)
  · intro m hm
    obtain ⟨f, hf⟩ := (h.stored m n hm).source
    exact absurd (hf.symm.trans hnot) (Option.some_ne_none _)
  · intro x hx
    exact absurd (hx.symm.trans hnot) (Option.some_ne_none x)

/-- A continuation sets its promise. -/
theorem Inv.set (h : Inv none c) {rest : List (Frame τ ε)} (ht : c.thread t = .set k o :: rest) :
    ((c.setThread t rest).settle t k o).Ok (Inv none) := by
  have htop : .set k o ∈ c.thread t := ht ▸ List.mem_cons_self
  have hheld : Tokens.Held c.tokens (.run k) := ⟨t, mem_tokens htop⟩
  obtain ⟨hin, hinvoked, ho⟩ := h.frame t _ htop
  obtain ⟨x, hx, -, hunset⟩ := hin
  have htoks : c.tokens t = .run k :: rest.map Frame.token := by rw [Config.tokens, ht]; rfl
  have hpop : ∀ j, Tokens.Held (c.setThread t rest).tokens (.run j) ↔
      Tokens.Held c.tokens (.run j) ∧ Token.run j ≠ .run k := fun j => by
    rw [tokens_setThread, h.unique.held_pop htoks]
  have hinv : Inv (some k) (c.setThread t rest) := { h with
    unique := by
      have hunique := h.unique.pop htoks
      rwa [← tokens_setThread] at hunique
    fresh := fun m hm => { h.fresh m hm with }
    stored := fun m j hj =>
      { h.stored m j hj with not_held := fun hh => (h.stored m j hj).not_held ((hpop j).mp hh).1 }
    frame := fun u z hz => h.frame u z (h.mem_pop ht hz).1
    placed := fun j y hj => by
      by_cases hjk : j = k
      · exact .inl (congrArg some hjk.symm)
      · rcases h.placed j y hj with hhole | hplaced | hplaced | hplaced
        · cases hhole
        · exact .inr (.inl hplaced)
        · exact .inr (.inr (.inl ((hpop j).mpr ⟨hplaced, fun he => hjk (Token.run.inj he)⟩)))
        · exact .inr (.inr (.inr hplaced))
    fulfilled := fun m o' hm => .inr ((h.fulfilled m o' hm).resolve_left (Option.some_ne_none m).symm) }
  refine hinv.settle (h.made_of_attached hx) hunset (h.attached k x hx).1 ?_ ?_
    (fun _ _ => hinvoked) ho t
  · exact fun hh => ((hpop k).mp hh).2 rfl
  · exact fun m hm => (h.stored m k hm).not_held hheld

/-! ## New states -/

/-- Nothing in the configuration is about the name. -/
structure Unused (c : Config τ ε) (n : Nat) : Prop extends Fresh c n where
  not_returning : ¬Tokens.Held c.tokens (.returning n)
  not_held : ¬Tokens.Held c.tokens (.run n)
  not_source : ∀ k x, c.continuation k = some x → x.future ≠ n

theorem Inv.unused (h : Inv hole c) (hn : c.made n = false) : Unused c n where
  toFresh := h.fresh n hn
  not_returning hheld := by
    obtain ⟨u, hu⟩ := hheld
    obtain ⟨z, hz, hzn⟩ := List.mem_map.mp hu
    exact absurd (hn.symm.trans ((h.frame u z hz).returning hzn).1) Bool.noConfusion
  not_held hheld := by
    obtain ⟨u, hu⟩ := hheld
    obtain ⟨z, hz, hzn⟩ := List.mem_map.mp hu
    obtain ⟨x, hx, -⟩ := (h.frame u z hz).inHand hzn
    exact absurd ((h.fresh n hn).continuation.symm.trans hx) (Option.some_ne_none x).symm
  not_source k x hk he := absurd (hn.symm.trans (he ▸ h.source k x hk)) Bool.noConfusion

theorem makeState_eq (hn : c.state n = .new) :
    c.makeState n = { c with made := Function.update c.made n true } := by
  have hsame : c.setState n .new = c := by rw [Config.setState, ← hn, Function.update_eq_self]
  rw [Config.makeState, hsame]

theorem Inv.makeState (h : Inv hole c) (hn : c.state n = .new) : Inv hole (c.makeState n) := by
  have hmade : ∀ m, Function.update c.made n true m = false → c.made m = false := fun m hm => by
    by_cases hmn : m = n
    · rw [hmn, Function.update_self] at hm
      cases hm
    · rwa [Function.update_of_ne hmn] at hm
  have hkept : ∀ m, c.made m = true → Function.update c.made n true m = true := fun m hm => by
    by_cases hmn : m = n
    · rw [hmn, Function.update_self]
    · rwa [Function.update_of_ne hmn]
  rw [makeState_eq hn]
  exact { h with
    fresh := fun m hm => { h.fresh m (hmade m hm) with }
    source := fun k x hk => hkept _ (h.source k x hk)
    stored := fun m k hk => { h.stored m k hk with }
    frame := fun u z hz => by
      have hgood := h.frame u z hz
      refine hgood.extend ⟨hkept, fun _ _ => id, fun _ _ => id, fun _ _ => rfl⟩
        (fun r hr => (hgood.returning hr).2) fun k hk => ?_
      exact ⟨hgood.unset hk, rfl⟩ }

/-- `Promise()`. -/
theorem Inv.newPromise (h : Inv none c) (hn : c.made n = false) :
    Inv none (((c.makeState n).setPromise n true).setFuture n true) := by
  have hunused := h.unused hn
  have hinv := h.makeState hunused.state
  have hmade : (c.makeState n).made n = true := Function.update_self ..
  rw [makeState_eq hunused.state] at hinv hmade ⊢
  have hpromise : ∀ m, m ≠ n → Function.update c.promise n true m = c.promise m := fun m hm =>
    Function.update_of_ne hm _ _
  have hfuture : ∀ m, m ≠ n → Function.update c.future n true m = c.future m := fun m hm =>
    Function.update_of_ne hm _ _
  exact { hinv with
    fresh := fun m hm => by
      have hf := hinv.fresh m hm
      have hmn := ne_of_made hm hmade
      exact { hf with
        promise := (hpromise m hmn).trans hf.promise
        future := (hfuture m hmn).trans hf.future }
    stored := fun m k hk => { hinv.stored m k hk with }
    frame := fun u z hz => by
      have hgood := hinv.frame u z hz
      refine hgood.extend ⟨fun _ => id, fun _ _ => id, fun _ _ => id, fun _ _ => rfl⟩ (fun r hr => ?_)
        fun k hk => ?_
      · obtain ⟨-, hlow, hnone⟩ := hgood.returning hr
        have hrn : r ≠ n := fun he => hunused.not_returning (he ▸ hr ▸ ⟨u, mem_tokens hz⟩)
        exact ⟨(hfuture r hrn).trans hlow, hnone⟩
      · exact ⟨hgood.unset hk, rfl⟩
    attached := fun k x hk => by
      have hkn : k ≠ n :=
        fun he => absurd (hunused.continuation.symm.trans (he ▸ hk)) (Option.some_ne_none x).symm
      obtain ⟨hlow, hnone⟩ := h.attached k x hk
      exact ⟨(hpromise k hkn).trans hlow, hnone⟩
    promise := fun m hm => by
      by_cases hmn : m = n
      · subst hmn
        exact ⟨hunused.unset, hunused.fulfilled⟩
      · exact h.promise m ((hpromise m hmn).symm.trans hm)
    future := fun m hm => by
      by_cases hmn : m = n
      · subst hmn
        exact hunused.empty
      · exact h.future m ((hfuture m hmn).symm.trans hm) }

theorem Inv.addContinuation (h : Inv none c) {r : Nat} (hr : Fresh c r) (hmade : c.made r = true)
    {x : Continuation τ ε} (hsource : c.made x.future = true)
    (hreturning : ¬Tokens.Held c.tokens (.returning x.future)) :
    Inv (some r) { c with continuation := Function.update c.continuation r (some x) } := by
  have hself : Function.update c.continuation r (some x) r = some x := Function.update_self ..
  have hother : ∀ k, k ≠ r → Function.update c.continuation r (some x) k = c.continuation k :=
    fun k hk =>
    Function.update_of_ne hk _ _
  have hold : ∀ k y, c.continuation k = some y → Function.update c.continuation r (some x) k = some y :=
    fun k y hk => by
      rw [hother k fun he => absurd (hr.continuation.symm.trans (he ▸ hk)) (Option.some_ne_none y).symm]
      exact hk
  have hcases : ∀ k y, Function.update c.continuation r (some x) k = some y →
      (k = r ∧ y = x) ∨ (k ≠ r ∧ c.continuation k = some y) := fun k y hk => by
    by_cases hkr : k = r
    · subst hkr
      exact .inl ⟨rfl, (Option.some.inj (hself.symm.trans hk)).symm⟩
    · exact .inr ⟨hkr, (hother k hkr).symm.trans hk⟩
  have hextends : Extends c { c with continuation := Function.update c.continuation r (some x) } :=
    ⟨fun _ => id, hold, fun _ _ => id, fun _ _ => rfl⟩
  exact { h with
    fresh := fun m hm => by
      have hf := h.fresh m hm
      exact { hf with continuation := (hother m (ne_of_made hm hmade)).trans hf.continuation }
    source := fun k y hk => by
      rcases hcases k y hk with ⟨-, rfl⟩ | ⟨-, hk⟩
      · exact hsource
      · exact h.source k y hk
    settles := fun m hm => hextends.settles (h.settles m hm)
    stored := fun m k hk => by
      have hs := h.stored m k hk
      obtain ⟨f, hf⟩ := hs.source
      exact { hs with source := ⟨f, hold k _ hf⟩ }
    frame := fun u z hz => by
      have hgood := h.frame u z hz
      refine hgood.extend hextends (fun q hq => ⟨(hgood.returning hq).2.1, fun k y hk => ?_⟩)
        fun k hk => ?_
      · rcases hcases k y hk with ⟨-, rfl⟩ | ⟨-, hk⟩
        · exact fun he => hreturning (he ▸ hq ▸ ⟨u, mem_tokens hz⟩)
        · exact (hgood.returning hq).2.2 k y hk
      · exact ⟨hgood.unset hk, rfl⟩
    placed := fun k y hk => by
      rcases hcases k y hk with ⟨rfl, -⟩ | ⟨-, hk⟩
      · exact .inl rfl
      · exact .inr ((h.placed k y hk).resolve_left (Option.some_ne_none k).symm)
    attached := fun k y hk => by
      rcases hcases k y hk with ⟨rfl, -⟩ | ⟨-, hk⟩
      · exact ⟨hr.promise, hr.fulfilled⟩
      · exact h.attached k y hk
    fulfilled := fun m o hm => .inr ((h.fulfilled m o hm).resolve_left (Option.some_ne_none m).symm)
    invoked := fun k => by
      rcases h.invoked k with hk | ⟨y, hy, hsource, hk⟩
      · exact .inl hk
      · exact .inr ⟨y, hold k y hy, hsource, hk⟩ }

/-- `then` makes a continuation, which is nowhere yet. -/
theorem Inv.makeContinuation (h : Inv none c) {r : Nat} {x : Continuation τ ε}
    (hx : c.future x.future = true)
    (hr : c.made r = false) : Inv (some r) (c.makeContinuation r x) := by
  have hunused := h.unused hr
  have hrx : x.future ≠ r := (ne_of_made hr (h.made_of_future hx)).symm
  have hinv := (h.lowerFuture x.future).makeState (n := r) hunused.state
  have hreturning : ¬Tokens.Held c.tokens (.returning x.future) := fun hheld => by
    obtain ⟨u, hu⟩ := hheld
    obtain ⟨z, hz, hzx⟩ := List.mem_map.mp hu
    exact absurd (((h.frame u z hz).returning hzx).2.1.symm.trans hx) Bool.noConfusion
  rw [Config.makeContinuation]
  rw [makeState_eq (c := c.setFuture x.future false) hunused.state] at hinv ⊢
  refine hinv.addContinuation ?_ (Function.update_self ..) ?_ hreturning
  · exact { hunused.toFresh with future := future_lowered hunused.future }
  · exact (Function.update_of_ne hrx _ _).trans (h.made_of_future hx)

/-- A continuation is stored in its source, which is not set. -/
theorem Inv.store (h : Inv (some k) c) {x : Continuation τ ε} (hx : c.continuation k = some x)
    (hunset : (c.state x.future).isSet = false) (hempty : (c.state x.future).continuation = none)
    (hown : (c.state k).isSet = false) (hinvoked : c.invoked k = [])
    (hheld : ¬Tokens.Held c.tokens (.run k))
    (hfuture : c.future x.future = false) {s : SharedState τ ε}
    (hs : s.toSharedState = (c.state x.future).toSharedState) (hsk : s.continuation = some k) :
    Inv none (c.setState x.future s) := by
  have hshared : ∀ m, ((c.setState x.future s).state m).toSharedState = (c.state m).toSharedState :=
    fun m => by
    by_cases hm : m = x.future
    · rw [hm, state_setState_self, hs]
    · rw [state_setState_ne hm]
  have hset : ∀ m, ((c.setState x.future s).state m).isSet = (c.state m).isSet := fun m =>
    congrArg Future.SharedState.isSet (hshared m)
  have hsame : ∀ m, (c.state m).isSet = true → (c.setState x.future s).state m = c.state m := fun m hm =>
    state_setState_ne (fun he => absurd (hunset.symm.trans (he ▸ hm)) Bool.noConfusion) s
  have hinv : Inv (some k) (c.setState x.future s) := { h with
    fresh := fun m hm => by
      have hf := h.fresh m hm
      exact { hf with state := (state_setState_ne (ne_of_made hm (h.source k x hx)) s).trans hf.state }
    unset := fun m hm => (hshared m).trans (h.unset m ((hset m).symm.trans hm))
    settles := fun m hm => by
      have hm := (hset m).symm.trans hm
      rw [hsame m hm]
      exact h.settles m hm
    stored := fun m j hj => by
      by_cases hm : m = x.future
      · subst hm
        rw [state_setState_self, hsk] at hj
        cases hj
        exact ⟨⟨x.function, hx⟩, (hset _).trans hunset, (hset k).trans hown, hinvoked, hheld⟩
      · rw [state_setState_ne hm] at hj
        have hstored := h.stored m j hj
        exact { hstored with
          unset := (hset m).trans hstored.unset
          unset_own := (hset j).trans hstored.unset_own }
    frame := fun u z hz => by
      have hgood := h.frame u z hz
      refine hgood.extend ⟨fun _ => id, fun _ _ => id, fun _ _ => id, hsame⟩
        (fun r hr => (hgood.returning hr).2) fun j hj => ?_
      exact ⟨(hset j).trans (hgood.unset hj), rfl⟩
    placed := fun j y hj => by
      rcases h.placed j y hj with hhole | hplaced | hplaced | hplaced
      · exact .inl hhole
      · refine .inr (.inl ?_)
        rw [state_setState_ne fun he => by rw [he, hempty] at hplaced; cases hplaced]
        exact hplaced
      · exact .inr (.inr (.inl hplaced))
      · exact .inr (.inr (.inr ⟨(hset j).trans hplaced.1, hplaced.2⟩))
    promise := fun m hm => ⟨(hset m).trans (h.promise m hm).1, (h.promise m hm).2⟩
    fulfilled := fun m o hm => (h.fulfilled m o hm).imp_right (hset m).trans
    future := fun m hm => by
      have hmx : m ≠ x.future := fun he => absurd (hfuture.symm.trans (he ▸ hm)) Bool.noConfusion
      rw [state_setState_ne hmx]
      exact h.future m hm
    invoked := fun j => by
      rcases h.invoked j with hj | ⟨y, hy, hsource, hj⟩
      · exact .inl hj
      · exact .inr ⟨y, hy, (hset _).trans hsource, hj.trans (by rw [hsame _ hsource])⟩ }
  refine hinv.fill hx (.inl ?_)
  rw [state_setState_self]
  exact hsk

/-- A continuation that is nowhere yet is run at once, or stored. -/
theorem Inv.place (h : Inv (some k) c) {x : Continuation τ ε} (hx : c.continuation k = some x)
    (hempty : (c.state x.future).continuation = none) (hown : (c.state k).isSet = false)
    (hinvoked : c.invoked k = []) (hheld : ¬Tokens.Held c.tokens (.run k))
    (hstored : ∀ m, (c.state m).continuation ≠ some k) (hfuture : c.future x.future = false) (t : Nat) :
    (c.attach t x.future k).Ok (Inv none) := by
  cases hset : (c.state x.future).isSet with
  | true =>
    have hsame : c.setState x.future (c.state x.future) = c :=
      by rw [Config.setState, Function.update_eq_self]
    rw [Config.attach, SharedState.attach_set hset hempty]
    simp only [next_bind, pure_eq, ok_next, hsame]
    refine h.runNext (fun j hj => ?_) t
    cases hj
    exact ⟨⟨x, hx, hset, hown⟩, hinvoked, hheld, hstored⟩
  | false =>
    rw [Config.attach, SharedState.attach_unset hset hempty]
    exact h.store hx hset hempty hown hinvoked hheld hfuture rfl rfl

/-- A thread calls `then`. -/
theorem Inv.attach (h : Inv none c) {r : Nat} {x : Continuation τ ε} (hx : c.future x.future = true)
    (hr : c.made r = false) (t : Nat) :
    (((c.makeContinuation r x).push t (.returning r)).attach t x.future r).Ok (Inv none) := by
  have hunused := h.unused hr
  have hxr : x.future ≠ r := (ne_of_made hr (h.made_of_future hx)).symm
  have hmade := h.makeContinuation hx hr
  have hstate : (c.makeContinuation r x).state = c.state := by
    rw [Config.makeContinuation, makeState_eq (c := c.setFuture x.future false) hunused.state]
    rfl
  have hattached : (c.makeContinuation r x).continuation r = some x := Function.update_self ..
  have hnone : ∀ k y, (c.makeContinuation r x).continuation k = some y → y.future ≠ r := fun k y hk => by
    by_cases hkr : k = r
    · subst hkr
      cases hattached.symm.trans hk
      exact hxr
    · exact hunused.not_source k y ((Function.update_of_ne hkr _ _).symm.trans hk)
  have hgood : Good (c.makeContinuation r x) (.returning r) :=
    ⟨Function.update_self .., future_lowered hunused.future, hnone⟩
  have hpush := hmade.push hgood hunused.not_returning (fun _ _ he => Token.noConfusion he) t
  refine hpush.place hattached ?_ ?_ hunused.invoked ?_ ?_ (Function.update_self ..) t
  · exact (congrArg (fun f => (f x.future).continuation) hstate).trans (h.future x.future hx)
  · exact (congrArg (fun f => (f r).isSet) hstate).trans hunused.unset
  · have htoks : ((c.makeContinuation r x).push t (.returning r)).tokens =
        Function.update c.tokens t (.returning r :: c.tokens t) := tokens_setThread ..
    rw [htoks, Tokens.held_push]
    exact fun hheld => hheld.elim Token.noConfusion hunused.not_held
  · intro m hm
    obtain ⟨f, hf⟩ :=
      (h.stored m r ((congrArg (fun f => (f m).continuation) hstate).symm.trans hm)).source
    exact absurd (hunused.continuation.symm.trans hf) (Option.some_ne_none _).symm

end FutureThen
