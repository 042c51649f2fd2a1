/-
What holds between the steps of the threads.

`Settles` is what every state is set to in the end, by what is attached and what
is fulfilled, in whatever order. `Inv` says where each continuation is: stored in
its source, which is not set yet; in one frame of one thread; or done, with its
state set. Between the two halves of a step the continuation that is on its way
is nowhere (`hole`).
-/
import CxxHeaders.FutureThen
import CxxHeaders.Tokens

open Outcome

namespace FutureThen

open Future (Exception)

variable {τ ε : Type}

/-! ## What comes out -/

/-- What the end of a function makes of the future that `then` returned, unless
it is a future again. -/
inductive Ends : Return τ ε → Result τ ε → Prop
  | value (v : τ) : Ends (.value v) (.value v)
  | void : Ends .void .ready
  | throws (e : Exception ε) : Ends (.throws e) (.exception e)
  | invalidFuture : Ends .invalidFuture (.exception .brokenPromise)

/-- What a state is set to, in whatever order. -/
inductive Settles (attached : Nat → Option (Continuation τ ε)) (fulfilled : Nat → Option (Result τ ε)) :
    Nat → Result τ ε → Prop
  | promise {n o} : fulfilled n = some o → Settles attached fulfilled n o
  | ends {k x o o'} : attached k = some x → Settles attached fulfilled x.future o →
      Ends (x.function o) o' → Settles attached fulfilled k o'
  /-- A future that is returned is unwrapped. -/
  | unwraps {k x o m o'} : attached k = some x → Settles attached fulfilled x.future o →
      x.function o = .future m → Settles attached fulfilled m o' → Settles attached fulfilled k o'

theorem Ends.unique {r : Return τ ε} {o o' : Result τ ε} (h : Ends r o) (h' : Ends r o') : o = o' := by
  cases h <;> cases h' <;> rfl

variable {attached attached' : Nat → Option (Continuation τ ε)}
  {fulfilled fulfilled' : Nat → Option (Result τ ε)}

/-- There is only one way. -/
theorem Settles.unique (hpromise : ∀ k x, attached k = some x → fulfilled k = none) {n : Nat}
    {o o' : Result τ ε}
    (h : Settles attached fulfilled n o) (h' : Settles attached fulfilled n o') : o = o' := by
  induction h generalizing o' with
  | promise hn =>
    cases h' with
    | promise hn' => exact Option.some.inj (hn.symm.trans hn')
    | ends hk => exact absurd (hn.symm.trans (hpromise _ _ hk)) (Option.some_ne_none _)
    | unwraps hk => exact absurd (hn.symm.trans (hpromise _ _ hk)) (Option.some_ne_none _)
  | ends hk _ hend ih =>
    cases h' with
    | promise hn => exact absurd (hn.symm.trans (hpromise _ _ hk)) (Option.some_ne_none _)
    | ends hk' hsource hend' =>
      cases hk.symm.trans hk'
      cases ih hsource
      exact hend.unique hend'
    | unwraps hk' hsource hfuture =>
      cases hk.symm.trans hk'
      cases ih hsource
      rw [hfuture] at hend
      cases hend
  | unwraps hk _ hfuture _ ih ihm =>
    cases h' with
    | promise hn => exact absurd (hn.symm.trans (hpromise _ _ hk)) (Option.some_ne_none _)
    | ends hk' hsource hend =>
      cases hk.symm.trans hk'
      cases ih hsource
      rw [hfuture] at hend
      cases hend
    | unwraps hk' hsource hfuture' hm =>
      cases hk.symm.trans hk'
      cases ih hsource
      cases hfuture.symm.trans hfuture'
      exact ihm hm

theorem Settles.mono (ha : ∀ k x, attached k = some x → attached' k = some x)
    (hf : ∀ n o, fulfilled n = some o → fulfilled' n = some o) {n : Nat} {o : Result τ ε}
    (h : Settles attached fulfilled n o) : Settles attached' fulfilled' n o := by
  induction h with
  | promise hn => exact .promise (hf _ _ hn)
  | ends hk _ hend ih => exact .ends (ha _ _ hk) ih hend
  | unwraps hk _ hfuture _ ih ihm => exact .unwraps (ha _ _ hk) ih hfuture ihm

/-! ## Shared states -/

theorem SharedState.set_spec {s : SharedState τ ε} (hs : s.toSharedState = .new) (o : Result τ ε) :
    ∃ s', s.set o = .next (s.continuation, s') ∧ s'.isSet = true ∧ s'.takeValue = o ∧
      s'.continuation = none := by
  obtain ⟨state, continuation⟩ := s
  subst hs
  cases o <;> exact ⟨_, rfl, rfl, rfl, rfl⟩

theorem SharedState.attach_set {s : SharedState τ ε} (hs : s.isSet = true)
    (hc : s.continuation = none) (k : Nat) :
    s.attach k = .next (some k, s) := by
  simp [SharedState.attach, asserting, hc, hs]

theorem SharedState.attach_unset {s : SharedState τ ε} (hs : s.isSet = false)
    (hc : s.continuation = none)
    (k : Nat) : s.attach k = .next (none, { s with continuation := some k }) := by
  simp [SharedState.attach, asserting, hc, hs]

/-! ## Frames -/

/-- What a frame is the only one to have: the future that is not returned yet, or
the continuation. -/
inductive Token where
  | returning (r : Nat)
  | run (k : Nat)

def Frame.token : Frame τ ε → Token
  | .returning r => .returning r
  | .run k | .call k | .wait k _ | .set k _ => .run k

def Config.tokens (c : Config τ ε) (t : Nat) : List Token := (c.thread t).map Frame.token

/-- A continuation on its way: its source is set, and its own state is not. -/
def InHand (c : Config τ ε) (k : Nat) : Prop :=
  ∃ x, c.continuation k = some x ∧ (c.state x.future).isSet = true ∧ (c.state k).isSet = false

def Good (c : Config τ ε) : Frame τ ε → Prop
  | .returning r => c.made r = true ∧ c.future r = false ∧
      ∀ k x, c.continuation k = some x → x.future ≠ r
  | .run k => InHand c k ∧ c.invoked k = []
  | .call k => InHand c k ∧ c.invoked k ≠ []
  | .wait k m => InHand c k ∧ c.invoked k ≠ [] ∧
      ∃ x, c.continuation k = some x ∧ x.function (c.state x.future).takeValue = .future m
  | .set k o => InHand c k ∧ c.invoked k ≠ [] ∧ Settles c.continuation c.fulfilled k o

/-- Nothing has the name. -/
structure Fresh (c : Config τ ε) (n : Nat) : Prop where
  state : c.state n = .new
  promise : c.promise n = false
  future : c.future n = false
  continuation : c.continuation n = none
  fulfilled : c.fulfilled n = none
  invoked : c.invoked n = []

theorem Fresh.unset {c : Config τ ε} {n : Nat} (h : Fresh c n) : (c.state n).isSet = false := by
  rw [h.state]
  rfl

theorem Fresh.empty {c : Config τ ε} {n : Nat} (h : Fresh c n) : (c.state n).continuation = none := by
  rw [h.state]
  rfl

/-- A continuation in its source. -/
structure Stored (c : Config τ ε) (n k : Nat) : Prop where
  source : ∃ f, c.continuation k = some ⟨f, n⟩
  unset : (c.state n).isSet = false
  unset_own : (c.state k).isSet = false
  invoked : c.invoked k = []
  not_held : ¬Tokens.Held c.tokens (.run k)

/-- Where a continuation is that was attached to `n`. -/
def Placed (c : Config τ ε) (n k : Nat) : Prop :=
  (c.state n).continuation = some k ∨ Tokens.Held c.tokens (.run k) ∨
    ((c.state k).isSet = true ∧ c.invoked k ≠ [])

structure Inv (hole : Option Nat) (c : Config τ ε) : Prop where
  unique : Tokens.Unique c.tokens
  fresh : ∀ n, c.made n = false → Fresh c n
  source : ∀ k x, c.continuation k = some x → c.made x.future = true
  unset : ∀ n, (c.state n).isSet = false → (c.state n).toSharedState = .new
  settles : ∀ n, (c.state n).isSet = true → Settles c.continuation c.fulfilled n (c.state n).takeValue
  stored : ∀ n k, (c.state n).continuation = some k → Stored c n k
  frame : ∀ t x, x ∈ c.thread t → Good c x
  placed : ∀ k x, c.continuation k = some x → hole = some k ∨ Placed c x.future k
  attached : ∀ k x, c.continuation k = some x → c.promise k = false ∧ c.fulfilled k = none
  promise : ∀ n, c.promise n = true → (c.state n).isSet = false ∧ c.fulfilled n = none
  fulfilled : ∀ n o, c.fulfilled n = some o → hole = some n ∨ (c.state n).isSet = true
  future : ∀ n, c.future n = true → (c.state n).continuation = none
  invoked : ∀ k, c.invoked k = [] ∨ ∃ x, c.continuation k = some x ∧ (c.state x.future).isSet = true ∧
    c.invoked k = [(x.future, c.state x.future)]

variable {c : Config τ ε} {hole : Option Nat} {t n k : Nat} {o : Result τ ε}

theorem tokens_setThread (c : Config τ ε) (t : Nat) (stack : List (Frame τ ε)) :
    (c.setThread t stack).tokens = Function.update c.tokens t (stack.map Frame.token) := by
  funext u
  by_cases hut : u = t
  · simp [Config.tokens, Config.setThread, hut]
  · simp [Config.tokens, Config.setThread, Function.update_of_ne hut]

theorem thread_setThread (c : Config τ ε) (t : Nat) (stack : List (Frame τ ε)) :
    (c.setThread t stack).thread = Function.update c.thread t stack := rfl

theorem future_setFuture (c : Config τ ε) (n : Nat) (valid : Bool) :
    (c.setFuture n valid).future = Function.update c.future n valid := rfl

theorem mem_tokens {x : Frame τ ε} (h : x ∈ c.thread t) : x.token ∈ c.tokens t := List.mem_map_of_mem h

theorem mem_setThread {u : Nat} {x z : Frame τ ε} {stack : List (Frame τ ε)}
    (h : z ∈ (c.setThread t (x :: stack)).thread u) : z = x ∨ z ∈ (c.setThread t stack).thread u := by
  by_cases hut : u = t
  · subst hut
    rw [thread_setThread, Function.update_self] at h ⊢
    exact List.mem_cons.mp h
  · rw [thread_setThread, Function.update_of_ne hut] at h ⊢
    exact .inr h

theorem mem_push {u : Nat} {x z : Frame τ ε} (h : z ∈ (c.push t x).thread u) :
    z = x ∨ z ∈ c.thread u := by
  rcases mem_setThread h with hz | hz
  · exact .inl hz
  · rw [thread_setThread, Function.update_eq_self] at hz
    exact .inr hz

/-- The frames that are left have other tokens. -/
theorem Inv.mem_pop (h : Inv hole c) {x z : Frame τ ε} {rest : List (Frame τ ε)}
    (ht : c.thread t = x :: rest) {u : Nat} (hz : z ∈ (c.setThread t rest).thread u) :
    z ∈ c.thread u ∧ z.token ≠ x.token := by
  have htoks : c.tokens t = x.token :: rest.map Frame.token := by rw [Config.tokens, ht, List.map_cons]
  have hmem : z.token ∈ (c.setThread t rest).tokens u := List.mem_map_of_mem hz
  rw [tokens_setThread] at hmem
  refine ⟨?_, h.unique.ne_of_mem_pop htoks hmem⟩
  by_cases hut : u = t
  · subst hut
    rw [thread_setThread, Function.update_self] at hz
    rw [ht]
    exact List.mem_cons_of_mem x hz
  · rwa [thread_setThread, Function.update_of_ne hut] at hz

/-- `c'` has all that is in `c`, and the states that were set have not changed. -/
structure Extends (c c' : Config τ ε) : Prop where
  made : ∀ n, c.made n = true → c'.made n = true
  continuation : ∀ k x, c.continuation k = some x → c'.continuation k = some x
  fulfilled : ∀ n o, c.fulfilled n = some o → c'.fulfilled n = some o
  state : ∀ n, (c.state n).isSet = true → c'.state n = c.state n

theorem Extends.settles {c' : Config τ ε} (he : Extends c c')
    (h : Settles c.continuation c.fulfilled n o) : Settles c'.continuation c'.fulfilled n o :=
  h.mono he.continuation he.fulfilled

theorem InHand.extend {c' : Config τ ε} (h : InHand c k) (he : Extends c c')
    (hk : (c'.state k).isSet = false) : InHand c' k := by
  obtain ⟨x, hx, hsource, -⟩ := h
  refine ⟨x, he.continuation k x hx, ?_, hk⟩
  rw [he.state _ hsource]
  exact hsource

theorem Good.extend {c' : Config τ ε} {z : Frame τ ε} (h : Good c z) (he : Extends c c')
    (hreturning : ∀ r, z.token = .returning r →
      c'.future r = false ∧ ∀ k x, c'.continuation k = some x → x.future ≠ r)
    (hrun : ∀ k, z.token = .run k → (c'.state k).isSet = false ∧ c'.invoked k = c.invoked k) :
    Good c' z := by
  cases z with
  | returning r => exact ⟨he.made r h.1, hreturning r rfl⟩
  | run k =>
    obtain ⟨hunset, hinvoked⟩ := hrun k rfl
    exact ⟨h.1.extend he hunset, hinvoked.trans h.2⟩
  | call k =>
    obtain ⟨hunset, hinvoked⟩ := hrun k rfl
    exact ⟨h.1.extend he hunset, hinvoked ▸ h.2⟩
  | wait k m =>
    obtain ⟨hunset, hinvoked⟩ := hrun k rfl
    obtain ⟨hin, hcalled, x, hx, hfuture⟩ := h
    have hin' := hin.extend he hunset
    obtain ⟨y, hy, hsource, -⟩ := hin
    cases hx.symm.trans hy
    refine ⟨hin', hinvoked ▸ hcalled, x, he.continuation k x hx, ?_⟩
    rwa [he.state _ hsource]
  | set k o =>
    obtain ⟨hunset, hinvoked⟩ := hrun k rfl
    exact ⟨h.1.extend he hunset, hinvoked ▸ h.2.1, he.settles h.2.2⟩

theorem Good.inHand {x : Frame τ ε} (h : Good c x) (hx : x.token = .run k) : InHand c k := by
  cases x with
  | returning r => cases hx
  | run => cases hx; exact h.1
  | call => cases hx; exact h.1
  | wait => cases hx; exact h.1
  | set => cases hx; exact h.1

theorem Good.unset {x : Frame τ ε} (h : Good c x) (hx : x.token = .run k) :
    (c.state k).isSet = false := by
  obtain ⟨-, -, -, hunset⟩ := h.inHand hx
  exact hunset

theorem Good.returning {x : Frame τ ε} {r : Nat} (h : Good c x) (hx : x.token = .returning r) :
    Good c (.returning r) := by
  cases x with
  | returning => cases hx; exact h
  | _ => cases hx

theorem Inv.not_stored (h : Inv hole c) (hn : (c.state n).isSet = true) :
    (c.state n).continuation = none := by
  cases hs : (c.state n).continuation with
  | none => rfl
  | some k => exact absurd (hn.symm.trans (h.stored n k hs).unset) Bool.noConfusion

theorem ne_of_made {m : Nat} (hm : c.made m = false) (hn : c.made n = true) : m ≠ n := fun he =>
  absurd (hn.symm.trans (he ▸ hm)) Bool.noConfusion

theorem Inv.made_of_attached (h : Inv hole c) {x : Continuation τ ε} (hk : c.continuation k = some x) :
    c.made k = true := by
  cases hm : c.made k with
  | true => rfl
  | false => exact absurd ((h.fresh k hm).continuation.symm.trans hk) (Option.some_ne_none x).symm

/-! ## One frame for another -/

theorem tokens_replace {x y : Frame τ ε} {rest : List (Frame τ ε)} (ht : c.thread t = x :: rest)
    (hy : y.token = x.token) : (c.setThread t (y :: rest)).tokens = c.tokens := by
  rw [tokens_setThread, Function.update_eq_self_iff, Config.tokens, ht, List.map_cons, List.map_cons, hy]

/-- A thread goes on in the same function. -/
theorem Inv.replace (h : Inv none c) {x y : Frame τ ε} {rest : List (Frame τ ε)}
    (ht : c.thread t = x :: rest) (hy : y.token = x.token) (hgood : Good c y) :
    Inv none (c.setThread t (y :: rest)) := by
  have htoks := tokens_replace ht hy
  exact { h with
    unique := htoks ▸ h.unique
    fresh := fun n hn => { h.fresh n hn with }
    stored := fun n k hk => { h.stored n k hk with not_held := htoks ▸ (h.stored n k hk).not_held }
    frame := fun u z hz => by
      rcases mem_setThread hz with rfl | hmem
      · exact hgood
      · exact h.frame u z (h.mem_pop ht hmem).1
    placed := fun k x hk => by
      have hplaced := h.placed k x hk
      unfold Placed at hplaced ⊢
      rwa [htoks] }

theorem future_lowered {m : Nat} (h : c.future m = false) : (c.setFuture n false).future m = false := by
  by_cases hmn : m = n
  · rw [future_setFuture, hmn, Function.update_self]
  · rwa [future_setFuture, Function.update_of_ne hmn]

theorem Extends.setFuture (c : Config τ ε) (n : Nat) (valid : Bool) :
    Extends c (c.setFuture n valid) where
  made _ := id
  continuation _ _ := id
  fulfilled _ _ := id
  state _ _ := rfl

/-- A future is taken up. -/
theorem Inv.lowerFuture (h : Inv none c) (n : Nat) : Inv none (c.setFuture n false) :=
  { h with
    fresh := fun m hm => { h.fresh m hm with future := future_lowered (h.fresh m hm).future }
    stored := fun m k hk => { h.stored m k hk with }
    frame := fun u z hz => by
      have hgood := h.frame u z hz
      refine hgood.extend (.setFuture c n false) ?_ ?_
      · intro r hr
        exact ⟨future_lowered (hgood.returning hr).2.1, (hgood.returning hr).2.2⟩
      · exact fun k hk => ⟨hgood.unset hk, rfl⟩
    future := fun m hm => by
      cases hv : c.future m with
      | true => exact h.future m hv
      | false => exact absurd (hm.symm.trans (future_lowered hv)) Bool.noConfusion }

theorem future_raised {m : Nat} (h : c.future m = false) (hmn : m ≠ n) :
    (c.setFuture n true).future m = false := by
  rwa [future_setFuture, Function.update_of_ne hmn]

/-- The function of a continuation is called. -/
theorem Inv.call (h : Inv none c) {x : Continuation τ ε} {rest : List (Frame τ ε)}
    (ht : c.thread t = .run k :: rest) (hx : c.continuation k = some x) :
    Inv none ((c.setThread t (.call k :: rest)).invoke k x.future) := by
  have htop : .run k ∈ c.thread t := ht ▸ List.mem_cons_self
  obtain ⟨hin, hinvoked⟩ := h.frame t (.run k) htop
  obtain ⟨y, hy, hsource, hunset⟩ := hin
  cases hx.symm.trans hy
  have hheld : Tokens.Held c.tokens (.run k) := ⟨t, mem_tokens htop⟩
  have htoks := tokens_replace (y := .call k) ht rfl
  have hother : ∀ j, j ≠ k →
      Function.update c.invoked k (c.invoked k ++ [(x.future, c.state x.future)]) j = c.invoked j :=
    fun j hj => Function.update_of_ne hj _ _
  have hcalled : Function.update c.invoked k (c.invoked k ++ [(x.future, c.state x.future)]) k =
      [(x.future, c.state x.future)] := by rw [Function.update_self, hinvoked, List.nil_append]
  exact { h with
    unique := htoks ▸ h.unique
    fresh := fun m hm => by
      have hf := h.fresh m hm
      have hk := ne_of_made hm (h.made_of_attached hx)
      have hs := ne_of_made hm (h.source k x hx)
      exact { hf with future := future_raised hf.future hs, invoked := (hother m hk).trans hf.invoked }
    stored := fun m j hj => by
      have hstored := h.stored m j hj
      have hjk : j ≠ k := fun he => hstored.not_held (he ▸ hheld)
      exact { hstored with
        invoked := (hother j hjk).trans hstored.invoked
        not_held := htoks ▸ hstored.not_held }
    frame := fun u z hz => by
      rcases mem_setThread hz with rfl | hmem
      · exact ⟨⟨x, hx, hsource, hunset⟩, fun he => absurd (hcalled.symm.trans he) (List.cons_ne_nil _ _)⟩
      · obtain ⟨hz, hne⟩ := h.mem_pop ht hmem
        have hgood := h.frame u z hz
        refine hgood.extend ⟨fun _ => id, fun _ _ => id, fun _ _ => id, fun _ _ => rfl⟩ ?_ ?_
        · intro r hr
          obtain ⟨-, hlow, hnone⟩ := hgood.returning hr
          exact ⟨future_raised hlow fun he => hnone k x hx he.symm, hnone⟩
        · intro j hj
          exact ⟨hgood.unset hj, hother j fun he => hne (hj.trans (congrArg Token.run he))⟩
    placed := fun j y hj => by
      rcases h.placed j y hj with hhole | hplaced | hplaced | ⟨hset, hcalled'⟩
      · cases hhole
      · exact .inr (.inl hplaced)
      · exact .inr (.inr (.inl (htoks ▸ hplaced)))
      · have hjk : j ≠ k := fun he => by
          rw [he, hunset] at hset
          cases hset
        exact .inr (.inr (.inr ⟨hset, fun he => hcalled' ((hother j hjk).symm.trans he)⟩))
    future := fun m hm => by
      -- The future that is handed over is that of a state which is set: nothing is stored there.
      by_cases hmx : m = x.future
      · rw [hmx]
        exact h.not_stored hsource
      · refine h.future m ?_
        rw [← hm]
        exact (Function.update_of_ne hmx _ _).symm
    invoked := fun j => by
      by_cases hjk : j = k
      · subst hjk
        exact .inr ⟨x, hx, hsource, hcalled⟩
      · have hj := h.invoked j
        rwa [← hother j hjk] at hj }

/-- `Future::then` returns. -/
theorem Inv.returned (h : Inv none c) {r : Nat} {rest : List (Frame τ ε)}
    (ht : c.thread t = .returning r :: rest) : Inv none ((c.setThread t rest).setFuture r true) := by
  obtain ⟨hmade, hlow, hnone⟩ := h.frame t (.returning r) (ht ▸ List.mem_cons_self)
  have htoks : c.tokens t = .returning r :: rest.map Frame.token := by rw [Config.tokens, ht]; rfl
  have hheld : ∀ j, Tokens.Held (c.setThread t rest).tokens (.run j) ↔ Tokens.Held c.tokens (.run j) :=
    fun j => by
      rw [tokens_setThread, h.unique.held_pop htoks]
      exact and_iff_left Token.noConfusion
  exact { h with
    unique := by
      have hpop := h.unique.pop htoks
      rwa [← tokens_setThread] at hpop
    fresh := fun m hm => by
      have hf := h.fresh m hm
      exact { hf with future := future_raised hf.future (ne_of_made hm hmade) }
    stored := fun m j hj =>
      { h.stored m j hj with not_held := fun hh => (h.stored m j hj).not_held ((hheld j).mp hh) }
    frame := fun u z hz => by
      obtain ⟨hz, hne⟩ := h.mem_pop ht hz
      have hgood := h.frame u z hz
      refine hgood.extend ⟨fun _ => id, fun _ _ => id, fun _ _ => id, fun _ _ => rfl⟩ ?_ ?_
      · intro q hq
        obtain ⟨-, hlow, hnone⟩ := hgood.returning hq
        exact ⟨future_raised hlow fun he => hne (hq.trans (congrArg Token.returning he)), hnone⟩
      · exact fun j hj => ⟨hgood.unset hj, rfl⟩
    placed := fun j y hj => by
      rcases h.placed j y hj with hhole | hplaced | hplaced | hplaced
      · cases hhole
      · exact .inr (.inl hplaced)
      · exact .inr (.inr (.inl ((hheld j).mpr hplaced)))
      · exact .inr (.inr (.inr hplaced))
    future := fun m hm => by
      by_cases hmr : m = r
      · subst hmr
        -- Nobody had the future before, to call `then` of it.
        cases hs : (c.state m).continuation with
        | none => exact hs
        | some j =>
          obtain ⟨f, hf⟩ := (h.stored m j hs).source
          exact absurd rfl (hnone j _ hf)
      · refine h.future m ?_
        rw [← hm]
        exact (Function.update_of_ne hmr _ _).symm }

end FutureThen
