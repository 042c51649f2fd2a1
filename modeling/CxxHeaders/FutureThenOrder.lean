/-
The order does not matter (`orderIndependent`): no assertion fails, each
continuation is called once its source is set, and completed runs in which the
same is attached and fulfilled end with the same values and exceptions.
-/
import CxxHeaders.FutureThenSteps

open Outcome

namespace FutureThen

variable {τ ε : Type} {c : Config τ ε} {t n k : Nat} {o : Result τ ε}

/-! ## Steps -/

/-- What a function returns or throws, unless it is a future. -/
theorem Inv.ends (h : Inv none c) {x : Continuation τ ε} {rest : List (Frame τ ε)}
    (ht : c.thread t = .call k :: rest) (hx : c.continuation k = some x)
    (hend : Ends (x.function (c.state x.future).takeValue) o) :
    Inv none (c.setThread t (.set k o :: rest)) := by
  obtain ⟨hin, hinvoked⟩ := h.frame t (.call k) (ht ▸ List.mem_cons_self)
  obtain ⟨y, hy, hsource, -⟩ := id hin
  cases hx.symm.trans hy
  exact h.replace ht rfl ⟨hin, hinvoked, .ends hx (h.settles x.future hsource) hend⟩

theorem Inv.go (h : Inv none c) (t : Nat) : (go c t (c.thread t)).Ok (Inv none) := by
  cases ht : c.thread t with
  | nil => trivial
  | cons frame rest =>
    have hgood := h.frame t frame (ht ▸ List.mem_cons_self)
    cases frame with
    | returning r => exact h.returned ht
    | run k =>
      obtain ⟨x, hx, -⟩ := hgood.1
      simp only [FutureThen.go, hx]
      exact h.call ht hx
    | call k =>
      obtain ⟨x, hx, hsource, -⟩ := id hgood.1
      simp only [FutureThen.go, hx]
      split
      · next v hv => exact h.ends ht hx (hv ▸ .value v)
      · next hv => exact h.ends ht hx (hv ▸ .void)
      · next e hv => exact h.ends ht hx (hv ▸ .throws e)
      · next m hv =>
        simp only [ok_bind, ok_requiring]
        intro _
        exact (h.replace (y := .wait k m) ht rfl ⟨hgood.1, hgood.2, x, hx, hv⟩).lowerFuture m
      · next hv => exact h.ends ht hx (hv ▸ .invalidFuture)
    | wait k m =>
      obtain ⟨hin, hinvoked, x, hx, hfuture⟩ := hgood
      obtain ⟨y, hy, hsource, -⟩ := id hin
      cases hx.symm.trans hy
      simp only [FutureThen.go, ok_bind, ok_requiring]
      intro hm
      have hsettles : Settles c.continuation c.fulfilled k (c.state m).takeValue :=
        .unwraps hx (h.settles x.future hsource) hfuture (h.settles m hm)
      exact h.replace ht rfl ⟨hin, hinvoked, hsettles⟩
    | set k o => exact h.set ht

theorem Inv.next (h : Inv none c) (a : Act τ ε) : (next c a).Ok (Inv none) := by
  cases a with
  | promise n =>
    simp only [FutureThen.next, ok_bind, ok_requiring]
    intro hn
    exact h.newPromise (Bool.eq_false_iff.mpr hn)
  | fulfil t n o =>
    simp only [FutureThen.next, ok_bind, ok_requiring]
    intro hn
    exact h.fulfil hn.2 t o
  | attach t n r function =>
    simp only [FutureThen.next, ok_bind, ok_requiring]
    intro hn
    exact h.attach (x := ⟨function, n⟩) hn.2.1 (Bool.eq_false_iff.mpr hn.2.2) t
  | takeValue n =>
    simp only [FutureThen.next, ok_bind, ok_requiring]
    intro _
    exact h.lowerFuture n
  | destroyFuture n =>
    simp only [FutureThen.next, ok_bind, ok_requiring]
    intro _
    exact h.lowerFuture n
  | go t => exact h.go t

theorem init_inv : Inv none (init : Config τ ε) where
  unique := ⟨fun _ => List.nodup_nil, fun _ _ _ h => by cases h⟩
  fresh _ _ := ⟨rfl, rfl, rfl, rfl, rfl, rfl⟩
  source _ _ h := by cases h
  unset _ _ := rfl
  settles _ h := by cases h
  stored _ _ h := by cases h
  frame _ _ h := by cases h
  placed _ _ h := by cases h
  attached _ _ h := by cases h
  promise _ h := by cases h
  fulfilled _ _ h := by cases h
  future _ h := by cases h
  invoked _ := .inl rfl

/-! ## Completed runs -/

theorem reachable_inv (h : Runs.Reachable next (· = init) c) : Inv none c :=
  h.invariant (fun _ hi => hi ▸ init_inv) fun _ a hc => hc.next a

/-- No thread is in one of the functions any more. -/
def Completed (c : Config τ ε) : Prop := ∀ t, c.thread t = []

/-- Nothing is left undone. -/
theorem Inv.done (h : Inv none c) (hc : Completed c) {x : Continuation τ ε}
    (hk : c.continuation k = some x)
    (hsource : (c.state x.future).isSet = true) : (c.state k).isSet = true ∧ c.invoked k ≠ [] := by
  rcases h.placed k x hk with hhole | hplaced | ⟨u, hu⟩ | hdone
  · cases hhole
  · exact absurd ((h.not_stored hsource).symm.trans hplaced) (Option.some_ne_none k).symm
  · rw [Config.tokens, hc u] at hu
    cases hu
  · exact hdone

theorem Inv.isSet_of_settles (h : Inv none c) (hc : Completed c)
    (hs : Settles c.continuation c.fulfilled n o) : (c.state n).isSet = true := by
  induction hs with
  | promise hn => exact (h.fulfilled _ _ hn).resolve_left (Option.some_ne_none _).symm
  | ends hk _ _ ih => exact (h.done hc hk ih).1
  | unwraps hk _ _ _ ih _ => exact (h.done hc hk ih).1

theorem Inv.settled_iff (h : Inv none c) (hc : Completed c) :
    (c.state n).isSet = true ∧ (c.state n).takeValue = o ↔ Settles c.continuation c.fulfilled n o := by
  constructor
  · intro hset
    obtain ⟨hset, rfl⟩ := hset
    exact h.settles n hset
  · intro hs
    have hset := h.isSet_of_settles hc hs
    exact ⟨hset, (h.settles n hset).unique (fun k x hk => (h.attached k x hk).2) hs⟩

theorem Inv.once (h : Inv none c) (k : Nat) : (c.invoked k).length ≤ 1 := by
  rcases h.invoked k with hk | ⟨x, -, -, hk⟩
  · rw [hk]
    exact Nat.zero_le 1
  · rw [hk]
    exact Nat.le_refl 1

/-- Two completed runs with the same attachments and fulfilments. -/
theorem Inv.independent {d : Config τ ε} (hc : Inv none c) (hd : Inv none d) (hcc : Completed c)
    (hdc : Completed d) (ha : d.continuation = c.continuation) (hf : d.fulfilled = c.fulfilled)
    (n : Nat) :
    (d.state n).isSet = (c.state n).isSet ∧ (d.state n).takeValue = (c.state n).takeValue := by
  have hiff : ∀ o, (d.state n).isSet = true ∧ (d.state n).takeValue = o ↔
      (c.state n).isSet = true ∧ (c.state n).takeValue = o := fun o => by
    rw [hd.settled_iff hdc, hc.settled_iff hcc, ha, hf]
  cases hset : (c.state n).isSet with
  | true =>
    obtain ⟨hset', hvalue⟩ := (hiff _).mpr ⟨hset, rfl⟩
    exact ⟨hset', hvalue⟩
  | false =>
    have hset' : (d.state n).isSet = false := by
      cases hd' : (d.state n).isSet with
      | false => rfl
      | true => exact absurd (hset.symm.trans ((hiff _).mp ⟨hd', rfl⟩).1) Bool.noConfusion
    refine ⟨hset', ?_⟩
    rw [SharedState.takeValue, SharedState.takeValue, hd.unset n hset', hc.unset n hset]

structure OrderIndependent (c : Config τ ε) : Prop where
  /-- No assertion fails. -/
  safe : ∀ a, next c a ≠ .failed
  once : ∀ k, (c.invoked k).length ≤ 1
  /-- What a continuation was handed is its source, which was set as it is now. -/
  handed : ∀ k m s, (m, s) ∈ c.invoked k →
    (∃ f, c.continuation k = some ⟨f, m⟩) ∧ s.isSet = true ∧ c.state m = s
  not_stored : ∀ n, (c.state n).isSet = true → (c.state n).continuation = none
  invoked : Completed c → ∀ k x, c.continuation k = some x → (c.state x.future).isSet = true →
    (c.invoked k).length = 1
  settled : Completed c → ∀ n o, (c.state n).isSet = true ∧ (c.state n).takeValue = o ↔
    Settles c.continuation c.fulfilled n o
  independent : Completed c → ∀ d, Runs.Reachable next (· = init) d → Completed d →
    d.continuation = c.continuation → d.fulfilled = c.fulfilled → ∀ n,
      (d.state n).isSet = (c.state n).isSet ∧ (d.state n).takeValue = (c.state n).takeValue

/-- **Continuations are independent of the order** in which threads attach them
and fulfil promises. -/
theorem orderIndependent (h : Runs.Reachable next (· = init) c) : OrderIndependent c := by
  have hinv := reachable_inv h
  exact {
    safe := fun a => (hinv.next a).not_failed
    once := hinv.once
    handed := fun k m s hs => by
      rcases hinv.invoked k with hk | ⟨x, hx, hsource, hk⟩
      · rw [hk] at hs
        cases hs
      · rw [hk, List.mem_singleton] at hs
        cases hs
        exact ⟨⟨x.function, hx⟩, hsource, rfl⟩
    not_stored := fun _ => hinv.not_stored
    invoked := fun hc k x hk hsource =>
      Nat.le_antisymm (hinv.once k) (List.length_pos_of_ne_nil (hinv.done hc hk hsource).2)
    settled := fun hc _ _ => hinv.settled_iff hc
    independent := fun hc _ hd hdc ha hf => hinv.independent (reachable_inv hd) hc hdc ha hf }

/-- A thread attaches a continuation, and another one fulfils the promise. -/
def twoThreads : List (Act Nat Unit) :=
  [.promise 0, .attach 0 0 1 fun _ => .value 7, .fulfil 1 0 .ready, .go 0, .go 1, .go 1, .go 1]

theorem orderIndependent_twoThreads :
    ∃ c, Runs.run next init twoThreads = .next c ∧ OrderIndependent c := by
  have hreturns : (Runs.run next init twoThreads).isNext := rfl
  obtain ⟨c, hc⟩ := exists_of_isNext hreturns
  exact ⟨c, hc, orderIndependent (Runs.Reachable.run (.init rfl) hc)⟩

end FutureThen
