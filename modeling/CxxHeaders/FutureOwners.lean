/-
A shared state that is not set is owned by one valid promise, as long as no
move assignment overwrites a valid promise whose future is still held: that
drops the promise's state without breaking it, and is the only operation that
leaves a future unset with nobody to set it (`no_orphan_iff`).

A configuration is looked at as a `View`: who points to which state, and
through which pointer. The operations put, clear, swap and resolve what is at
a place, and `Good` is kept by each of these.
-/
import CxxHeaders.Future
import CxxHeaders.Ownership
import Mathlib.Logic.Equiv.Basic

open Outcome

namespace Future

variable {τ ε φ : Type}

/-! ## Pointers -/

/-- What the promise at a place points to through `m_state` and through
`m_futureState`, and what the futures point to. -/
structure View where
  owns : Place → Option Nat
  spare : Place → Option Nat
  held : Nat → Option Nat
  isSet : Nat → Bool
  made : Nat

namespace View

variable {v : View} {l k : Place} {s : Nat}

def Refers (v : View) (s : Nat) : Prop :=
  (∃ l, v.owns l = some s) ∨ (∃ l, v.spare l = some s) ∨ ∃ f, v.held f = some s

def put (v : View) (l : Place) (x y : Option Nat) : View :=
  { v with owns := Function.update v.owns l x, spare := Function.update v.spare l y }

def swap (v : View) (l k : Place) : View :=
  (v.put l (v.owns k) (v.spare k)).put k (v.owns l) (v.spare l)

def hold (v : View) (f : Nat) (x : Option Nat) : View := { v with held := Function.update v.held f x }

def resolve (v : View) (l : Place) (s : Nat) : View :=
  { v.put l none (v.spare l) with isSet := Function.update v.isSet s true }

def create (v : View) (l : Place) : View :=
  { v.put l (some v.made) (some v.made) with
    isSet := Function.update v.isSet v.made false, made := v.made + 1 }

/-- What is not set and can still be reached has one owner. A promise's
`m_futureState` is its own `m_state`, as long as it is owned. -/
structure Good (v : View) : Prop where
  exclusive : Exclusive v.owns fun s => v.Refers s ∧ v.isSet s = false
  spare : ∀ {l k s}, v.spare l = some s → v.owns k = some s → l = k
  made : ∀ {s}, v.Refers s → s < v.made

theorem Good.unset (h : v.Good) (ho : v.owns l = some s) : v.isSet s = false :=
  (h.exclusive.taken_of ho).2

/-- Pointers other than `m_state` may go. -/
theorem Good.mono (h : v.Good) {w : View} (howns : w.owns = v.owns) (hset : w.isSet = v.isSet)
    (hmade : w.made = v.made) (hrefers : ∀ s, w.Refers s → v.Refers s)
    (hspare : ∀ l s, w.spare l = some s → v.spare l = some s) : w.Good := by
  refine ⟨?_, fun hl hk => h.spare (hspare _ _ hl) (howns ▸ hk), fun hs => hmade ▸ h.made (hrefers _ hs)⟩
  rw [howns]
  refine h.exclusive.congr fun s => ⟨fun hs => ⟨hrefers s hs.1, hset ▸ hs.2⟩, fun hs => ⟨?_, hset ▸ hs.2⟩⟩
  obtain ⟨l, hl⟩ := (h.exclusive.owned_iff s).mp hs
  exact .inl ⟨l, howns ▸ hl⟩

theorem swap_owns (v : View) (l k : Place) : (v.swap l k).owns = v.owns ∘ Equiv.swap k l :=
  (Equiv.comp_swap_eq_update ..).symm

theorem swap_spare (v : View) (l k : Place) : (v.swap l k).spare = v.spare ∘ Equiv.swap k l :=
  (Equiv.comp_swap_eq_update ..).symm

theorem swap_refers (v : View) (l k : Place) (s : Nat) : (v.swap l k).Refers s ↔ v.Refers s := by
  have hall : ∀ f : Place → Option Nat, (∃ a, (f ∘ Equiv.swap k l) a = some s) ↔ ∃ a, f a = some s :=
    fun f => ((Equiv.swap k l).surjective.exists (p := fun a => f a = some s)).symm
  unfold Refers
  rw [swap_owns, swap_spare]
  exact or_congr (hall _) (or_congr (hall _) Iff.rfl)

theorem Good.swap (h : v.Good) (l k : Place) : (v.swap l k).Good := by
  refine ⟨?_, fun {a b s} ha hb => ?_, fun hs => h.made ((swap_refers v l k _).mp hs)⟩
  · rw [swap_owns]
    exact (h.exclusive.comp_equiv _).congr fun s => and_congr_left fun _ => swap_refers v l k s
  · rw [swap_spare] at ha
    rw [swap_owns] at hb
    exact (Equiv.swap k l).injective (h.spare ha hb)

/-- A promise that is not valid goes. -/
theorem Good.clear (h : v.Good) (hl : v.owns l = none) : (v.put l none none).Good := by
  have howns : (v.put l none none).owns = v.owns := Function.update_eq_self_iff.mpr hl.symm
  have hspare : ∀ k s, (v.put l none none).spare k = some s → v.spare k = some s := by
    intro k s hk
    exact (of_update_none hk).2
  refine h.mono howns rfl rfl (fun s => ?_) hspare
  intro hcases
  rcases hcases with ⟨k, hk⟩ | ⟨k, hk⟩ | hf
  · exact .inl ⟨k, howns ▸ hk⟩
  · exact .inr (.inl ⟨k, hspare k s hk⟩)
  · exact .inr (.inr hf)

/-- The futures only hand on what they have. -/
theorem Good.setHeld (h : v.Good) {held : Nat → Option Nat}
    (hheld : ∀ f s, held f = some s → ∃ g, v.held g = some s) : View.Good { v with held := held } := by
  refine h.mono rfl rfl rfl (fun s => ?_) fun _ _ hk => hk
  intro hcases
  rcases hcases with hl | hl | ⟨f, hf⟩
  · exact .inl hl
  · exact .inr (.inl hl)
  · exact .inr (.inr (hheld f s hf))

/-- A future is taken. -/
theorem Good.take (h : v.Good) (hl : v.spare l = some s) (f : Nat) :
    ((v.put l (v.owns l) none).hold f (some s)).Good := by
  have howns : ((v.put l (v.owns l) none).hold f (some s)).owns = v.owns := Function.update_eq_self ..
  have hspare : ∀ k t, ((v.put l (v.owns l) none).hold f (some s)).spare k = some t →
      v.spare k = some t := by
    intro k t hk
    exact (of_update_none hk).2
  refine h.mono howns rfl rfl (fun t => ?_) hspare
  intro hcases
  rcases hcases with ⟨k, hk⟩ | ⟨k, hk⟩ | ⟨g, hg⟩
  · exact .inl ⟨k, howns ▸ hk⟩
  · exact .inr (.inl ⟨k, hspare k t hk⟩)
  · replace hg : Function.update v.held f (some s) g = some t := hg
    by_cases hgf : g = f
    · rw [hgf, Function.update_self] at hg
      exact .inr (.inl ⟨l, hg ▸ hl⟩)
    · rw [Function.update_of_ne hgf] at hg
      exact .inr (.inr ⟨g, hg⟩)

/-- A promise is fulfilled or broken. -/
theorem Good.resolve (h : v.Good) (hl : v.owns l = some s) : (v.resolve l s).Good := by
  have hspare : (v.resolve l s).spare = v.spare := Function.update_eq_self ..
  have howns : ∀ {k t}, (v.resolve l s).owns k = some t → k ≠ l ∧ v.owns k = some t := of_update_none
  have hrefers : ∀ t, (v.resolve l s).Refers t → v.Refers t := by
    intro t hcases
    rcases hcases with ⟨k, hk⟩ | ⟨k, hk⟩ | hf
    · exact .inl ⟨k, (howns hk).2⟩
    · exact .inr (.inl ⟨k, hspare ▸ hk⟩)
    · exact .inr (.inr hf)
  refine ⟨h.exclusive.drop fun t => ?_, fun ha hb => h.spare (hspare ▸ ha) (howns hb).2,
    fun ht => h.made (hrefers _ ht)⟩
  constructor
  · intro hboth
    obtain ⟨ht, hset⟩ := hboth
    have hts : t ≠ s := fun he => by
      rw [he] at hset
      simp [View.resolve] at hset
    replace hset : Function.update v.isSet s true t = false := hset
    rw [Function.update_of_ne hts] at hset
    exact ⟨⟨hrefers t ht, hset⟩, fun he => hts (Option.some.inj (he.symm.trans hl))⟩
  · intro hboth
    obtain ⟨⟨ht, hset⟩, hne⟩ := hboth
    have hts : t ≠ s := fun he => hne (he ▸ hl)
    refine ⟨?_, (Function.update_of_ne hts _ _).trans hset⟩
    obtain ⟨k, hk⟩ := (h.exclusive.owned_iff t).mp ⟨ht, hset⟩
    exact .inl ⟨k, (Function.update_of_ne (fun he : k = l => hne (he ▸ hk)) _ _).trans hk⟩

/-- The state of an overwritten promise, if no future holds it, is gone. -/
theorem Good.overwrite (h : v.Good) (hl : v.owns l = some s) (hf : ∀ f, v.held f ≠ some s) :
    (v.put l none none).Good ∧ ¬(v.put l none none).Refers s := by
  have hrefers : ∀ t, (v.put l none none).Refers t → v.Refers t := by
    intro t hcases
    rcases hcases with ⟨k, hk⟩ | ⟨k, hk⟩ | hf
    · exact .inl ⟨k, (of_update_none hk).2⟩
    · exact .inr (.inl ⟨k, (of_update_none hk).2⟩)
    · exact .inr (.inr hf)
  have hgone : ¬(v.put l none none).Refers s := by
    intro hcases
    rcases hcases with ⟨k, hk⟩ | ⟨k, hk⟩ | ⟨f, hs⟩
    · exact (of_update_none hk).1 (h.exclusive.unique (of_update_none hk).2 hl)
    · exact (of_update_none hk).1 (h.spare (of_update_none hk).2 hl)
    · exact hf f hs
  refine ⟨⟨h.exclusive.drop fun t => ?_, fun ha hb => h.spare (of_update_none ha).2 (of_update_none hb).2,
    fun ht => h.made (hrefers _ ht)⟩, hgone⟩
  constructor
  · intro hboth
    obtain ⟨ht, hset⟩ := hboth
    refine ⟨⟨hrefers t ht, hset⟩, fun he => ?_⟩
    obtain rfl : s = t := Option.some.inj (hl.symm.trans he)
    exact hgone ht
  · intro hboth
    obtain ⟨⟨ht, hset⟩, hne⟩ := hboth
    obtain ⟨k, hk⟩ := (h.exclusive.owned_iff t).mp ⟨ht, hset⟩
    exact ⟨.inl ⟨k, (Function.update_of_ne (fun he : k = l => hne (he ▸ hk)) _ _).trans hk⟩, hset⟩

/-- A promise is made. -/
theorem Good.create (h : v.Good) (hl : v.owns l = none) (hs : v.spare l = none) : (v.create l).Good := by
  have hfresh : ¬v.Refers v.made := fun hr => Nat.lt_irrefl _ (h.made hr)
  have hrefers : ∀ t, (v.create l).Refers t ↔ t = v.made ∨ v.Refers t := by
    intro t
    unfold Refers
    have ho : (∃ k, (v.create l).owns k = some t) ↔ t = v.made ∨ ∃ k, v.owns k = some t :=
      exists_update_some hl _ _
    have hp : (∃ k, (v.create l).spare k = some t) ↔ t = v.made ∨ ∃ k, v.spare k = some t :=
      exists_update_some hs _ _
    have hh : (v.create l).held = v.held := rfl
    rw [ho, hp, hh]
    by_cases ht : t = v.made <;> simp [ht]
  refine ⟨h.exclusive.acquire hl (fun hr => hfresh hr.1) fun t => ?_, fun {a b t} ha hb => ?_,
    fun {t} ht => ?_⟩
  · rw [hrefers]
    show (t = v.made ∨ v.Refers t) ∧ Function.update v.isSet v.made false t = false ↔ _
    by_cases ht : t = v.made
    · simp [ht]
    · simp [ht]
  · have hnot : ∀ k, v.owns k ≠ some v.made ∧ v.spare k ≠ some v.made := fun k =>
      ⟨fun hk => hfresh (.inl ⟨k, hk⟩), fun hk => hfresh (.inr (.inl ⟨k, hk⟩))⟩
    rcases of_update_some ha with ⟨hal, hta⟩ | ⟨-, ha⟩ <;>
      rcases of_update_some hb with ⟨hbl, htb⟩ | ⟨-, hb⟩
    · rw [hal, hbl]
    · exact absurd (hta ▸ hb) (hnot b).1
    · exact absurd (htb ▸ ha) (hnot a).2
    · exact h.spare ha hb
  · rcases (hrefers t).mp ht with rfl | ht
    · exact Nat.lt_succ_self _
    · exact Nat.lt_succ_of_lt (h.made ht)

end View

/-! ## Configurations -/

namespace Config

variable {c : Config τ ε φ} {l : Place} {s : Nat} {x : Promise}

def view (c : Config τ ε φ) : View where
  owns l := (c.promise l).bind Promise.state
  spare l := (c.promise l).bind Promise.futureState
  held f := (c.future f).join
  isSet s := (c.state s).isSet
  made := c.made

/-- The promise at `l` is valid, and `s` is its state. -/
def Owns (c : Config τ ε φ) (l : Place) (s : Nat) : Prop := ∃ x, c.promise l = some x ∧ x.state = some s

/-- A promise or a future points to `s`. -/
def Reached (c : Config τ ε φ) (s : Nat) : Prop :=
  (∃ l x, c.promise l = some x ∧ (x.state = some s ∨ x.futureState = some s)) ∨ ∃ f, c.future f = some (some s)

/-- The future of `s` is told that its promise is broken. -/
def Broken (c : Config τ ε φ) (s : Nat) : Prop :=
  (c.state s).isSet = true ∧ (c.state s).exception = some .brokenPromise

theorem owns_iff : c.Owns l s ↔ c.view.owns l = some s := Option.bind_eq_some_iff.symm

theorem reached_iff : c.Reached s ↔ c.view.Refers s := by
  unfold Reached View.Refers view
  simp only [Option.bind_eq_some_iff, Option.join_eq_some_iff]
  constructor
  · intro hcases
    rcases hcases with ⟨l, x, hx, hs | hs⟩ | hf
    · exact .inl ⟨l, x, hx, hs⟩
    · exact .inr (.inl ⟨l, x, hx, hs⟩)
    · exact .inr (.inr hf)
  · intro hcases
    rcases hcases with ⟨l, x, hx, hs⟩ | ⟨l, x, hx, hs⟩ | hf
    · exact .inl ⟨l, x, hx, .inl hs⟩
    · exact .inl ⟨l, x, hx, .inr hs⟩
    · exact .inr hf

theorem view_owns (hx : c.promise l = some x) : c.view.owns l = x.state := by simp [view, hx]

theorem view_spare (hx : c.promise l = some x) : c.view.spare l = x.futureState := by simp [view, hx]

theorem view_owns_none (hx : c.promise l = none) : c.view.owns l = none := by simp [view, hx]

theorem view_spare_none (hx : c.promise l = none) : c.view.spare l = none := by simp [view, hx]

theorem setPromise_view (c : Config τ ε φ) (l : Place) (x : Option Promise) :
    (c.setPromise l x).view = c.view.put l (x.bind Promise.state) (x.bind Promise.futureState) := by
  unfold view View.put setPromise
  congr 1
  · funext k
    by_cases hk : k = l <;> simp [hk]
  · funext k
    by_cases hk : k = l <;> simp [hk]

theorem setFuture_view (c : Config τ ε φ) (f : Nat) (o : Option (Option Nat)) :
    (c.setFuture f o).view = c.view.hold f o.join := by
  unfold view View.hold setFuture
  congr 1
  funext g
  by_cases hg : g = f <;> simp [hg]

theorem newPromise_view (c : Config τ ε φ) (l : Place) : (c.newPromise l).view = c.view.create l := by
  unfold view View.create View.put newPromise
  congr 1
  · funext k
    by_cases hk : k = l <;> simp [hk]
  · funext k
    by_cases hk : k = l <;> simp [hk]
  · funext t
    by_cases ht : t = c.made <;> simp [ht, SharedState.new]

/-- The state `o`, if there is one, is set to the exception. -/
def breaks (c : Config τ ε φ) : Option Nat → Config τ ε φ
  | none => c
  | some s => { c with
    state := Function.update c.state s { c.state s with exception := some .brokenPromise, isSet := true } }

theorem breakPromise_eq (h : ∀ s, x.state = some s → (c.state s).isSet = false) :
    c.breakPromise x = .next (c.breaks x.state) := by
  unfold breakPromise breaks
  cases hs : x.state with
  | none => rfl
  | some s => simp [SharedState.setException, h s hs]

theorem breaks_broken (c : Config τ ε φ) (s : Nat) : (c.breaks (some s)).Broken s := by
  simp [Broken, breaks]

/-- A promise is destroyed, after what it owns is broken. -/
theorem breaks_good {o : Option Nat} (h : c.view.Good) (ho : c.view.owns l = o) :
    ((c.breaks o).view.put l none none).Good := by
  cases o with
  | none => exact h.clear ho
  | some s =>
    have heq : (c.breaks (some s)).view.put l none none = (c.view.resolve l s).put l none none := by
      have hset : (c.breaks (some s)).view.isSet = Function.update c.view.isSet s true := by
        funext t
        by_cases ht : t = s <;> simp [view, breaks, ht]
      unfold View.put View.resolve
      rw [hset]
      simp [View.put, view, breaks]
    rw [heq]
    exact (h.resolve ho).clear (Function.update_self ..)

/-- A promise is fulfilled by `set`, which does as `P` says. -/
theorem fulfil_ok {set : SharedState τ ε → Outcome (SharedState τ ε)} {P : SharedState τ ε → Prop}
    (h : c.view.Good) (hx : c.promise l = some x) (hvalid : x.state ≠ none)
    (hset : ∀ st : SharedState τ ε, st.isSet = false → (set st).Ok fun st' => st'.isSet = true ∧ P st') :
    (c.fulfil l x set).Ok fun d =>
      d.view.Good ∧ ∀ s, c.Owns l s → (d.state s).isSet = true ∧ P (d.state s) := by
  obtain ⟨s, hs⟩ := Option.ne_none_iff_exists'.mp hvalid
  have ho : c.view.owns l = some s := (view_owns hx).trans hs
  simp only [fulfil, hs, ok_bind]
  refine (hset (c.state s) (h.unset ho)).mono fun st ⟨hst, hP⟩ => ⟨?_, fun t ht => ?_⟩
  · have heq : Config.view { c.setPromise l (some { x with state := none }) with
        state := Function.update c.state s st } = c.view.resolve l s := by
      unfold view View.resolve View.put setPromise
      congr 1
      · funext k
        by_cases hk : k = l <;> simp [hk]
      · funext k
        by_cases hk : k = l <;> simp [hk, hx]
      · funext t
        by_cases ht : t = s <;> simp [ht, hst]
    exact heq ▸ h.resolve ho
  · obtain rfl : s = t := Option.some.inj (ho.symm.trans (owns_iff.mp ht))
    show (Function.update c.state s st s).isSet = true ∧ P (Function.update c.state s st s)
    rw [Function.update_self]
    exact ⟨hst, hP⟩

end Config

/-! ## The steps -/

/-- The promise at the place is destroyed, overwritten or abandoned. -/
def GivesUp : Act τ ε φ → Place → Prop
  | .abandon p, l | .destroyPromise p, l => l = .promise p
  | .assignPromise p move, l => p ≠ move ∧ l = .promise p
  | .destroyTask t, l => l = .task t
  | .assignTask t move, l => t ≠ move ∧ l = .task t
  | _, _ => False

/-- What a step should do: every state that is not set and can be reached has
one owner then, and what was given up without being fulfilled is broken. -/
structure Fit (c : Config τ ε φ) (a : Act τ ε φ) (d : Config τ ε φ) : Prop where
  owner : ∀ s, d.Reached s → (d.state s).isSet = false → ∃! l, d.Owns l s
  broken : ∀ l s, GivesUp a l → c.Owns l s → d.Reached s → d.Broken s

/-- No valid promise is overwritten while a future of it is held. -/
def Safe (c : Config τ ε φ) (a : Act τ ε φ) : Prop :=
  ∀ p move s f, a = .assignPromise p move → p ≠ move → (c.promise (.promise move)).isSome →
    c.Owns (.promise p) s → c.future f ≠ some (some s)

/-- What a step does, where it is safe. -/
def Keeps (c : Config τ ε φ) (a : Act τ ε φ) (d : Config τ ε φ) : Prop :=
  d.view.Good ∧ ∀ l s, GivesUp a l → c.Owns l s → d.Reached s → d.Broken s

theorem owner_of_good {c : Config τ ε φ} (h : c.view.Good) (s : Nat) (hr : c.Reached s)
    (hs : (c.state s).isSet = false) : ∃! l, c.Owns l s := by
  obtain ⟨l, hl⟩ := (h.exclusive.owned_iff s).mp ⟨Config.reached_iff.mp hr, hs⟩
  exact ⟨l, Config.owns_iff.mpr hl, fun k hk => h.exclusive.unique (Config.owns_iff.mp hk) hl⟩

theorem Keeps.fit {c d : Config τ ε φ} {a : Act τ ε φ} (h : Keeps c a d) : Fit c a d :=
  ⟨owner_of_good h.1, h.2⟩

theorem setException_set (e : Exception ε) {st : SharedState τ ε} (h : st.isSet = false) :
    (st.setException e).Ok fun st' => st'.isSet = true ∧ st'.exception = some e := by
  simp [SharedState.setException, h]

theorem emplaceValue_set (value : Option τ) {st : SharedState τ ε} (h : st.isSet = false) :
    (st.emplaceValue value).Ok fun st' => st'.isSet = true ∧ True := by
  cases value <;> simp [SharedState.emplaceValue, h]

theorem callFunction_set (function : Option φ) (result : Except ε τ) {st : SharedState τ ε}
    (h : st.isSet = false) :
    (callFunction function result st).Ok fun st' => st'.isSet = true ∧ True := by
  unfold callFunction
  split
  · exact (setException_set _ h).mono fun _ hs => ⟨hs.1, trivial⟩
  · exact emplaceValue_set _ h
  · exact (setException_set _ h).mono fun _ hs => ⟨hs.1, trivial⟩

section
variable {c : Config τ ε φ}

/-- A step that gives nothing up. -/
theorem Keeps.of_good {a : Act τ ε φ} {d : Config τ ε φ} (h : d.view.Good) (ha : ∀ l, ¬GivesUp a l) :
    Keeps c a d :=
  ⟨h, fun l _ hl => absurd hl (ha l)⟩

/-- What is at `k` goes to `l`, and what was at `l` to `k`. -/
theorem swap_view {l k : Place} {x y : Option Promise} (hx : c.promise l = x) (hy : c.promise k = y)
    (x' : Option Promise) (hstate : x'.bind Promise.state = x.bind Promise.state)
    (hspare : x'.bind Promise.futureState = x.bind Promise.futureState) :
    ((c.setPromise l y).setPromise k x').view = c.view.swap l k := by
  rw [Config.setPromise_view, Config.setPromise_view, hstate, hspare, ← hx, ← hy]
  rfl

theorem fulfil_keeps {a : Act τ ε φ} {l : Place} {x : Promise} (h : c.view.Good)
    (hx : c.promise l = some x)
    (hvalid : x.state ≠ none) (ha : ∀ k, ¬GivesUp a k)
    {set : SharedState τ ε → Outcome (SharedState τ ε)}
    (hset : ∀ st : SharedState τ ε, st.isSet = false → (set st).Ok fun st' => st'.isSet = true ∧ True) :
    (c.fulfil l x set).Ok (Keeps c a) :=
  (Config.fulfil_ok h hx hvalid hset).mono fun _ hd => .of_good hd.1 ha

theorem abandon_keeps (h : c.view.Good) (p : Nat) (hd : Allowed c (.abandon p)) :
    (next c (.abandon p)).Ok (Keeps c (.abandon p)) := by
  simp only [next]
  cases hx : c.promise (.promise p) with
  | none => trivial
  | some x =>
    refine (Config.fulfil_ok h hx (hd x hx) fun st => setException_set _).mono fun d hk => ⟨hk.1, ?_⟩
    rintro l s rfl hs -
    exact hk.2 s hs

/-- What a promise owns is broken, and the promise goes. -/
theorem breakPromise_ok (h : c.view.Good) {l : Place} {x : Promise} (hx : c.promise l = some x) :
    (c.breakPromise x).Ok fun d =>
      (d.setPromise l none).view.Good ∧ ∀ s, c.Owns l s → (d.setPromise l none).Broken s := by
  have ho := Config.view_owns hx
  have hset : ∀ s, x.state = some s → (c.state s).isSet = false := fun s hs => h.unset (ho.trans hs)
  rw [Config.breakPromise_eq hset, ok_next, Config.setPromise_view]
  refine ⟨Config.breaks_good h ho, fun s hs => ?_⟩
  rw [show x.state = some s from ho.symm.trans (Config.owns_iff.mp hs)]
  exact c.breaks_broken s

theorem destroyPromise_keeps (h : c.view.Good) (p : Nat) :
    (next c (.destroyPromise p)).Ok (Keeps c (.destroyPromise p)) := by
  simp only [next]
  cases hx : c.promise (.promise p) with
  | none => trivial
  | some x =>
    simp only [ok_bind]
    refine (breakPromise_ok h hx).mono fun d ⟨hd, hbroken⟩ => ⟨hd, ?_⟩
    rintro l s rfl hs -
    exact hbroken s hs

theorem destroyTask_keeps (h : c.view.Good) (t : Nat) :
    (next c (.destroyTask t)).Ok (Keeps c (.destroyTask t)) := by
  simp only [next]
  cases hx : c.promise (.task t) with
  | none => trivial
  | some x =>
    simp only [ok_bind]
    refine (breakPromise_ok h hx).mono fun d ⟨hd, hbroken⟩ => ⟨hd, ?_⟩
    rintro l s rfl hs -
    exact hbroken s hs

/-- Moving a promise to a new place. -/
theorem move_good (h : c.view.Good) {l k : Place} {y : Promise} (hl : c.promise l = none)
    (hy : c.promise k = some y) :
    ((c.setPromise l (some y)).setPromise k (some ⟨none, none⟩)).view.Good := by
  rw [swap_view hl hy (some ⟨none, none⟩) rfl rfl]
  exact h.swap l k

/-- Overwriting the promise at `l` with the one at `k`: whatever `l` had is
dropped. -/
theorem assign_view {l k : Place} {y : Promise} (hne : l ≠ k) (hy : c.promise k = some y) :
    ((c.setPromise l (some y)).setPromise k (some ⟨none, none⟩)).view =
      (c.view.put l none none).swap l k := by
  have hl : (c.setPromise l none).promise l = none := Function.update_self ..
  have hk : (c.setPromise l none).promise k = some y := (Function.update_of_ne hne.symm _ _).trans hy
  have hsame : c.setPromise l (some y) = (c.setPromise l none).setPromise l (some y) := by
    simp [Config.setPromise]
  rw [hsame, swap_view hl hk (some ⟨none, none⟩) rfl rfl, Config.setPromise_view]
  rfl

theorem assign_eq {l k : Place} {x y : Promise} (hx : c.promise l = some x) (hy : c.promise k = some y) :
    (c.moveState l k).moveFutureState l k =
      if l = k then c else (c.setPromise l (some y)).setPromise k (some ⟨none, none⟩) := by
  split
  · next he =>
    subst he
    obtain rfl : x = y := Option.some.inj (hx.symm.trans hy)
    have hc : ∀ f, f = c.promise → ({ c with promise := f } : Config τ ε φ) = c := fun f hf => by rw [hf]
    refine hc _ ?_
    simp [Config.moveState, Config.setPromise, hx]
  · next hne =>
    have hc : ∀ f g, f = g → ({ c with promise := f } : Config τ ε φ) = { c with promise := g } :=
      fun f g hf => by rw [hf]
    refine hc _ _ ?_
    funext m
    by_cases hl : m = l <;> by_cases hk : m = k <;>
      simp [Config.moveState, Config.setPromise, hx, hy, hne, Ne.symm hne, hl, hk]

theorem assignPromise_keeps (h : c.view.Good) (p move : Nat) (hs : Safe c (.assignPromise p move)) :
    (next c (.assignPromise p move)).Ok (Keeps c (.assignPromise p move)) := by
  simp only [next, ok_bind, ok_requiring, Option.isSome_iff_exists]
  intro hboth
  obtain ⟨⟨x, hx⟩, y, hy⟩ := hboth
  simp only [pure_eq, ok_next]
  rw [assign_eq hx hy]
  split
  · next he => exact .of_good h fun l hl => hl.1 (Place.promise.inj he)
  · next hne =>
    have hne' : p ≠ move := fun he => hne (congrArg _ he)
    have hgood : (c.view.put (.promise p) none none).Good ∧
        ∀ s, c.Owns (.promise p) s → ¬(c.view.put (.promise p) none none).Refers s := by
      cases ho : c.view.owns (.promise p) with
      | none => exact ⟨h.clear ho, fun s hs => by cases ho.symm.trans (Config.owns_iff.mp hs)⟩
      | some s =>
        have hfree : ∀ f, c.view.held f ≠ some s := fun f hf =>
          hs p move s f rfl hne' (hy ▸ rfl) (Config.owns_iff.mpr ho) (Option.join_eq_some_iff.mp hf)
        obtain ⟨hgood, hgone⟩ := h.overwrite ho hfree
        refine ⟨hgood, fun t ht => ?_⟩
        obtain rfl : s = t := Option.some.inj (ho.symm.trans (Config.owns_iff.mp ht))
        exact hgone
    refine ⟨?_, ?_⟩
    · rw [assign_view hne hy]
      exact hgood.1.swap _ _
    · rintro l s ⟨-, rfl⟩ hs hr
      rw [Config.reached_iff, assign_view hne hy, View.swap_refers] at hr
      exact absurd hr (hgood.2 s hs)

theorem assignTask_keeps (h : c.view.Good) (t move : Nat) :
    (next c (.assignTask t move)).Ok (Keeps c (.assignTask t move)) := by
  simp only [next]
  cases hx : c.promise (.task t) with
  | none => trivial
  | some x =>
    cases hy : c.promise (.task move) with
    | none => trivial
    | some y =>
      by_cases hne : t = move
      · subst hne
        have hold : (c.setPromise (.task t) (some ⟨none, none⟩)).promise (.task t) = some ⟨none, none⟩ :=
          Function.update_self ..
        have hsame : (c.setPromise (.task t) (some ⟨none, none⟩)).setPromise (.task t) (some y) = c := by
          rw [← hy]
          simp [Config.setPromise]
        simp only [Config.setFunction, hold, Config.breakPromise, pure_eq, ok_next]
        refine .of_good ?_ fun l hl => hl.1 rfl
        show ((c.setPromise (.task t) (some ⟨none, none⟩)).setPromise (.task t) (some y)).view.Good
        rwa [hsame]
      · have hplace : Place.task t ≠ Place.task move := fun he => hne (Place.task.inj he)
        have ho := Config.view_owns hx
        have hold : (c.setPromise (.task move) (some ⟨none, none⟩)).promise (.task t) = some x :=
          (Function.update_of_ne hplace _ _).trans hx
        have hset : ∀ s, x.state = some s → (c.state s).isSet = false :=
          fun s hs => h.unset (ho.trans hs)
        have hview : ∀ d : Config τ ε φ, d.promise = c.promise →
            ((d.setPromise (.task move) (some ⟨none, none⟩)).setPromise (.task t) (some y)).view =
              (d.view.put (.task t) none none).swap (.task t) (.task move) := fun d hd => by
          rw [← assign_view hplace (hd ▸ hy)]
          simp [Config.setPromise, Function.update_comm hplace]
        simp only [Config.setFunction, hold]
        rw [Config.breakPromise_eq (by exact hset)]
        refine ⟨?_, ?_⟩
        · have hbreaks : (c.breaks x.state).promise = c.promise := by cases x.state <;> rfl
          have hgood := (Config.breaks_good h ho).swap (.task t) (.task move)
          rw [← hview _ hbreaks] at hgood
          cases hs : x.state <;> rw [hs] at hgood <;> exact hgood
        · rintro l s ⟨-, rfl⟩ hs -
          rw [show x.state = some s from ho.symm.trans (Config.owns_iff.mp hs)]
          exact Config.breaks_broken _ s

theorem takeFuture_keeps (h : c.view.Good) (l : Place) (f : Nat) (hd : Allowed c (.takeFuture l f)) :
    (next c (.takeFuture l f)).Ok (Keeps c (.takeFuture l f)) := by
  simp only [next]
  cases hx : c.promise l with
  | none => trivial
  | some x =>
    obtain ⟨s, hs⟩ := Option.ne_none_iff_exists'.mp (hd x hx)
    have hsome : x.futureState.isSome := by rw [hs]; rfl
    simp only [ok_bind, ok_requiring, asserting_true hsome]
    intro _
    refine .of_good ?_ fun _ => id
    show ((c.setPromise l (some { x with futureState := none })).setFuture f (some x.futureState)).view.Good
    rw [Config.setFuture_view, Config.setPromise_view, hs]
    have ht := h.take (hs ▸ Config.view_spare hx) f
    rw [Config.view_owns hx] at ht
    exact ht

/-- The futures change, but only hand on what they have. -/
theorem futures_good (h : c.view.Good) {f g : Nat} {x y : Option (Option Nat)}
    (hx : ∀ s, x = some (some s) → ∃ k, c.future k = some (some s))
    (hy : ∀ s, y = some (some s) → ∃ k, c.future k = some (some s)) :
    ((c.setFuture f x).setFuture g y).view.Good := by
  rw [Config.setFuture_view, Config.setFuture_view]
  refine h.setHeld fun k s hk => ?_
  have hheld : ∀ s, (∃ k, c.future k = some (some s)) → ∃ k, c.view.held k = some s :=
    fun s ⟨k, hk⟩ => ⟨k, Option.join_eq_some_iff.mpr hk⟩
  by_cases hkg : k = g
  · rw [hkg, Function.update_self] at hk
    exact hheld s (hy s (Option.join_eq_some_iff.mp hk))
  · rw [Function.update_of_ne hkg] at hk
    replace hk : Function.update c.view.held f x.join k = some s := hk
    by_cases hkf : k = f
    · rw [hkf, Function.update_self] at hk
      exact hheld s (hx s (Option.join_eq_some_iff.mp hk))
    · rw [Function.update_of_ne hkf] at hk
      exact ⟨k, hk⟩

theorem dropFuture_good (h : c.view.Good) (f : Nat) {x : Option (Option Nat)} (hx : x.join = none) :
    (c.setFuture f x).view.Good := by
  rw [Config.setFuture_view, hx]
  exact h.setHeld fun g _ hg => ⟨g, (of_update_none hg).2⟩

theorem next_keeps (h : c.view.Good) {a : Act τ ε φ} (hd : Allowed c a) (hs : Safe c a) :
    (next c a).Ok (Keeps c a) := by
  cases a with
  | assignPromise p move => exact assignPromise_keeps h p move hs
  | abandon p => exact abandon_keeps h p hd
  | destroyPromise p => exact destroyPromise_keeps h p
  | takeFuture l f => exact takeFuture_keeps h l f hd
  | assignTask t move => exact assignTask_keeps h t move
  | destroyTask t => exact destroyTask_keeps h t
  | promise p =>
    simp only [next, ok_bind, ok_requiring, Option.isNone_iff_eq_none]
    intro hp
    refine .of_good ?_ fun _ => id
    rw [Config.newPromise_view]
    exact h.create (Config.view_owns_none hp) (Config.view_spare_none hp)
  | task t function =>
    simp only [next, ok_bind, ok_requiring, Option.isNone_iff_eq_none]
    intro hp
    refine .of_good ?_ fun _ => id
    show (c.newPromise (.task t)).view.Good
    rw [Config.newPromise_view]
    exact h.create (Config.view_owns_none hp) (Config.view_spare_none hp)
  | emptyTask t =>
    simp only [next, ok_bind, ok_requiring, Option.isNone_iff_eq_none]
    intro hp
    refine .of_good ?_ fun _ => id
    show (c.setPromise (.task t) (some ⟨none, none⟩)).view.Good
    rw [Config.setPromise_view]
    exact h.clear (Config.view_owns_none hp)
  | movePromise p move =>
    simp only [next]
    cases hy : c.promise (.promise move) with
    | none => trivial
    | some y =>
      simp only [ok_bind, ok_requiring, Option.isNone_iff_eq_none]
      exact fun hp => .of_good (move_good h hp hy) fun _ => id
  | moveTask t move =>
    simp only [next]
    cases hy : c.promise (.task move) with
    | none => trivial
    | some y =>
      simp only [ok_bind, ok_requiring, Option.isNone_iff_eq_none]
      exact fun ht => .of_good (move_good h ht hy) fun _ => id
  | swapPromise p other =>
    simp only [next]
    split
    · next hx hy => exact .of_good (swap_view hx hy _ rfl rfl ▸ h.swap _ _) fun _ => id
    · trivial
  | swapTask t other =>
    simp only [next]
    split
    · next hx hy => exact .of_good (swap_view hx hy _ rfl rfl ▸ h.swap _ _) fun _ => id
    · trivial
  | emplaceValue p value =>
    simp only [next]
    cases hx : c.promise (.promise p) with
    | none => trivial
    | some x => exact fulfil_keeps h hx (hd x hx) (fun _ => id) fun _ => emplaceValue_set value
  | setException p e =>
    simp only [next]
    cases hx : c.promise (.promise p) with
    | none => trivial
    | some x =>
      exact fulfil_keeps h hx (hd x hx) (fun _ => id) fun _ hst =>
        (setException_set (.other e) hst).mono fun _ ht => ⟨ht.1, trivial⟩
  | invoke t result =>
    simp only [next]
    cases hx : c.promise (.task t) with
    | none => trivial
    | some x => exact fulfil_keeps h hx (hd x hx) (fun _ => id) fun _ => callFunction_set _ result
  | future f =>
    simp only [next, ok_bind, ok_requiring]
    exact fun _ => .of_good (dropFuture_good h f rfl) fun _ => id
  | moveFuture f move =>
    simp only [next]
    cases hm : c.future move with
    | none => trivial
    | some s =>
      simp only [ok_bind, ok_requiring]
      refine fun _ => .of_good (futures_good h (fun t ht => ⟨move, hm.trans ht⟩) fun t ht => ?_) fun _ => id
      cases ht
  | assignFuture f move =>
    simp only [next]
    split
    · next s hf hm =>
      refine .of_good (futures_good h (fun t ht => ?_) fun t ht => ⟨move, hm.trans ht⟩) fun _ => id
      cases ht
    · trivial
  | swapFuture f other =>
    simp only [next]
    split
    · next s s' hf ho =>
      refine .of_good (futures_good h (fun t ht => ?_) fun t ht => ?_) fun _ => id
      · exact ⟨other, ho.trans ht⟩
      · exact ⟨f, hf.trans ht⟩
    · trivial
  | takeValue f =>
    simp only [next]
    split
    · trivial
    · next hf => exact absurd hf hd
    · simp only [ok_bind, ok_requiring]
      exact fun _ => .of_good (dropFuture_good h f rfl) fun _ => id
  | destroyFuture f =>
    simp only [next]
    cases c.future f with
    | none => trivial
    | some s => exact .of_good (dropFuture_good h f rfl) fun _ => id

/-- The future of the overwritten promise is left with nobody to set it. -/
theorem assignPromise_orphans (h : c.view.Good) {p move s f : Nat} (hne : p ≠ move)
    (hmove : (c.promise (.promise move)).isSome) (ho : c.Owns (.promise p) s)
    (hf : c.future f = some (some s)) :
    ¬(next c (.assignPromise p move)).Ok (Fit c (.assignPromise p move)) := by
  obtain ⟨y, hy⟩ := Option.isSome_iff_exists.mp hmove
  obtain ⟨x, hx, hs⟩ := ho
  have hplace : Place.promise p ≠ .promise move := fun he => hne (Place.promise.inj he)
  have hp : (c.promise (.promise p)).isSome := by rw [hx]; rfl
  have howns : c.view.owns (.promise p) = some s := (Config.view_owns hx).trans hs
  simp only [next, requiring_true (And.intro hp hmove), next_bind, pure_eq, ok_next]
  rw [assign_eq hx hy, if_neg hplace]
  intro hfit
  obtain ⟨l, hl, -⟩ := hfit.owner s (.inr ⟨f, hf⟩) (h.unset howns)
  rw [Config.owns_iff, assign_view hplace hy, View.swap_owns] at hl
  obtain ⟨hlp, hl⟩ := of_update_none hl
  exact hlp (h.exclusive.unique hl howns)

theorem safe_iff (h : c.view.Good) {a : Act τ ε φ} (hd : Allowed c a) :
    Safe c a ↔ (next c a).Ok (Fit c a) := by
  constructor
  · exact fun hs => (next_keeps h hd hs).mono fun _ => Keeps.fit
  · intro hok p move s f ha hne hmove ho hf
    subst ha
    exact assignPromise_orphans h hne hmove ho hf hok

end

theorem init_good : (init : Config τ ε φ).view.Good := by
  have hno : ∀ s, ¬(init : Config τ ε φ).view.Refers s := by
    intro s hcases
    rcases hcases with ⟨_, hl⟩ | ⟨_, hl⟩ | ⟨_, hf⟩
    · cases hl
    · cases hl
    · cases hf
  exact ⟨.nobody fun s hs => hno s hs.1, nofun, fun hs => absurd hs (hno _)⟩

/-- **No future is orphaned, in any state of a run and with no assertion
failing, exactly if no step of the run move-assigns to a valid promise whose
future is held.** -/
theorem no_orphan_iff (as : List (Act τ ε φ)) (hd : Runs.Meets next Allowed init as) :
    Runs.Along next Fit init as ↔ Runs.Meets next Safe init as := by
  refine Runs.along_iff_meets (fun _ _ h hd => safe_iff h hd) (fun c a d h hd hn hfit => ?_) init_good hd
  have hok : (next c a).Ok (Fit c a) := by
    rw [hn]
    exact hfit
  exact ((next_keeps h hd ((safe_iff h hd).mpr hok)).of_next hn).1

/-- A promise is destroyed while its future is held. -/
def destroyed : List (Act Nat Nat Nat) := [.promise 0, .takeFuture (.promise 0) 0, .destroyPromise 0]

theorem no_orphan_destroyed : Runs.Along next Fit init destroyed := by
  have hd : Runs.Meets next Allowed init destroyed := by
    refine ⟨trivial, fun c hc => ⟨?_, fun _ _ => ⟨trivial, fun _ _ => trivial⟩⟩⟩
    cases hc
    intro x hx
    cases hx
    exact nofun
  exact (no_orphan_iff destroyed hd).mpr
    ⟨nofun, fun _ _ => ⟨nofun, fun _ _ => ⟨nofun, fun _ _ => trivial⟩⟩⟩

/-- A promise is overwritten while its future is held. -/
def overwritten : List (Act Nat Nat Nat) :=
  [.promise 0, .takeFuture (.promise 0) 0, .promise 1, .assignPromise 0 1]

theorem overwritten_orphans : Runs.Meets next Allowed init overwritten ∧
    ¬Runs.Along next Fit init overwritten := by
  constructor
  · refine ⟨trivial, fun c hc => ⟨?_, fun _ _ => ⟨trivial, fun _ _ => ⟨trivial, fun _ _ => trivial⟩⟩⟩⟩
    cases hc
    intro x hx
    cases hx
    exact nofun
  · intro h
    obtain ⟨-, -, -, hfit, -⟩ := h
    -- The state at address 0 is held by the future, and not set.
    obtain ⟨l, ⟨x, hx, hs⟩, -⟩ := hfit.owner 0 (.inr ⟨0, rfl⟩) rfl
    cases l with
    | task t => cases hx
    | promise p =>
      rcases p with _ | _ | p
      · cases hx
        cases hs
      · cases hx
        cases hs
      · cases hx

end Future
