/-
Waiting until a `SharedResourceMap` is empty.

Threads wait on `m_cond` (`Waits`, `signals`). The deleter whose section erases
an entry tells everybody who waits.
-/
import CxxHeaders.SharedResourceMapEntries
import CxxHeaders.Sleepers

open Outcome

namespace SharedResourceMap

variable {κ ω : Type} {s t : SharedResourceMap κ} {f v : Nat}

structure Waits (κ ω : Type) where
  map : SharedResourceMap κ
  /-- Who is in `waitForEmpty`. -/
  waiting : List ω

namespace Waits

inductive Act (κ ω : Type) where
  | map (a : SharedResourceMap.Act κ)
  | waitForEmpty (w : ω)
  /-- A thread that waits looks at the map. -/
  | look (w : ω)

/-- A map is not destroyed while somebody waits for it. -/
def mayTake (c : Waits κ ω) : SharedResourceMap.Act κ → Bool
  | .destroy => c.waiting.isEmpty
  | _ => true

variable [DecidableEq κ] [DecidableEq ω]

def next (c : Waits κ ω) : Act κ ω → Outcome (Waits κ ω)
  | .map a => do
    requiring (c.mayTake a)
    return { c with map := ← c.map.next a }
  | .waitForEmpty w => do
    requiring (c.map.map ∧ w ∉ c.waiting)
    return if c.map.empty then c else { c with waiting := w :: c.waiting }
  | .look w => do
    requiring (w ∈ c.waiting)
    return if c.map.empty then { c with waiting := c.waiting.filter (· ≠ w) } else c

def signals : Signals (Waits κ ω) (Act κ ω) ω Unit where
  actor
    | .map _ => none
    | .waitForEmpty w | .look w => some w
  sleeps c
    | .map _ => none
    | .waitForEmpty _ | .look _ => if c.map.empty then none else some ()
  notifies c
    | .map (.getResource key) => if c.map.data key = none then .all () else .nobody
    | .map (.deleteSection f) => if c.map.erases f then .all () else .nobody
    | _ => .nobody

/-- A new map, which nobody waits for. -/
def Init (c : Waits κ ω) : Prop := (∃ garbage, c.map = new garbage) ∧ c.waiting = []

end Waits

/-! ## What steps take away -/

variable [DecidableEq κ]

/-- No entry goes. -/
def Keeps (s t : SharedResourceMap κ) : Prop := ∀ k v, s.data k = some v → t.data k = some v

omit [DecidableEq κ] in
theorem keeps_of_eq (h : t.data = s.data) : Keeps s t := fun _ _ hv => h ▸ hv

theorem keeps_getResource (s : SharedResourceMap κ) (key : κ) :
    (s.getResource key).map = s.map ∧ Keeps s (s.getResource key) := by
  have hshared : ∀ (s : SharedResourceMap κ) v, (s.createShared v).map = s.map ∧
      (s.createShared v).data = s.data := fun s v =>
    ⟨(letGo_createShared s v).map, (letGo_createShared s v).data⟩
  unfold SharedResourceMap.getResource
  split
  next v _ =>
    split
    next => split <;> [exact ⟨(hshared s v).1, keeps_of_eq (hshared s v).2⟩; exact ⟨rfl, keeps_of_eq rfl⟩]
    next => exact ⟨(hshared s v).1, keeps_of_eq (hshared s v).2⟩
  next hnone =>
    refine ⟨(hshared (s.emplace key) s.made).1, fun k v hv => ?_⟩
    have hk : k ≠ key := fun hk => by
      rw [hk, hnone] at hv
      cases hv
    rw [(hshared (s.emplace key) s.made).2]
    exact (Function.update_of_ne hk _ _).trans hv

/-- Only the sections of deleters take entries away, unless the map is destroyed. -/
theorem next_keeps (hinv : Inv s) (hmap : s.map) (a : Act κ) : (next s a).Yields fun t =>
    a = .destroy ∨ t.map ∧ (Keeps s t ∨ ∃ f, a = .deleteSection f ∧ s.erases f) := by
  cases a with
  | getResource key =>
    simp only [next, yields_bind, yields_requiring]
    intro _
    obtain ⟨hm, hkeeps⟩ := keeps_getResource s key
    exact yields_next.mpr (.inr ⟨hm ▸ hmap, .inl hkeeps⟩)
  | copy f =>
    simp only [next, yields_bind, yields_requiring]
    exact fun _ => yields_next.mpr (.inr ⟨hmap, .inl (keeps_of_eq rfl)⟩)
  | drop f =>
    simp only [next, yields_bind, yields_requiring]
    intro _
    split <;> exact yields_next.mpr (.inr ⟨hmap, .inl (keeps_of_eq rfl)⟩)
  | lock f =>
    simp only [next, yields_bind, yields_requiring]
    exact fun _ => yields_next.mpr (.inr ⟨hmap, .inl (keeps_of_eq rfl)⟩)
  | deleteSection f =>
    simp only [next, yields_bind, yields_requiring]
    intro _
    have hm : ((s.setDeleter f .leaving).deleteSection f).map = s.map := by
      rcases letGo_deleteSection (s.setDeleter f .leaving) f with ⟨hletGo, -⟩ | ⟨w, -, -, hletGo⟩
      · exact hletGo.map
      · exact hletGo.map
    refine yields_next.mpr (.inr ⟨hm.trans hmap, ?_⟩)
    by_cases herases : s.erases f
    · exact .inr ⟨f, rfl, herases⟩
    · exact .inl (keeps_of_eq (by rw [data_deleteSection, if_neg herases]))
  | leave f =>
    simp only [next, yields_bind, yields_requiring]
    intro hf
    have h' := hinv.setReturning hf
    refine yields_next.mpr (.inr ⟨h'.map_destroyInner.trans hmap, .inl (keeps_of_eq ?_)⟩)
    exact h'.data_destroyInner (inner_of_map (s := s.setDeleter f .returning) hmap)
  | finish f =>
    simp only [next, yields_bind, yields_requiring]
    intro _
    have hletGo := letGo_releaseWeak chain (s.setDeleter f .done) f
    exact yields_next.mpr (.inr ⟨hletGo.map.trans hmap, .inl (keeps_of_eq hletGo.data)⟩)
  | destroy =>
    simp only [next, yields_bind, yields_requiring]
    exact fun _ => yields_next.mpr (.inl trivial)

namespace Waits

variable [DecidableEq ω] {c d : Waits κ ω}

structure Inv (c : Waits κ ω) : Prop where
  inv : c.map.Inv
  entered : c.map.Entered
  map : c.waiting ≠ [] → c.map.map

omit [DecidableEq κ] [DecidableEq ω] in
theorem init_inv (h : Init c) : Inv c := by
  obtain ⟨⟨garbage, hmap⟩, hw⟩ := h
  refine ⟨hmap ▸ inv_new garbage, fun _ k v hv => ?_, fun hne => absurd hw hne⟩
  rw [hmap] at hv
  cases hv

theorem next_map {a : SharedResourceMap.Act κ} (hd : next c (.map a) = .next d) :
    c.mayTake a ∧ SharedResourceMap.next c.map a = .next d.map ∧ d.waiting = c.waiting := by
  simp only [next, bind_eq_next, requiring_eq_next, pure_eq, Outcome.next.injEq] at hd
  obtain ⟨-, htake, t, ht, rfl⟩ := hd
  exact ⟨htake, ht, rfl⟩

theorem next_inv (h : Inv c) (a : Act κ ω) : (next c a).Yields Inv := by
  cases a with
  | map a =>
    intro d hd
    obtain ⟨htake, ht, hw⟩ := next_map hd
    refine ⟨(SharedResourceMap.next_inv h.inv a).of_next ht, (next_entered h.inv h.entered a).of_next ht,
      fun hne => ?_⟩
    rw [hw] at hne
    rcases next_keeps h.inv (h.map hne) a _ ht with rfl | ⟨hm, -⟩
    · exact absurd (List.isEmpty_iff.mp htake) hne
    · exact hm
  | waitForEmpty w =>
    simp only [next, yields_bind, yields_requiring]
    intro hm
    split
    · exact yields_next.mpr h
    · exact yields_next.mpr ⟨h.inv, h.entered, fun _ => hm.1⟩
  | look w =>
    simp only [next, yields_bind, yields_requiring]
    intro hw
    split
    · exact yields_next.mpr ⟨h.inv, h.entered, fun _ => h.map (List.ne_nil_of_mem hw)⟩
    · exact yields_next.mpr h

theorem reachable_inv (h : Runs.Reachable next Init c) : Inv c :=
  h.yields (fun _ => init_inv) fun _ a hv => next_inv hv a

/-- `notify_all` where an entry is erased is enough. -/
theorem enough : Sleepers.Enough (κ := Unit) next signals (Inv (κ := κ) (ω := ω))
    (fun c w _ => w ∈ c.waiting) (fun c _ => c.map.empty) where
  sleeps {c a d w p} hv hd hw hs := by
    cases a with
    | map a => cases hw
    | waitForEmpty v =>
      cases hw
      have hne : ¬c.map.empty := fun he => by simp [signals, he] at hs
      simp only [next, bind_eq_next, requiring_eq_next, if_neg hne, pure_eq, Outcome.next.injEq] at hd
      obtain ⟨-, -, rfl⟩ := hd
      exact ⟨List.mem_cons_self, hne⟩
    | look v =>
      cases hw
      have hne : ¬c.map.empty := fun he => by simp [signals, he] at hs
      simp only [next, bind_eq_next, requiring_eq_next, if_neg hne, pure_eq, Outcome.next.injEq] at hd
      obtain ⟨-, hmem, rfl⟩ := hd
      exact ⟨hmem, hne⟩
  keeps {c a d w p} hv hd hw hwaits hready := by
    cases a with
    | map a =>
      obtain ⟨htake, ht, hwaiting⟩ := next_map hd
      refine ⟨hwaiting ▸ hwaits, fun hempty => .inl ?_⟩
      have hentries := ((SharedResourceMap.next_inv hv.inv a).of_next ht).handles.entries
      rcases next_keeps hv.inv (hv.map (List.ne_nil_of_mem hwaits)) a _ ht with rfl | ⟨-, hkeeps | ⟨f, rfl, hf⟩⟩
      · exact absurd (List.isEmpty_iff.mp htake) (List.ne_nil_of_mem hwaits)
      · refine absurd ((empty_iff hv.inv.handles.entries).mpr fun k => ?_) hready
        cases hk : c.map.data k with
        | none => rfl
        | some v =>
          have hkept := hkeeps k v hk
          rw [(empty_iff hentries).mp hempty] at hkept
          cases hkept
      · simp [signals, hf]
    | waitForEmpty v =>
      simp only [next, bind_eq_next, requiring_eq_next, if_neg hready, pure_eq, Outcome.next.injEq] at hd
      obtain ⟨-, -, rfl⟩ := hd
      exact ⟨List.mem_cons_of_mem v hwaits, fun he => absurd he hready⟩
    | look v =>
      simp only [next, bind_eq_next, requiring_eq_next, if_neg hready, pure_eq, Outcome.next.injEq] at hd
      obtain ⟨-, -, rfl⟩ := hd
      exact ⟨hwaits, fun he => absurd he hready⟩

omit [DecidableEq ω] in
/-- A map that is empty has no handles. -/
theorem Inv.not_live (h : Inv c) (hmap : c.map.map) (hempty : c.map.empty) (f : Nat) : ¬c.map.Live f := by
  intro hf
  have hentered := h.inv.handles.entered (inner_of_map hmap) f hf
  rw [(empty_iff h.inv.handles.entries).mp hempty] at hentered
  cases hentered

/-- Threads only look when it is of use. -/
def Useful (c : Waits κ ω) (a : Act κ ω) : Prop :=
  ∀ w (_ : Unit), signals.actor a = some w → w ∈ c.waiting → c.map.empty

/-- The steps of the map, with the threads that wait. -/
theorem run_map {s t : SharedResourceMap κ} {as : List (SharedResourceMap.Act κ)}
    (h : Runs.run SharedResourceMap.next s as = .next t) (has : ∀ a ∈ as, a.ofDeleter) (waiting : List ω) :
    Runs.run next (⟨s, waiting⟩ : Waits κ ω) (as.map .map) = .next ⟨t, waiting⟩ ∧
      Runs.Meets next Useful (⟨s, waiting⟩ : Waits κ ω) (as.map .map) := by
  induction as generalizing s with
  | nil =>
    cases h
    exact ⟨rfl, trivial⟩
  | cons a as ih =>
    simp only [Runs.run, bind_eq_next] at h
    obtain ⟨m, hm, hrest⟩ := h
    have htake : mayTake (⟨s, waiting⟩ : Waits κ ω) a := by
      have ha := has a List.mem_cons_self
      cases a with
      | destroy => cases ha
      | _ => rfl
    have hnext : next (⟨s, waiting⟩ : Waits κ ω) (.map a) = .next ⟨m, waiting⟩ := by
      simp [next, requiring_true htake, hm]
    obtain ⟨hrun, hmeets⟩ := ih hrest fun b hb => has b (List.mem_cons_of_mem a hb)
    refine ⟨by rw [List.map_cons, Runs.run, hnext, next_bind, hrun], .cons ?_ hnext hmeets⟩
    intro w _ hw
    cases hw

/-- In whatever way deleters have erased each other's entries: when all of them
have been through their sections, the map is empty and nobody sleeps. -/
theorem empty_without_deleters {c : Sleepers.Config (Waits κ ω) ω Unit}
    (h : Runs.Reachable (Sleepers.next next signals) (Sleepers.Init Init) c)
    (hdone : ∀ f < c.state.map.blocks, ¬(c.state.map.block f).deleter.early) :
    (c.state.map.map → c.state.map.empty) ∧ c.asleep = [] := by
  have hv := reachable_inv (Sleepers.reachable_base h)
  have hempty : c.state.map.map → c.state.map.empty := fun hmap =>
    (empty_iff hv.inv.handles.entries).mpr fun k => by
      cases hk : c.state.map.data k with
      | none => rfl
      | some v =>
        obtain ⟨f, hf, hearly⟩ := hv.entered hmap k v hk
        have hlt := (hv.inv.owners.linked.weakPtr v (hv.inv.handles.entries k v hk).1 f hf).1
        exact absurd hearly (hdone f hlt)
  refine ⟨hempty, List.eq_nil_iff_forall_not_mem.mpr fun p hp => ?_⟩
  obtain ⟨hwaits, hready⟩ := Sleepers.no_lost_wakeup enough (fun _ => reachable_inv) h p hp
  exact hready (hempty (hv.map (List.ne_nil_of_mem hwaits)))

/-- Two control blocks for one resource, whose handles are gone. -/
def dropped : List (Sleepers.Act (Act Nat Bool) Bool) :=
  [.act (.map (.getResource 0)) none, .act (.map (.drop 0)) none, .act (.map (.getResource 0)) none,
    .act (.waitForEmpty true) none, .act (.map (.drop 1)) none]

end Waits

end SharedResourceMap
