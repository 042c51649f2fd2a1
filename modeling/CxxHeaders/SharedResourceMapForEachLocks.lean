/-
A thread in `forEach` locks the mutex once if and only if it lets go of no last
handle (`locks_once_iff`): the map cannot go away meanwhile, so the deleter finds
it and locks the mutex again.
-/
import CxxHeaders.SharedResourceMapForEach

open Outcome SharedResourceMap

namespace SharedResourceMapForEach

variable {κ : Type} {s : SharedResourceMap κ} {f : Nat}

/-! ## The other threads -/

/-- The map and its entries stay, and so do the handles of `p`. -/
structure Stays (s t : SharedResourceMap κ) (p : Nat → Prop) : Prop where
  map : t.map
  data : t.data = s.data
  live : ∀ f, p f → s.Live f → t.Live f

theorem setUseCount_live {n g : Nat} (hn : g = f → 0 < n) (hg : s.Live g) :
    (s.setUseCount f n).Live g := by
  by_cases hgf : g = f
  · simpa [Live, SharedResourceMap.setUseCount, hgf] using hn hgf
  · simpa [Live, SharedResourceMap.setUseCount, hgf] using hg

theorem destroyInner_of_map [DecidableEq κ] (h : s.map) : s.destroyInner = s :=
  if_pos (inner_of_map h)

/-- What locks no mutex erases no entry, and drops only a handle. -/
theorem stays_next [DecidableEq κ] (hmap : s.map) {a : SharedResourceMap.Act κ} (ha : ¬Excluded a) :
    (s.next a).Ok fun t => Stays s t fun f => a = .drop f → 1 < (s.block f).useCount := by
  cases a with
  | getResource | deleteSection | destroy => exact absurd rfl ha
  | copy f =>
    simp only [SharedResourceMap.next, ok_bind, ok_requiring]
    exact fun _ => ⟨hmap, rfl, fun g _ hg => setUseCount_live (fun _ => Nat.succ_pos _) hg⟩
  | drop f =>
    simp only [SharedResourceMap.next, ok_bind, ok_requiring]
    intro _
    have hlive : ∀ g, ((.drop f : SharedResourceMap.Act κ) = .drop g → 1 < (s.block g).useCount) →
        s.Live g → (s.setUseCount f ((s.block f).useCount - 1)).Live g := by
      intro g hdrop hg
      exact setUseCount_live (fun hgf => Nat.sub_pos_of_lt (hgf ▸ hdrop (hgf ▸ rfl))) hg
    split
    · exact ⟨hmap, rfl, fun g hdrop hg => live_setDeleter.mpr (hlive g hdrop hg)⟩
    · exact ⟨hmap, rfl, hlive⟩
  | lock f =>
    simp only [SharedResourceMap.next, ok_bind, ok_requiring]
    exact fun _ => ⟨hmap, rfl, fun g _ hg => live_setDeleter.mpr hg⟩
  | leave f =>
    simp only [SharedResourceMap.next, ok_bind, ok_requiring]
    intro _
    rw [pure_eq, destroyInner_of_map (by exact hmap)]
    exact ⟨hmap, rfl, fun g _ hg => live_setDeleter.mpr hg⟩
  | finish f =>
    simp only [SharedResourceMap.next, ok_bind, ok_requiring]
    intro _
    have hletGo := letGo_releaseWeak chain (s.setDeleter f .done) f
    exact ⟨hletGo.map.trans hmap, hletGo.data, fun g _ hg => hletGo.live.mpr (live_setDeleter.mpr hg)⟩

/-! ## The thread in `forEach` -/

/-- A handle goes that is not the last one. -/
theorem dropLocked_of_ne (hf : (s.block f).useCount ≠ 1) (hlive : s.Live f) :
    dropLocked s f = .next (s.setUseCount f ((s.block f).useCount - 1)) := by
  unfold Live at hlive
  have hcount : (s.block f).useCount - 1 ≠ 0 := by omega
  simp [dropLocked, SharedResourceMap.setUseCount, hcount]

theorem dropLocked_of_eq (hf : (s.block f).useCount = 1) (hmap : s.map) :
    dropLocked s f = .failed := by
  have hcount : ((s.setUseCount f 0).block f).useCount = 0 := by simp [SharedResourceMap.setUseCount]
  unfold dropLocked
  rw [hf]
  have hinner : (s.setUseCount f (1 - 1)).inner := inner_of_map hmap
  exact (if_pos hcount).trans (if_pos hinner)

/-- The entries that are left are there, and so is the handle. -/
structure Iterating (s : SharedResourceMap κ) (i : Iteration κ) : Prop where
  map : s.map
  rest : ∀ key ∈ i.rest, s.data key ≠ none
  handle : ∀ f, i.handle = some f → s.Live f

structure Inv (c : Config κ) : Prop where
  map : c.map.Inv
  forEach : ∀ i, c.forEach = some i → Iterating c.map i

theorem inv_new (garbage : Nat → ValueObj κ) : Inv (new garbage) :=
  ⟨SharedResourceMap.inv_new garbage, nofun⟩

theorem Iterating.stays {t : SharedResourceMap κ} {i : Iteration κ} {p : Nat → Prop}
    (h : Iterating s i) (ht : Stays s t p) (hp : ∀ f, i.handle = some f → p f) : Iterating t i :=
  ⟨ht.map, ht.data ▸ h.rest, fun f hf => ht.live f (hp f hf) (h.handle f hf)⟩

/-- A handle of `f` goes, and the thread has locked the mutex. -/
def LetsGo (c : Config κ) (f : Nat) : Act κ → Prop
  | .drop => ∃ i, c.forEach = some i ∧ i.visitor ∧ i.handle = some f
  | .dropOther g => g = f ∧ ∃ i, c.forEach = some i ∧ i.visitor ∧ held i f < (c.map.block f).useCount
  | _ => False

/-- What goes is not the last handle. -/
def Another (c : Config κ) (a : Act κ) : Prop := ∀ f, LetsGo c f a → (c.map.block f).useCount ≠ 1

theorem mem_keys [LinearOrder κ] {key : κ} (h : key ∈ keys s) : s.data key ≠ none := by
  unfold keys at h
  rw [List.mem_insertionSort, List.mem_filterMap] at h
  obtain ⟨v, -, hv⟩ := h
  dsimp only at hv
  split at hv
  next hdata =>
    cases hv
    rw [hdata]
    exact nofun
  next => cases hv

/-! ## Steps -/

variable {c : Config κ}

theorem Iterating.setUseCount {i : Iteration κ} {n : Nat} (h : Iterating s i) (hn : 0 < n) :
    Iterating (s.setUseCount f n) i :=
  ⟨h.map, h.rest, fun g hg => setUseCount_live (fun _ => hn) (h.handle g hg)⟩

theorem Inv.setForEach (h : Inv c) {forEach : Option (Iteration κ)}
    (hi : ∀ i, forEach = some i → Iterating c.map i) : Inv { c with forEach := forEach } :=
  ⟨h.map, hi⟩

theorem inv_setUseCount (h : s.Inv) (hf : s.Live f) {n : Nat} (hn : 0 < n) {i : Iteration κ}
    (hi : Iterating s i) : Inv ⟨s.setUseCount f n, some i⟩ := by
  refine ⟨⟨h.owners.setUseCount f n, h.handles.setUseCount hf hn⟩, fun j hj => ?_⟩
  cases hj
  exact hi.setUseCount hn

theorem dropLocked_ok (h : s.Inv) (hf : s.Live f) (hne : (s.block f).useCount ≠ 1) {i : Iteration κ}
    (hi : Iterating s i) : (dropLocked s f).Ok fun t => Inv ⟨t, some i⟩ := by
  rw [dropLocked_of_ne hne hf]
  unfold Live at hf
  exact inv_setUseCount h hf (by omega) hi

variable [LinearOrder κ]

/-- Another thread goes on, and leaves one handle to the thread in `forEach`. -/
theorem other_ok (h : s.Inv) {i : Iteration κ} (hi : Iterating s i) {a : SharedResourceMap.Act κ}
    (ha : ¬Excluded a) (hdrop : ∀ f, a = .drop f → held i f < (s.block f).useCount) :
    (s.next a).Ok fun t => Inv ⟨t, some i⟩ := by
  refine ((next_inv h a).and (stays_next hi.map ha)).mono fun t ht => ⟨ht.1, fun j hj => ?_⟩
  cases hj
  refine hi.stays ht.2 fun f hf hfa => ?_
  have hheld := hdrop f hfa
  rwa [held, if_pos hf] at hheld

theorem next_ok (h : Inv c) {a : Act κ} (ha : Another c a) : (next c a).Ok Inv := by
  obtain ⟨s, forEach⟩ := c
  have hs := h.map
  cases a with
  | other a =>
    cases forEach with
    | none =>
      simp only [next, ok_bind]
      exact (next_inv hs a).mono fun t ht => ⟨ht, nofun⟩
    | some i =>
      have hi := h.forEach i rfl
      simp only [next]
      rw [ok_bind, ok_requiring]
      intro hexcluded
      split
      next f =>
        rw [ok_bind, ok_requiring]
        intro hheld
        rw [ok_bind]
        exact other_ok hs hi hexcluded fun g hg => by cases hg; exact hheld
      next hne =>
        rw [ok_bind]
        exact other_ok hs hi hexcluded fun g hg => absurd hg (hne g)
  | forEach =>
    simp only [next, ok_bind, ok_requiring]
    intro ⟨hmap, _⟩
    refine h.setForEach fun i hi => ?_
    cases hi
    exact ⟨hmap, fun key hkey => mem_keys hkey, nofun⟩
  | visit =>
    match forEach with
    | some ⟨key :: rest, false, none⟩ =>
      have hi := h.forEach _ rfl
      have hrest : Iterating s ⟨rest, false, none⟩ :=
        ⟨hi.map, fun k hk => hi.rest k (List.mem_cons_of_mem key hk), nofun⟩
      have hskip : Inv ⟨s, some ⟨rest, false, none⟩⟩ := h.setForEach fun j hj => by cases hj; exact hrest
      simp only [next]
      split
      next hnone => exact hi.rest key List.mem_cons_self hnone
      next v _ =>
        split
        next f _ =>
          split
          next => exact hskip
          next hcount =>
            have hf : s.Live f := Nat.pos_of_ne_zero hcount
            refine inv_setUseCount hs hf (Nat.succ_pos _) ⟨hrest.map, hrest.rest, fun g hg => ?_⟩
            cases hg
            exact hf
        next => exact hskip
    | none | some ⟨[], _, _⟩ | some ⟨_ :: _, true, _⟩ | some ⟨_ :: _, false, some _⟩ => trivial
  | keep =>
    match forEach with
    | some ⟨rest, true, some f⟩ =>
      have hi := h.forEach _ rfl
      exact h.setForEach fun j hj => by cases hj; exact ⟨hi.map, hi.rest, nofun⟩
    | none | some ⟨_, false, _⟩ | some ⟨_, true, none⟩ => trivial
  | drop =>
    match forEach with
    | some ⟨rest, true, some f⟩ =>
      have hi := h.forEach _ rfl
      simp only [next, ok_bind]
      exact dropLocked_ok hs (hi.handle f rfl) (ha f ⟨_, rfl, rfl, rfl⟩) ⟨hi.map, hi.rest, nofun⟩
    | none | some ⟨_, false, _⟩ | some ⟨_, true, none⟩ => trivial
  | dropOther f =>
    cases forEach with
    | none => trivial
    | some i =>
      simp only [next, ok_bind, ok_requiring]
      intro ⟨hvisitor, hheld⟩
      exact dropLocked_ok hs (Nat.zero_lt_of_lt hheld) (ha f ⟨rfl, i, rfl, hvisitor, hheld⟩) (h.forEach i rfl)
  | finish =>
    match forEach with
    | some ⟨rest, true, none⟩ =>
      have hi := h.forEach _ rfl
      exact h.setForEach fun j hj => by cases hj; exact ⟨hi.map, hi.rest, nofun⟩
    | none | some ⟨_, false, _⟩ | some ⟨_, true, some _⟩ => trivial
  | leave =>
    match forEach with
    | some ⟨rest, visitor, none⟩ =>
      simp only [next, ok_bind, ok_requiring]
      exact fun _ => h.setForEach nofun
    | none | some ⟨_, _, some _⟩ => trivial

/-- The last handle goes, and the mutex is locked twice. -/
theorem another_of_ok (h : Inv c) {a : Act κ} (ha : (next c a).Ok fun _ => True) : Another c a := by
  intro f hf hcount
  cases a with
  | drop =>
    obtain ⟨⟨rest, visitor, handle⟩, hi, hvisitor, hhandle⟩ := hf
    have hmap := (h.forEach _ hi).map
    cases hvisitor
    cases hhandle
    simp only [next, hi, ok_bind, dropLocked_of_eq hcount hmap] at ha
    exact ha
  | dropOther g =>
    obtain ⟨rfl, i, hi, hvisitor, hheld⟩ := hf
    have hmap := (h.forEach _ hi).map
    simp only [next, hi, ok_bind, ok_requiring, dropLocked_of_eq hcount hmap] at ha
    exact ha ⟨hvisitor, hheld⟩
  | _ => exact hf

/-- **A thread in `forEach` locks the mutex once**, and goes from entry to entry, if and
only if it never lets go of the last handle of a resource. -/
theorem locks_once_iff (garbage : Nat → ValueObj κ) (as : List (Act κ)) :
    Runs.Along next (fun _ _ _ => True) (new garbage) as ↔ Runs.Meets next Another (new garbage) as := by
  refine Runs.along_iff_meets (I := Inv) (D := fun _ _ => True) (fun c a h _ => ?_)
    (fun c a t h _ hn ht => ?_) (inv_new garbage) (Runs.meets_true as)
  · exact ⟨fun ha => (next_ok h ha).mono fun _ _ => trivial, another_of_ok h⟩
  · have ha : (next c a).Ok fun _ => True := by rw [hn]; trivial
    exact (next_ok h (another_of_ok h ha)).of_next hn

/-- The visitor's handle has become the last one. -/
theorem forEach_locks_twice :
    ¬∀ as, Runs.Along next (fun _ _ _ => True) (new (κ := Nat) fun _ => ⟨0, none⟩) as := by
  intro h
  have hdrop := h [.other (.getResource 0), .forEach, .visit, .other (.drop 0), .drop]
  obtain ⟨-, -, -, -, hfailed⟩ := hdrop
  exact hfailed

end SharedResourceMapForEach
