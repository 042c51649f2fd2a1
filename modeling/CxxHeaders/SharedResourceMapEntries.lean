/-
The entries of a `SharedResourceMap`.

An entry is there as long as the control block that its `ValueObj_` observes has
handles, or its deleter has not been through its section (`Entered`), whatever
other deleters do; so, when there are no handles, the deleters that are left
take all entries away (`Quiet.clears`).
-/
import CxxHeaders.SharedResourceMapReleases

open Outcome

namespace SharedResourceMap

variable {κ : Type} {s t : SharedResourceMap κ} {f v : Nat}

/-- `m_data.empty()`: the entries are those of `ValueObj_`s. -/
def empty [DecidableEq κ] (s : SharedResourceMap κ) : Bool :=
  (List.range s.made).all fun v => s.data (s.valueObj v).key ≠ some v

/-- The section of the deleter erases an entry. -/
def erases (s : SharedResourceMap κ) (f : Nat) : Bool :=
  match s.data (s.valueObj (s.block f).valueObj).key with
  | some w => s.expired w
  | none => false

/-! ## Entries -/

/-- Every entry still has its deleter to come. -/
def Entered (s : SharedResourceMap κ) : Prop :=
  s.map → ∀ k v, s.data k = some v → ∃ f, (s.valueObj v).weakPtr = some f ∧ (s.block f).deleter.early

theorem Entered.mono (h : Entered s) (hmap : t.map → s.map)
    (hdata : ∀ k v, t.data k = some v → s.data k = some v) (hvalueObj : t.valueObj = s.valueObj)
    (hearly : ∀ f, (s.block f).deleter.early → (t.block f).deleter.early) : Entered t := by
  intro hm k v hv
  obtain ⟨f, hf, hd⟩ := h (hmap hm) k v (hdata k v hv)
  exact ⟨f, by rwa [hvalueObj], hearly f hd⟩

theorem Entered.congr (h : Entered s) (hletGo : LetGo s t) : Entered t :=
  h.mono (by rw [hletGo.map]; exact id) (by rw [hletGo.data]; exact fun _ _ => id) hletGo.valueObj
    fun f hf => by rwa [hletGo.deleter]

theorem Entered.setUseCount (h : Entered s) (f n : Nat) : Entered (s.setUseCount f n) := by
  refine h.mono id (fun _ _ => id) rfl fun g hg => ?_
  by_cases hgf : g = f
  · simpa [SharedResourceMap.setUseCount, hgf] using hgf ▸ hg
  · simpa [SharedResourceMap.setUseCount, hgf] using hg

/-- A deleter goes on, not through its section. -/
theorem Entered.setDeleter (h : Entered s) {d : Deleter} (hd : (s.block f).deleter.early → d.early) :
    Entered (s.setDeleter f d) := by
  refine h.mono id (fun _ _ => id) rfl fun g hg => ?_
  by_cases hgf : g = f
  · rw [hgf, deleter_setDeleter]
    exact hd (hgf ▸ hg)
  · simpa [SharedResourceMap.setDeleter, hgf] using hg

/-- A resource with an entry gets a handle. -/
theorem Entered.createShared (hl : Linked s) (hentries : Entries s)
    (h : ∀ k w, s.data k = some w → w ≠ v → ∃ f, (s.valueObj w).weakPtr = some f ∧ (s.block f).deleter.early) :
    Entered (s.createShared v) := by
  refine Entered.congr (s := s.newHandle v) (fun _ k w hw => ?_) (letGo_createShared s v)
  by_cases hwv : w = v
  · exact ⟨s.blocks, by rw [hwv, newHandle_valueObj], by rw [newHandle_block]; rfl⟩
  · obtain ⟨f, hf, hd⟩ := h k w hw hwv
    have hlt := (hl.weakPtr w (hentries k w hw).1 f hf).1
    refine ⟨f, by rw [newHandle_valueObj_of_ne hwv, hf], ?_⟩
    rwa [newHandle_block_of_ne (Nat.ne_of_lt hlt)]

variable [DecidableEq κ]

theorem empty_iff (h : Entries s) : s.empty ↔ ∀ k, s.data k = none := by
  simp only [empty, List.all_eq_true, List.mem_range, ne_eq, decide_not, Bool.not_eq_true',
    decide_eq_false_iff_not]
  constructor
  · intro hall k
    cases hk : s.data k with
    | none => rfl
    | some v =>
      obtain ⟨hv, rfl⟩ := h k v hk
      exact absurd hk (hall v hv)
  · intro hnone v _ hv
    rw [hnone] at hv
    cases hv

theorem Entered.getResource (h : Entered s) (hinv : Inv s) (hmap : s.map) (key : κ) :
    Entered (s.getResource key) := by
  have hl := hinv.owners.linked
  unfold SharedResourceMap.getResource
  split
  next v _ =>
    have hshared : Entered (s.createShared v) :=
      .createShared hl hinv.handles.entries fun k w hw _ => h hmap k w hw
    split
    next f _ => split <;> [exact hshared; exact h.setUseCount f _]
    next => exact hshared
  next hnone =>
    have hinv' : Linked (s.emplace key) ∧ Entries (s.emplace key) :=
      ⟨(hinv.owners.emplace hnone).linked, (hinv.handles.emplace hl hnone).entries⟩
    refine .createShared hinv'.1 hinv'.2 fun k w hw hne => ?_
    have hk : k ≠ key := fun hk => by
      have hw : Function.update s.data key (some s.made) k = some w := hw
      rw [hk, Function.update_self] at hw
      exact hne (Option.some.inj hw).symm
    have hw : s.data k = some w := (Function.update_of_ne hk _ _).symm.trans hw
    obtain ⟨f, hf, hd⟩ := h hmap k w hw
    exact ⟨f, by rw [emplace_valueObj_of_lt (hinv.handles.entries k w hw).1, hf], hd⟩

omit [DecidableEq κ] in
/-- The deleter of the control block that an entry observes finds it. -/
theorem erases_of_observed (hinv : Inv s) {k : κ} (hv : s.data k = some v)
    (hf : (s.valueObj v).weakPtr = some f) (hlive : ¬s.Live f) : s.keyOf f = k ∧ s.erases f := by
  obtain ⟨hlt, hkey⟩ := hinv.handles.entries k v hv
  have htarget := (hinv.owners.linked.weakPtr v hlt f hf).2
  have hexp : s.expired v := by
    unfold Live at hlive
    rw [expired, hf]
    simpa using hlive
  refine ⟨by rw [keyOf, htarget, hkey], ?_⟩
  rw [erases, htarget, hkey, hv]
  exact hexp

/-- What the section of a deleter does to the entries. -/
theorem data_deleteSection (s : SharedResourceMap κ) (f : Nat) :
    ((s.setDeleter f .leaving).deleteSection f).data =
      if s.erases f then Function.update s.data (s.keyOf f) none else s.data := by
  rcases letGo_deleteSection (s.setDeleter f .leaving) f with ⟨hletGo, hnot⟩ | ⟨w, hw, hexp, hletGo⟩
  · have hne : ¬s.erases f := by
      unfold erases
      split
      next w hw =>
        have hexp := hnot w (keyOf_setDeleter (s := s) ▸ hw)
        rwa [expired_setDeleter] at hexp
      next => simp
    rw [hletGo.data, if_neg hne]
    rfl
  · have hdata : ((s.setDeleter f .leaving).deleteSection f).data =
        Function.update s.data ((s.setDeleter f .leaving).keyOf f) none := hletGo.data
    rw [keyOf_setDeleter] at hdata hw
    have herases : s.erases f := by
      rw [expired_setDeleter] at hexp
      rw [erases, show s.data (s.valueObj (s.block f).valueObj).key = some w from hw]
      exact hexp
    rw [hdata, if_pos herases]

theorem data_of_deleteSection {k : κ} (h : ((s.setDeleter f .leaving).deleteSection f).data k = some v) :
    s.data k = some v ∧ (s.erases f → k ≠ s.keyOf f) := by
  rw [data_deleteSection] at h
  split at h
  · have hk : k ≠ s.keyOf f := fun hk => by
      rw [hk, Function.update_self] at h
      cases h
    rw [Function.update_of_ne hk] at h
    exact ⟨h, fun _ => hk⟩
  · next hne => exact ⟨h, fun he => absurd he hne⟩

theorem Entered.deleteSection (h : Entered s) (hinv : Inv s) (hf : (s.block f).deleter = .locked) :
    Entered ((s.setDeleter f .leaving).deleteSection f) := by
  have hparts : ((s.setDeleter f .leaving).deleteSection f).map = s.map ∧
      ((s.setDeleter f .leaving).deleteSection f).valueObj = s.valueObj ∧
      ∀ g, (((s.setDeleter f .leaving).deleteSection f).block g).deleter =
        ((s.setDeleter f .leaving).block g).deleter := by
    rcases letGo_deleteSection (s.setDeleter f .leaving) f with ⟨hletGo, -⟩ | ⟨w, -, -, hletGo⟩
    · exact ⟨hletGo.map, hletGo.valueObj, hletGo.deleter⟩
    · exact ⟨hletGo.map, hletGo.valueObj, fun g => (hletGo.deleter g).trans
        ((letGo_uncapture (s.setDeleter f .leaving) f).deleter g)⟩
  obtain ⟨hmap, hvalueObj, hdeleter⟩ := hparts
  intro hm k v hv
  obtain ⟨hv, hspared⟩ := data_of_deleteSection hv
  obtain ⟨g, hg, hd⟩ := h (hmap ▸ hm) k v hv
  have hgf : g ≠ f := fun hgf => by
    rw [hgf] at hg
    obtain ⟨hk, herases⟩ := erases_of_observed hinv hv hg (hinv.handles.not_live (by simp [hf]))
    exact hspared herases hk.symm
  refine ⟨g, by rw [hvalueObj, hg], ?_⟩
  rw [hdeleter]
  simpa [SharedResourceMap.setDeleter, hgf] using hd

theorem Entered.destroyInner (h : Entered s) (hinv : Inv s) : Entered s.destroyInner := by
  have hletGo := (hinv.owners.destroyInner hinv.handles.entries).2
  refine Entered.congr (s := { s with data := if s.inner then s.data else fun _ => none }) ?_ hletGo
  refine h.mono id (fun k v hv => ?_) rfl fun _ => id
  have hv : (if s.inner then s.data else fun _ => none) k = some v := hv
  split at hv
  · exact hv
  · cases hv

theorem next_entered (hinv : Inv s) (h : Entered s) (a : Act κ) : (next s a).Ok Entered := by
  cases a with
  | getResource key =>
    simp only [next, ok_bind, ok_requiring]
    exact fun hmap => h.getResource hinv hmap key
  | copy f =>
    simp only [next, ok_bind, ok_requiring]
    exact fun _ => h.setUseCount f _
  | drop f =>
    simp only [next, ok_bind, ok_requiring]
    intro _
    split
    · exact (h.setUseCount f _).setDeleter fun _ => rfl
    · exact h.setUseCount f _
  | lock f =>
    simp only [next, ok_bind, ok_requiring]
    intro _
    split
    next => exact h.setDeleter fun _ => rfl
    next hi =>
      intro hm
      exact absurd (inner_of_map (s := s) hm) hi
  | deleteSection f =>
    simp only [next, ok_bind, ok_requiring]
    exact fun hf => h.deleteSection hinv hf
  | leave f =>
    simp only [next, ok_bind, ok_requiring]
    intro hf
    refine Entered.destroyInner (h.setDeleter fun hd => ?_) (hinv.setReturning hf)
    rw [hf] at hd
    cases hd
  | finish f =>
    simp only [next, ok_bind, ok_requiring]
    intro hf
    refine (h.setDeleter fun hd => ?_).congr (letGo_releaseWeak chain _ f)
    rw [hf] at hd
    cases hd
  | destroy =>
    simp only [next, ok_bind, ok_requiring]
    intro hmap
    exact Entered.destroyInner (h.mono (fun _ => hmap) (fun _ _ => id) rfl fun _ => id) (hinv.destroyMap hmap)

/-! ## Without handles -/

/-- A map that is there, and no handles. -/
structure Quiet (s : SharedResourceMap κ) : Prop where
  inv : Inv s
  entered : Entered s
  map : s.map
  handles : ∀ f, ¬s.Live f

omit [DecidableEq κ] in
/-- Every entry has a deleter that waits for its section. -/
theorem Quiet.deleter (h : Quiet s) {k : κ} (hv : s.data k = some v) :
    ∃ f, (s.valueObj v).weakPtr = some f ∧ ((s.block f).deleter = .pending ∨ (s.block f).deleter = .locked) := by
  obtain ⟨f, hf, hd⟩ := h.entered h.map k v hv
  have hlt := (h.inv.owners.linked.weakPtr v (h.inv.handles.entries k v hv).1 f hf).1
  refine ⟨f, hf, ?_⟩
  cases hdel : (s.block f).deleter with
  | unused => exact absurd ((h.inv.handles.unused f).mpr ⟨hlt, hdel⟩) (h.handles f)
  | pending => exact .inl rfl
  | locked => exact .inr rfl
  | leaving | returning | done => simp [hdel, Deleter.early] at hd

theorem Quiet.lock (h : Quiet s) (hf : (s.block f).deleter = .pending) :
    next s (.lock f) = .next (s.setDeleter f .locked) ∧ Quiet (s.setDeleter f .locked) := by
  have hnext : next s (.lock f) = .next (s.setDeleter f .locked) := by
    simp [next, hf, requiring, inner_of_map h.map]
  have hinv := (next_inv h.inv (.lock f)).of_next hnext
  have hentered := (next_entered h.inv h.entered (.lock f)).of_next hnext
  exact ⟨hnext, hinv, hentered, h.map, fun g hg => h.handles g (live_setDeleter.mp hg)⟩

theorem Quiet.deleteSection (h : Quiet s) (hf : (s.block f).deleter = .locked) :
    next s (.deleteSection f) = .next ((s.setDeleter f .leaving).deleteSection f) ∧
      Quiet ((s.setDeleter f .leaving).deleteSection f) := by
  have hnext : next s (.deleteSection f) = .next ((s.setDeleter f .leaving).deleteSection f) := by
    simp [next, hf, requiring]
  have hinv := (next_inv h.inv (.deleteSection f)).of_next hnext
  have hentered := (next_entered h.inv h.entered (.deleteSection f)).of_next hnext
  obtain ⟨hmap, hlive⟩ : ((s.setDeleter f .leaving).deleteSection f).map = s.map ∧
      ∀ g, ((s.setDeleter f .leaving).deleteSection f).Live g → s.Live g := by
    rcases letGo_deleteSection (s.setDeleter f .leaving) f with ⟨hletGo, -⟩ | ⟨w, -, -, hletGo⟩
    · exact ⟨hletGo.map, fun g hg => live_setDeleter.mp (hletGo.live.mp hg)⟩
    · refine ⟨hletGo.map, fun g hg => ?_⟩
      have hg : (s.setDeleter f .leaving).Live g :=
        (letGo_uncapture (s.setDeleter f .leaving) f).live.mp (hletGo.live.mp hg)
      exact live_setDeleter.mp hg
  exact ⟨hnext, hinv, hentered, hmap.trans h.map, fun g hg => h.handles g (hlive g hg)⟩

/-- A deleter on its way to and through its section. -/
def Act.ofDeleter : Act κ → Bool
  | .lock _ | .deleteSection _ => true
  | _ => false

end SharedResourceMap
